import Xv6Mlfq.Fs.Links
import Xv6Mlfq.Fs.Runs

/-!
# The tree along a run

`link`, `unlink` and `create` change the entries in one of the four ways of `Xv6Mlfq.Fs.Links` (`Tree.link`,
`Tree.create_file`, `Tree.create_dir`, `Tree.unlink_file`, `Tree.unlink_dir`), so a system call keeps the tree
(`Step.tree`). There is one exception: a directory that is removed while it is open or a current directory is not freed,
and its `..` may lead to a directory that is freed later. `Tame` runs do without it, and keep the tree from a sound
image on (`run_tree`).
-/

namespace Xv6Mlfq.Fs

open Lib

/-! ## The entries after a call -/

section entries

variable {sb : Superblock} {T T' : Nat → Node} {d d' i j f m n : Nat} {κ : List UInt8} {name : Name}

theorem entry_congr (ht : (T' d).type = (T d).type) (hc : (T' d).contents = (T d).contents) :
    Entry T' d j κ m ↔ Entry T d j κ m := by
  unfold Entry
  rw [ht, hc]

theorem not_entry_of_type (h : (T d).type ≠ .dir) : ¬ Entry T d j κ m := fun he => h he.1

theorem entry_link (name : Name) (hok : DirOk sb (T d).contents) (hi : 0 < i ∧ i < 65536)
    (hd : (T d).type = .dir) (ht : (T' d).type = .dir) (hc : (T' d).contents = ((T d).link i name).contents) :
    Entry T' d j κ m ↔ Entry T d j κ m ∨ (j = freeSlot (entries (T d).contents) ∧ κ = key name ∧ m = i) := by
  unfold Entry
  rw [ht, hd, hc, entries_link hok, Nat.mod_eq_of_lt hi.2, and_iff_right rfl, and_iff_right rfl, place_getElem?]
  by_cases hj : j = freeSlot (entries (T d).contents)
  · rw [if_pos hj, and_iff_right hj]
    constructor
    · rintro ⟨de, hde, hhas, rfl⟩
      cases hde
      exact .inr ⟨hhas.2.symm.trans (key_strncpy name), rfl⟩
    · rintro (⟨de, hde, hhas, -⟩ | ⟨rfl, rfl⟩)
      · exact absurd (freeSlot_free (hj ▸ hde)) hhas.1
      · exact ⟨_, rfl, ⟨hi.1.ne', key_strncpy name⟩, rfl⟩
  · rw [if_neg hj, or_iff_left fun hx => hj hx.1]

theorem entry_unlink (hf : f < (entries (T d).contents).length) (ht : (T' d).type = (T d).type)
    (hc : (T' d).contents = ((T d).unlink f).contents) : Entry T' d j κ m ↔ Entry T d j κ m ∧ j ≠ f := by
  unfold Entry
  rw [ht, hc, entries_unlink hf, and_assoc, List.getElem?_set]
  refine and_congr_right fun _ => ?_
  by_cases hj : f = j
  · rw [if_pos hj]
    refine iff_of_false ?_ fun hx => hx.2 hj.symm
    rintro ⟨de, hde, hhas, -⟩
    split_ifs at hde
    cases hde
    exact hhas.1 rfl
  · rw [if_neg hj, and_iff_left (Ne.symm hj)]

theorem entries_dots {major minor : Int} (hi : 0 < i ∧ i < 65536) (hin : i < sb.ninodes) (hd : d < 65536) :
    entries ((Node.fresh .dir major minor).dots i d).contents = [⟨i, dot⟩, ⟨d, dotdot⟩] := by
  have hnil : entries (Node.fresh .dir major minor).contents = [] := by
    refine List.eq_nil_of_length_eq_zero ?_
    rw [length_entries]
    exact Nat.zero_div _
  have hok : DirOk sb (Node.fresh .dir major minor).contents := DirOk.nil sb
  have hone : entries ((Node.fresh .dir major minor).link i dot).contents = [⟨i, dot⟩] := by
    rw [entries_link hok, strncpy_dot, hnil, Nat.mod_eq_of_lt hi.2]
    rfl
  have hok' : DirOk sb ((Node.fresh .dir major minor).link i dot).contents := by
    apply hok.link hin
    rw [hnil]
    rfl
  unfold Node.dots
  rw [entries_link hok', strncpy_dotdot, hone, Nat.mod_eq_of_lt hd]
  have hfree : freeSlot [(⟨i, dot⟩ : Dirent)] = 1 := by
    unfold freeSlot freeSlotFrom
    rw [if_neg hi.1.ne']
    rfl
  unfold place
  rw [hfree]
  rfl

theorem entry_dots {major minor : Int} (hi : 0 < i ∧ i < 65536) (hin : i < sb.ninodes) (hd : 0 < d ∧ d < 65536)
    (hT : T i = (Node.fresh .dir major minor).dots i d) :
    Entry T i j κ m ↔ (j = 0 ∧ κ = key dot ∧ m = i) ∨ (j = 1 ∧ κ = key dotdot ∧ m = d) := by
  have hdir : ((Node.fresh .dir major minor).dots i d).type = .dir := rfl
  unfold Entry
  rw [hT, hdir, and_iff_right rfl, entries_dots hi hin hd.2]
  constructor
  · rintro ⟨de, hde, hhas, rfl⟩
    obtain rfl | rfl : j = 0 ∨ j = 1 := by
      have hlt := (List.getElem?_eq_some_iff.mp hde).1
      simp only [List.length_cons, List.length_nil] at hlt
      omega
    · cases hde
      exact .inl ⟨rfl, hhas.2.symm, rfl⟩
    · cases hde
      exact .inr ⟨rfl, hhas.2.symm, rfl⟩
  · rintro (⟨rfl, rfl, rfl⟩ | ⟨rfl, rfl, rfl⟩)
    · exact ⟨_, rfl, ⟨hi.1.ne', rfl⟩, rfl⟩
    · exact ⟨_, rfl, ⟨hd.1.ne', rfl⟩, rfl⟩

theorem entry_of_lookup (hd : (T d).type = .dir) (h : lookup name (entries (T d).contents) = some (j, i)) :
    Entry T d j (key name) i := by
  obtain ⟨de, hde, hi, hnamed⟩ := lookup_some h
  exact ⟨hd, de, hde, named_iff.mp hnamed, hi⟩

end entries

/-! ## The tree after a call -/

section calls

variable {sb : Superblock} {T T' : Nat → Node} {d d' i j f m n : Nat} {κ : List UInt8} {name : Name} {type : FType}
  {major minor : Int}

namespace Tree

theorem free_ge (h : Tree n T) (hd : (T d).type = .dir) : 2 ≤ freeSlot (entries (T d).contents) ∧
    ∀ κ m, ¬ Entry T d (freeSlot (entries (T d).contents)) κ m := by
  have hno : ∀ κ m, ¬ Entry T d (freeSlot (entries (T d).contents)) κ m := by
    rintro κ m ⟨-, de, hde, hhas, -⟩
    exact hhas.1 (freeSlot_free hde)
  refine ⟨?_, hno⟩
  by_contra hlt
  obtain hz | hz : freeSlot (entries (T d).contents) = 0 ∨ freeSlot (entries (T d).contents) = 1 := by omega
  · rw [hz] at hno
    exact hno _ _ (h.self d hd)
  · obtain ⟨q, hup, -⟩ := h.parent hd
    rw [hz] at hno
    exact hno _ _ hup

theorem lookup_ge (h : Tree n T) (hd : (T d).type = .dir) (hdot : namecmp name dot ≠ 0) (hdotdot : namecmp name dotdot ≠ 0)
    (hfound : lookup name (entries (T d).contents) = some (j, i)) : 2 ≤ j := by
  have he := entry_of_lookup hd hfound
  by_contra hlt
  obtain rfl | rfl : j = 0 ∨ j = 1 := by omega
  · exact hdot (namecmp_eq_zero.mpr (he.fn (h.self d hd)).1)
  · obtain ⟨q, hup, -⟩ := h.parent hd
    exact hdotdot (namecmp_eq_zero.mpr (he.fn hup).1)

theorem link (h : Tree n T) (hd : (T d).type = .dir) (hok : DirOk sb (T d).contents)
    (hi : (T i).type ≠ .free ∧ (T i).type ≠ .dir) (hn : n ≤ 65536) (hmax : (links T i).ncard < 32767) :
    Tree n (linked T i d name) := by
  have hne : i ≠ d := fun heq => hi.2 (heq ▸ hd)
  obtain ⟨hpos, hlt⟩ := h.bound i hi.1
  obtain ⟨hfree, hno⟩ := h.free_ge hd
  have hat := linked_apply T name hne
  refine h.grow (key name) hfree hno ?_ hi.2 ?_ ⟨hpos, hlt⟩ ?_ ?_
  · intro m hm
    rw [hat, if_neg hm]
    split_ifs with hmd
    · rw [hmd]
      exact ⟨rfl, rfl⟩
    · exact ⟨rfl, rfl⟩
  · rw [hat, if_neg hne, if_pos rfl]
    exact hi
  · intro d' j κ m
    by_cases hdd : d' = d
    · subst hdd
      rw [entry_link name hok ⟨hpos, by omega⟩ hd, and_iff_right rfl]
      · rw [hat, if_pos rfl]
        exact hd
      · rw [hat, if_pos rfl]
    · rw [or_iff_left fun hx => hdd hx.1]
      refine entry_congr ?_ ?_
      all_goals
        rw [hat, if_neg hdd]
        split_ifs with hdi
        · rw [hdi]
          rfl
        · rfl
  · rw [hat, if_neg hne, if_pos rfl]
    show short ((T i).nlink + 1) = _
    rw [h.count i hi.1]
    refine short_of_isShort ?_
    unfold IsShort
    omega

theorem create_file (h : Tree n T) (hd : (T d).type = .dir) (hok : DirOk sb (T d).contents)
    (hdead : T i = .none) (hi : 0 < i ∧ i < n) (ht : type ≠ .free ∧ type ≠ .dir) (hn : n ≤ 65536) :
    Tree n (created T i d type major minor name) := by
  have hfreei : (T i).type = .free := by
    rw [hdead]
    rfl
  have hne : i ≠ d := by
    rintro rfl
    exact ne_free_of_dir hd hfreei
  obtain ⟨hfree, hno⟩ := h.free_ge hd
  have hat := created_file_apply T major minor name hne ht.2
  refine h.grow (key name) hfree hno ?_ ?_ ?_ hi ?_ ?_
  · intro m hm
    rw [hat, if_neg hm]
    split_ifs with hmd
    · rw [hmd]
      exact ⟨rfl, rfl⟩
    · exact ⟨rfl, rfl⟩
  · rw [hfreei]
    decide
  · rw [hat, if_neg hne, if_pos rfl]
    exact ht
  · intro d' j κ m
    by_cases hdd : d' = d
    · subst hdd
      rw [entry_link name hok ⟨hi.1, by omega⟩ hd, and_iff_right rfl]
      · rw [hat, if_pos rfl]
        exact hd
      · rw [hat, if_pos rfl]
    · rw [or_iff_left fun hx => hdd hx.1]
      by_cases hdi : d' = i
      · refine iff_of_false (not_entry_of_type ?_) (not_entry_of_type ?_)
        · rw [hat, if_neg hdd, if_pos hdi]
          exact ht.2
        · rw [hdi, hfreei]
          decide
      · rw [entry_congr]
        all_goals rw [hat, if_neg hdd, if_neg hdi]
  · have hempty : links T i = ∅ := by
      refine Set.eq_empty_iff_forall_notMem.mpr fun x hx => ?_
      obtain ⟨⟨κ, he⟩, -⟩ := hx
      exact h.live _ _ _ _ he hfreei
    rw [hat, if_neg hne, if_pos rfl, hempty, Set.ncard_empty]
    rfl

theorem create_dir (h : Tree n T) (hd : (T d).type = .dir) (hok : DirOk sb (T d).contents)
    (hdead : T i = .none) (hi : 0 < i ∧ i < n) (hsb : n ≤ sb.ninodes) (hn : n ≤ 65536) (hmax : (links T d).ncard < 32767) :
    Tree n (created T i d .dir major minor name) := by
  have hfreei : (T i).type = .free := by
    rw [hdead]
    rfl
  have hne : i ≠ d := by
    rintro rfl
    exact ne_free_of_dir hd hfreei
  obtain ⟨hfree, hno⟩ := h.free_ge hd
  have hat := created_dir_apply T major minor name hne
  have hbd := h.bound d (ne_free_of_dir hd)
  refine h.leaf (key name) hd hfree hno hfreei ?_ hi ?_ ?_ ?_ ?_ ?_
  · rw [hat, if_neg hne, if_pos rfl]
    rfl
  · intro m hm
    rw [hat, if_neg hm]
    split_ifs with hmd
    · rw [hmd]
      rfl
    · rfl
  · intro d' j κ m
    by_cases hdd : d' = d
    · subst hdd
      rw [entry_link name hok ⟨hi.1, by omega⟩ hd]
      · simp only [true_and, hne.symm, false_and, or_false]
      · rw [hat, if_pos rfl]
        exact hd
      · rw [hat, if_pos rfl]
        rfl
    · by_cases hdi : d' = i
      · subst hdi
        have hdots : created T d' d .dir major minor name d' = (Node.fresh .dir major minor).dots d' d := by
          rw [hat, if_neg hdd, if_pos rfl]
        have hnone : ¬ Entry T d' j κ m := not_entry_of_type (by rw [hfreei]; decide)
        rw [entry_dots ⟨hi.1, by omega⟩ (hi.2.trans_le hsb) ⟨hbd.1, by omega⟩ hdots]
        simp only [hnone, hdd, false_and, false_or, true_and]
      · simp only [hdd, hdi, false_and, or_false]
        rw [entry_congr]
        all_goals rw [hat, if_neg hdd, if_neg hdi]
  · intro m hm hmd
    rw [hat, if_neg hmd, if_neg hm]
  · rw [hat, if_neg hne, if_pos rfl]
    rfl
  · rw [hat, if_pos rfl]
    show short ((T d).nlink + 1) = _
    rw [h.count d (ne_free_of_dir hd)]
    refine short_of_isShort ?_
    unfold IsShort
    omega

theorem unlink_file (h : Tree n T) (he : Entry T d f κ i) (hf : 2 ≤ f) (hi : (T i).type ≠ .dir)
    (hshort : IsShort (T i).nlink) : Tree n (unlinked T i d f) := by
  have hd := he.1
  have hne : i ≠ d := fun heq => hi (heq ▸ hd)
  have hlt : f < (entries (T d).contents).length := by
    obtain ⟨-, de, hde, -⟩ := he
    exact (List.getElem?_eq_some_iff.mp hde).1
  have hat := unlinked_file_apply f hne hi
  have htype : ∀ m, (unlinked T i d f m).type = (T m).type := by
    intro m
    rw [hat]
    split_ifs with hm hmd
    · rw [hm]
      rfl
    · rw [hmd]
      rfl
    · rfl
  refine h.shrink he hf hi htype ?_ ?_ ?_
  · intro d' j κ m
    by_cases hdd : d' = d
    · subst hdd
      rw [entry_unlink hlt (htype d'), and_iff_right rfl]
      rw [hat, if_neg hne.symm, if_pos rfl]
    · rw [and_iff_left fun hx => hdd hx.1]
      refine entry_congr (htype d') ?_
      rw [hat, if_neg hdd]
      split_ifs with hdi
      · rw [hdi]
        rfl
      · rfl
  · intro m hm
    rw [hat, if_neg hm]
    split_ifs with hmd
    · rw [hmd]
      rfl
    · rfl
  · rw [hat, if_pos rfl]
    have := h.nlink_pos (h.live _ _ _ _ he) (h.named_links he)
    show short ((T i).nlink + -1) = _
    unfold IsShort at hshort
    refine short_of_isShort ?_
    unfold IsShort
    omega

theorem unlink_dir (h : Tree n T) (he : Entry T d f κ i) (hf : 2 ≤ f) (hi : (T i).type = .dir)
    (hempty : EmptyFrom 2 (entries (T i).contents)) (hshort : IsShort (T d).nlink) :
    (unlinked T i d f i).nlink = 0 ∧ Tree n (Function.update (unlinked T i d f) i .none) := by
  have hd := he.1
  have hne : i ≠ d := by
    rintro rfl
    have := h.not_self he
    omega
  have hlt : f < (entries (T d).contents).length := by
    obtain ⟨-, de, hde, -⟩ := he
    exact (List.getElem?_eq_some_iff.mp hde).1
  have hnone : ∀ j κ m, 2 ≤ j → ¬ Entry T i j κ m := by
    rintro j κ m hj ⟨-, de, hde, hhas, -⟩
    refine hhas.1 (hempty de ?_)
    refine List.mem_of_getElem? (i := j - 2) ?_
    rw [List.getElem?_drop, show 2 + (j - 2) = j by omega]
    exact hde
  have hat := unlinked_dir_apply f hne hi
  have hone := h.nlink_leaf he hf hi hnone
  refine ⟨?_, h.prune he hf hi hnone ?_ ?_ ?_ ?_ ?_⟩
  · rw [hat, if_pos rfl]
    show short ((T i).nlink + -1) = 0
    rw [hone]
    decide
  · rw [Function.update_self]
    rfl
  · intro m hm
    rw [Function.update_of_ne hm, hat, if_neg hm]
    split_ifs with hmd
    · rw [hmd]
      rfl
    · rfl
  · intro d' j κ m
    by_cases hdi : d' = i
    · subst hdi
      refine iff_of_false (not_entry_of_type ?_) fun hx => hx.2.2 rfl
      rw [Function.update_self]
      decide
    · have hupd : Function.update (unlinked T i d f) i .none d' = unlinked T i d f d' := Function.update_of_ne hdi _ _
      rw [and_iff_left hdi]
      by_cases hdd : d' = d
      · subst hdd
        rw [and_iff_right rfl, entry_unlink hlt]
        · rw [hupd, hat, if_neg hdi, if_pos rfl]
          rfl
        · rw [hupd, hat, if_neg hdi, if_pos rfl]
          rfl
      · rw [and_iff_left fun hx => hdd hx.1, entry_congr]
        all_goals rw [hupd, hat, if_neg hdi, if_neg hdd]
  · intro m hm hmd
    rw [Function.update_of_ne hm, hat, if_neg hm, if_neg hmd]
  · rw [Function.update_of_ne hne.symm, hat, if_neg hne.symm, if_pos rfl]
    have := h.nlink_pos (ne_free_of_dir hd) (h.dir_links hd)
    show short ((T d).nlink + -1) = _
    unfold IsShort at hshort
    refine short_of_isShort ?_
    unfold IsShort
    omega

theorem rewrite (h : Tree n T) (hT : Rewritten i T T') : Tree n T' := by
  rcases hT with rfl | ⟨ht, bs, rfl⟩
  · exact h
  · have hother : ∀ m, m ≠ i → Function.update T i { T i with contents := bs } m = T m :=
      fun m hm => Function.update_of_ne hm _ _
    have hsame : ∀ m, (Function.update T i { T i with contents := bs } m).type = (T m).type ∧
        (Function.update T i { T i with contents := bs } m).nlink = (T m).nlink := by
      intro m
      by_cases hm : m = i
      · rw [hm, Function.update_self]
        exact ⟨rfl, rfl⟩
      · rw [hother m hm]
        exact ⟨rfl, rfl⟩
    refine h.transfer ?_ (fun m _ => hsame m) fun m hm _ => (hsame m).1 ▸ hm
    intro d j κ m
    by_cases hd : d = i
    · -- a regular file has no entries
      have hno : (T d).type ≠ .dir := by
        rw [hd, ht]
        decide
      exact iff_of_false (not_entry_of_type ((hsame d).1 ▸ hno)) (not_entry_of_type hno)
    · rw [entry_congr]
      all_goals rw [hother d hd]

end Tree

/-! ## Paths -/

theorem walk_parent (fuel : Nat) : ∀ (i : Nat) (nm : Name) (path : List UInt8), walk T true fuel i nm path = some (d, name) →
    (T d).type = .dir := by
  induction fuel with
  | zero =>
    intro i nm path h
    cases h
  | succ fuel ih =>
    intro i nm path h
    unfold walk at h
    cases hs : skipelem path nm with
    | none =>
      rw [hs] at h
      cases h
    | some x =>
      rw [hs] at h
      simp only at h
      split_ifs at h with hdir hend
      · cases h
        exact not_not.mp hdir
      · cases hl : lookup x.1 (entries (T i).contents) with
        | none =>
          rw [hl] at h
          cases h
        | some y =>
          rw [hl] at h
          exact ih _ _ _ h

theorem walk_live (ht : Tree n T) (parent : Bool) (fuel : Nat) : ∀ (i : Nat) (nm : Name) (path : List UInt8),
    (T i).type ≠ .free → walk T parent fuel i nm path = some (d, name) → (T d).type ≠ .free := by
  induction fuel with
  | zero =>
    intro i nm path _ h
    cases h
  | succ fuel ih =>
    intro i nm path hi h
    unfold walk at h
    cases hs : skipelem path nm with
    | none =>
      rw [hs] at h
      simp only at h
      split_ifs at h
      cases h
      exact hi
    | some x =>
      rw [hs] at h
      simp only at h
      split_ifs at h with hdir hend
      · cases h
        exact hi
      · cases hl : lookup x.1 (entries (T i).contents) with
        | none =>
          rw [hl] at h
          cases h
        | some y =>
          rw [hl] at h
          exact ih _ _ _ (ht.live _ _ _ _ (entry_of_lookup (not_not.mp hdir) hl)) h

end calls

section views

variable {B : Stop → Prop} {Z : Origin} {v v' : View} {s s' : FS} {p : PIdx} {c : Call} {r : Int} {T : Nat → Node}
    {n d i j : Nat} {name : Name}
  {path : List UInt8} {parent : Bool}

theorem resolve_parent (h : v.resolve p path true = some (d, name)) : (v.node d).type = .dir := by
  obtain ⟨i, -, hw⟩ := Option.bind_eq_some_iff.mp h
  exact walk_parent _ _ _ _ hw

theorem resolve_live (hrest : Rest Z v s) (ht : Tree n v.node) (h : v.resolve p path parent = some (i, name)) :
    (v.node i).type ≠ .free := by
  obtain ⟨i₀, hstart, hw⟩ := Option.bind_eq_some_iff.mp h
  refine walk_live ht _ _ _ _ _ ?_ hw
  unfold View.startInum at hstart
  split_ifs at hstart
  · cases hstart
    exact ne_free_of_dir ht.root.1
  · obtain ⟨k, hk, rfl⟩ := Option.map_eq_some_iff.mp hstart
    exact hrest.live_of_busy (.inr ⟨p, k, hk, rfl⟩)

/-! ## Link counts do not overflow -/

theorem links_le (h : At v s) (i : Nat) : (links v.node i).ncard ≤ 32 * v.sb.nblocks := by
  have hsb : s.vol.sb = v.sb := by
    rw [← h.view]
    rfl
  -- the block that an entry is in
  have hblock : ∀ x ∈ links v.node i, s.vol.Live x.1 ∧ s.vol.addr (.block x.1 (x.2 / 32)) ≠ 0 := by
    rintro x ⟨⟨κ, hd, de, hde, -⟩, -⟩
    have hlive : s.vol.Live x.1 := (h.live _).mpr (ne_free_of_dir hd)
    refine ⟨hlive, ((h.good.shaped _ hlive).mapped _).mpr ?_⟩
    have hlt := (List.getElem?_eq_some_iff.mp hde).1
    rw [length_entries, ← h.node, node_of_live hlive, length_contents] at hlt
    unfold FS.cnt blocksIn
    simp only [DESIZE, BSIZE] at *
    have : (s.vol.ino x.1).size = (s.inode x.1).size := rfl
    omega
  have hmaps : ∀ x ∈ links v.node i, (s.vol.addr (.block x.1 (x.2 / 32)), x.2 % 32) ∈
      ((Finset.Ico v.sb.dataStart v.sb.size ×ˢ Finset.range 32 : Finset (Nat × Nat)) : Set (Nat × Nat)) := by
    intro x hx
    obtain ⟨hlive, hne⟩ := hblock x hx
    have hin := h.good.owned.region (.block x.1 (x.2 / 32)) hlive hne
    rw [hsb] at hin
    refine Finset.mem_coe.mpr (Finset.mem_product.mpr
      ⟨Finset.mem_Ico.mpr hin, Finset.mem_range.mpr (Nat.mod_lt _ (by decide))⟩)
  have hinj : Set.InjOn (fun x : Nat × Nat => (s.vol.addr (.block x.1 (x.2 / 32)), x.2 % 32)) (links v.node i) := by
    intro x hx y hy heq
    obtain ⟨hadd, hmod⟩ := Prod.mk.inj heq
    obtain ⟨hlive, hne⟩ := hblock x hx
    have hplace := h.good.owned.inj (.block x.1 (x.2 / 32)) (.block y.1 (y.2 / 32)) hlive (hblock y hy).1 hne hadd
    injection hplace with h₁ h₂
    exact Prod.ext h₁ (by omega)
  calc (links v.node i).ncard
      ≤ ((Finset.Ico v.sb.dataStart v.sb.size ×ˢ Finset.range 32 : Finset (Nat × Nat)) : Set (Nat × Nat)).ncard :=
        Set.ncard_le_ncard_of_injOn _ hmaps hinj (Finset.finite_toSet _)
    _ = (v.sb.size - v.sb.dataStart) * 32 := by
        rw [Set.ncard_coe_finset, Finset.card_product, Nat.card_Ico, Finset.card_range]
    _ = 32 * v.sb.nblocks := by
        have := v.sb.nblocks_lt
        unfold Superblock.dataStart
        omega

/-- A disk on which link counts cannot overflow, with inode numbers that an entry can hold. -/
def Superblock.Small (sb : Superblock) : Prop := sb.nblocks < 1024 ∧ sb.ninodes ≤ 65536

theorem Rest.links_lt (h : Rest Z v s) (hsb : v.sb.Small) (i : Nat) : (links v.node i).ncard < 32767 := by
  have := links_le h.st.toAt i
  have := hsb.1
  omega

theorem Rest.isShort (h : Rest Z v s) (hsb : v.sb.Small) (ht : Tree n v.node) (i : Nat) : IsShort (v.node i).nlink := by
  by_cases hl : v.Live i
  · rw [ht.count i hl]
    have := h.links_lt hsb i
    unfold IsShort
    omega
  · rw [h.st.node_dead hl]
    exact (by decide : (-32768 : Int) ≤ 0 ∧ (0 : Int) < 32768)

/-! ## One system call -/

/-- The call does not remove a directory that is open or a current directory. -/
def Call.Spares (v : View) (p : PIdx) : Call → Prop
  | .unlink path => ∀ x ∈ v.resolve p path true, ∀ y ∈ lookup x.2 (entries (v.node x.1).contents),
      (v.node y.2).type = .dir → ¬ v.Busy y.2
  | _ => True

theorem link_tree (h : Rest Z v s) (hsb : v.sb.Small) (ht : Tree v.sb.ninodes v.node) {old new : List UInt8}
    (hT : v.link p old new = some T) : Tree v.sb.ninodes T := by
  obtain ⟨x, hold, hT⟩ := Option.bind_eq_some_iff.mp hT
  split_ifs at hT with hdir
  obtain ⟨y, hnew, hT⟩ := Option.bind_eq_some_iff.mp hT
  split_ifs at hT with hnone
  cases hT
  have hd := resolve_parent hnew
  exact ht.link hd (h.st.dirs _ hd) ⟨resolve_live h ht hold, hdir⟩ hsb.2 (h.links_lt hsb _)

theorem create_tree (h : Rest Z v s) (hsb : v.sb.Small) (ht : Tree v.sb.ninodes v.node) {type : FType} {major minor : Int}
    {o : Option Nat} (htype : type ≠ .free) (hT : v.Create p path type major minor o T) : Tree v.sb.ninodes T := by
  cases hT with
  | noDir => exact ht
  | reuse => exact ht
  | «exists» => exact ht
  | new hres hnone hdead hpos hlt =>
    have hd := resolve_parent hres
    have hok := h.st.dirs _ hd
    by_cases hdir : type = .dir
    · subst hdir
      exact ht.create_dir hd hok hdead ⟨hpos, hlt⟩ le_rfl hsb.2 (h.links_lt hsb _)
    · exact ht.create_file hd hok hdead ⟨hpos, hlt⟩ ⟨htype, hdir⟩ hsb.2

theorem Step.freed_at (hst : Step Z v p c r T v' s') (hZ : Z.lost = ∅) (hc : c.onTree = true) (hz : (T i).nlink = 0)
    (hb : ¬ v.Busy i) : Freed (Function.update T i .none) v'.node := by
  intro m
  rw [Function.update_apply]
  split_ifs with hm
  · subst hm
    rw [hst.node hZ, if_pos]
    · exact .inl rfl
    · exact ⟨hz, fun hbusy => hb (((hst.left hc).busy _).mp hbusy)⟩
  · exact hst.freed m

theorem unlink_tree (h : Rest Z v s) (hZ : Z.lost = ∅) (hsb : v.sb.Small) (ht : Tree v.sb.ninodes v.node)
    (hc : Call.Spares v p (.unlink path)) (hst : Step Z v p (.unlink path) r T v' s') (hT : v.unlink p path = some T) :
    Tree v.sb.ninodes v'.node := by
  obtain ⟨x, hres, hT⟩ := Option.bind_eq_some_iff.mp hT
  split_ifs at hT with hdots
  obtain ⟨y, hfound, hT⟩ := Option.bind_eq_some_iff.mp hT
  split_ifs at hT with hfull
  cases hT
  rw [not_or] at hdots
  have hd := resolve_parent hres
  have he := entry_of_lookup hd hfound
  have hj := ht.lookup_ge hd hdots.1 hdots.2 hfound
  by_cases hdir : (v.node y.2).type = .dir
  · have hempty : EmptyFrom 2 (entries (v.node y.2).contents) := by
      by_contra hne
      exact hfull ⟨hdir, hne⟩
    obtain ⟨hz, htree⟩ := ht.unlink_dir he hj hdir hempty (h.isShort hsb ht _)
    exact htree.freed (hst.freed_at hZ rfl hz (hc x hres y hfound hdir))
  · exact (ht.unlink_file he hj hdir (h.isShort hsb ht _)).freed hst.freed

theorem Step.tree (hst : Step Z v p c r T v' s') (h : Rest Z v s) (hZ : Z.lost = ∅) (hsb : v.sb.Small)
    (ht : Tree v.sb.ninodes v.node) (hc : c.Spares v p) : Tree v'.sb.ninodes v'.node := by
  have hsame : v'.sb = v.sb := hst.rest.sb.trans h.sb.symm
  rw [hsame]
  have heff := hst.effect hZ (h.isShort hsb ht)
  cases c with
  | link old new =>
    rcases heff with ⟨-, hT⟩ | ⟨-, rfl, -⟩
    · exact (link_tree h hsb ht hT).freed hst.freed
    · exact ht.freed hst.freed
  | unlink path =>
    rcases heff with ⟨-, hT⟩ | ⟨-, rfl, -⟩
    · exact unlink_tree h hZ hsb ht hc hst hT
    · exact ht.freed hst.freed
  | mkdir path =>
    obtain ⟨o, -, hT⟩ := heff
    exact (create_tree h hsb ht (by decide) hT).freed hst.freed
  | mknod path major minor =>
    obtain ⟨o, -, hT⟩ := heff
    exact (create_tree h hsb ht (by decide) hT).freed hst.freed
  | «open» path omode =>
    rcases View.Open.tree heff with rfl | ⟨o, hT⟩
    · exact ht.freed hst.freed
    · exact (create_tree h hsb ht (by decide) hT).freed hst.freed
  | write fd src dev =>
    obtain ⟨i, hT⟩ := h.rewritten (p := p) fd src dev
    rw [show v.write p fd src dev = (r, T) from heff] at hT
    exact (ht.rewrite hT).freed hst.freed
  | _ =>
    obtain rfl : T = v.node := heff
    exact ht.freed hst.freed

theorem Tree.sound (ht : Tree n v.node) (h : Rest Z v s) (hsb : v.sb.Small)
    (hp : (v.proc p).cwd = none → B .notEnabled) : Sound B p v := by
  have hpos : ∀ i, Named v.node i → 1 ≤ (v.node i).nlink := by
    rintro i (rfl | ⟨d, hd, de, hde, hi, hne⟩)
    · exact ht.nlink_pos (ne_free_of_dir ht.root.1) (ht.dir_links ht.root.1)
    · obtain ⟨j, hj⟩ := List.mem_iff_getElem?.mp hde
      have he : Entry v.node d j (key de.name) i := ⟨hd, de, hj, ⟨hi ▸ hne, rfl⟩, hi⟩
      exact ht.nlink_pos (ht.live _ _ _ _ he) (ht.named_links he)
  refine ⟨⟨?_, hp⟩, ?_, ?_⟩
  · intro i hi hz
    have := hpos i hi
    omega
  · intro i hi hz
    have := hpos i hi
    omega
  · intro i hi
    exact absurd (h.isShort hsb ht i) hi

/-- The call is a `link` whose new name is `.` of its directory, or `..` of the root directory. -/
def LinksDot (v : View) (p : PIdx) (c : Call) : Prop :=
  ∃ old new d name, c = .link old new ∧ v.resolve p new true = some (d, name) ∧
    (namecmp name dot = 0 ∨ d = ROOTINO ∧ namecmp name dotdot = 0)

theorem Tree.names_itself (ht : Tree n v.node) (h : NamesItself v p c) : LinksDot v p c := by
  cases c with
  | link old new =>
    obtain ⟨d, name, j, hres, hfound⟩ := h
    have hd := resolve_parent hres
    have he := entry_of_lookup hd hfound
    refine ⟨old, new, d, name, rfl, hres, ?_⟩
    obtain rfl | rfl : j = 0 ∨ j = 1 := by
      have := ht.not_self he
      omega
    · exact .inl (namecmp_eq_zero.mpr (he.fn (ht.self d hd)).1)
    · obtain ⟨q, hup, ⟨rfl, -⟩ | ⟨-, j, κ, hj, hq⟩⟩ := ht.parent hd
      · exact .inr ⟨rfl, namecmp_eq_zero.mpr (he.fn hup).1⟩
      · -- `..` of another directory does not lead to itself
        rw [(hup.fn he).2] at hq
        have := ht.not_self hq
        omega
  | unlink path =>
    obtain ⟨d, name, j, hres, hdot, hdotdot, hfound⟩ := h
    have hd := resolve_parent hres
    have := ht.lookup_ge hd hdot hdotdot hfound
    have := ht.not_self (entry_of_lookup hd hfound)
    omega
  | _ => exact h.elim

end views

/-! ## Runs -/

/-- The arguments are values of their types, and no directory in use is removed. -/
def Tame (s : FS) (a : Act) : Prop := Ints s a ∧ a.2.Spares s.view a.1

/-- The directories of the image form a tree, and every inode has links. -/
structure Image.Sound (img : Image) : Prop extends img.Ok where
  tree : Tree img.sb.ninodes img.vol.node
  kept : img.lost = ∅
  small : img.sb.Small

section runs

variable {img : Image} {h : List Event} {s : FS}

theorem run_tree (hi : img.Sound) (hr : FRun img h s) (hC : Always Tame h) :
    Rest img.origin s.view s ∧ Tree img.sb.ninodes s.vol.node := by
  refine hr.induct_of (I := fun s => Rest img.origin s.view s ∧ Tree img.sb.ninodes s.vol.node) hC
    ⟨start_rest hi.toOk, hi.tree⟩ ?_
  intro s a s' hI ha hs
  obtain ⟨hrest, ht⟩ := hI
  have hsb : s.view.sb = img.sb := hrest.sb
  have hsmall : s.view.sb.Small := hsb ▸ hi.small
  obtain ⟨r, T, v', hstep⟩ := (step_spec hrest ha.1 (sound_fault a.1 s.view) (fun _ => .deadlock)
    fun _ => .notEnabled).of_ok hs
  have ht' := hstep.tree hrest hi.kept hsmall (hsb ▸ ht) ha.2
  have hsb' : v'.sb = img.sb := hstep.rest.sb
  rw [hsb', ← hstep.rest.st.view] at ht'
  refine ⟨?_, ht'⟩
  rw [hstep.rest.st.view]
  exact hstep.rest

theorem Image.Sound.isShort (hi : img.Sound) (i : Nat) : IsShort (img.vol.node i).nlink :=
  (start_rest hi.toOk).isShort hi.small hi.tree i

end runs

end Xv6Mlfq.Fs
