import Xv6Mlfq.Fs.Integrity

/-!
# Directories as maps

What the users of a file system see of its directories is a map from names to inodes for each of them: `dirs`. `linked`,
`created` and `unlinked` change one name in one of these maps, and a new directory has a map with two names
(`dirs_linked`, `dirs_created_file`, `dirs_created_dir`, `dirs_unlinked_file`, `dirs_unlinked_dir`). `Renamed` says for
every system call which name that is, and a call in a tree does what it says (`Step.renamed`).
-/

namespace Xv6Mlfq.Fs

open Lib

/-- The map of directory `d`, from keys to inodes. -/
def dirs (T : Nat → Node) (d : Nat) (κ : List UInt8) : Option Nat :=
  if (T d).type = .dir then dirMap (entries (T d).contents) κ else none

/-- The maps once key `κ` of directory `d` leads to `o`. -/
def setName (D : Nat → List UInt8 → Option Nat) (d : Nat) (κ : List UInt8) (o : Option Nat) :
    Nat → List UInt8 → Option Nat :=
  Function.update D d (Function.update (D d) κ o)

/-- The map of a new directory `i` in directory `d`. -/
def dotNames (i d : Nat) : List UInt8 → Option Nat :=
  Function.update (Function.update (fun _ => none) (key dot) (some i)) (key dotdot) (some d)

section maps

variable {sb : Superblock} {T T' : Nat → Node} {d i j n : Nat} {name : Name} {type : FType} {major minor : Int}

theorem dirs_of_dir (h : (T d).type = .dir) : dirs T d = dirMap (entries (T d).contents) := by
  funext κ
  exact if_pos h

theorem dirs_of_not_dir (h : (T d).type ≠ .dir) : dirs T d = fun _ => none := by
  funext κ
  exact if_neg h

theorem dirs_congr (ht : (T' d).type = (T d).type) (hc : (T' d).contents = (T d).contents) : dirs T' d = dirs T d := by
  funext κ
  unfold dirs
  rw [ht, hc]

/-! ## One directory -/

theorem dirs_link (hok : DirOk sb (T d).contents) (hi : 0 < i ∧ i < 65536)
    (hd : (T d).type = .dir) (hnone : lookup name (entries (T d).contents) = none) (ht : (T' d).type = .dir)
    (hc : (T' d).contents = ((T d).link i name).contents) : dirs T' d = Function.update (dirs T d) (key name) (some i) := by
  have hplace : dirMap (place (entries (T d).contents) ⟨i, strncpy name⟩) =
      Function.update (dirMap (entries (T d).contents)) (key (strncpy name)) (some i) := by
    apply dirMap_place hok.distinct _ hi.1.ne'
    rw [key_strncpy]
    exact lookup_eq_none_iff.mp hnone
  rw [dirs_of_dir ht, dirs_of_dir hd, hc, entries_link hok, Nat.mod_eq_of_lt hi.2, hplace, key_strncpy]

theorem dirs_unlink (hok : DirOk sb (T d).contents) (hd : (T d).type = .dir)
    (hfound : lookup name (entries (T d).contents) = some (j, i)) (ht : (T' d).type = .dir)
    (hc : (T' d).contents = ((T d).unlink j).contents) : dirs T' d = Function.update (dirs T d) (key name) none := by
  obtain ⟨de, hget, -, hnamed⟩ := lookup_some hfound
  obtain ⟨hne, hkey⟩ := named_iff.mp hnamed
  rw [dirs_of_dir ht, dirs_of_dir hd, hc, entries_unlink (lookup_lt hfound), dirMap_clear hok.distinct hget hne rfl, hkey]

theorem dirMap_dots (hi : i ≠ 0) (hd : d ≠ 0) : dirMap [⟨i, dot⟩, ⟨d, dotdot⟩] = dotNames i d := by
  have hdiff : key dot ≠ key dotdot := by decide
  have hfind : ∀ (de : Dirent) (es : List Dirent) (κ : List UInt8),
    dirMap (de :: es) κ = if de.Has κ then some de.inum else dirMap es κ := by
    intro de es κ
    unfold dirMap
    rw [List.find?_cons]
    by_cases hhas : de.Has κ
    · rw [if_pos hhas, decide_eq_true hhas]
      rfl
    · rw [if_neg hhas, decide_eq_false hhas]
  funext κ
  unfold dotNames
  rw [hfind, hfind]
  by_cases hκ : κ = key dotdot
  · rw [hκ, Function.update_self, if_neg fun hhas => hdiff hhas.2, if_pos ⟨hd, rfl⟩]
  · rw [Function.update_of_ne hκ]
    by_cases hκ' : κ = key dot
    · rw [hκ', Function.update_self, if_pos ⟨hi, rfl⟩]
    · rw [Function.update_of_ne hκ', if_neg fun hhas => hκ' hhas.2.symm, if_neg fun hhas => hκ hhas.2.symm]
      rfl

/-! ## All directories -/

theorem dirs_linked (hok : DirOk sb (T d).contents) (hi : 0 < i ∧ i < 65536)
    (hd : (T d).type = .dir) (hfile : (T i).type ≠ .dir) (hnone : lookup name (entries (T d).contents) = none) :
    dirs (linked T i d name) = setName (dirs T) d (key name) (some i) := by
  have hne : i ≠ d := fun heq => hfile (heq ▸ hd)
  have hat := linked_apply T name hne
  funext m
  unfold setName
  by_cases hm : m = d
  · subst hm
    rw [Function.update_self]
    refine dirs_link hok hi hd hnone ?_ ?_
    · rw [hat, if_pos rfl]
      exact hd
    · rw [hat, if_pos rfl]
  · rw [Function.update_of_ne hm]
    refine dirs_congr ?_ ?_
    all_goals
      rw [hat, if_neg hm]
      split_ifs with hmi
      · rw [hmi]
        rfl
      · rfl

theorem dirs_created_file (hok : DirOk sb (T d).contents) (hi : 0 < i ∧ i < 65536)
    (hd : (T d).type = .dir) (hdead : T i = .none) (ht : type ≠ .dir) (hnone : lookup name (entries (T d).contents) = none) :
    dirs (created T i d type major minor name) = setName (dirs T) d (key name) (some i) := by
  have hfree : (T i).type ≠ .dir := by
    rw [hdead]
    decide
  have hne : i ≠ d := fun heq => hfree (heq ▸ hd)
  have hat := created_file_apply T major minor name hne ht
  funext m
  unfold setName
  by_cases hm : m = d
  · subst hm
    rw [Function.update_self]
    refine dirs_link hok hi hd hnone ?_ ?_
    · rw [hat, if_pos rfl]
      exact hd
    · rw [hat, if_pos rfl]
  · rw [Function.update_of_ne hm]
    by_cases hmi : m = i
    · subst hmi
      rw [dirs_of_not_dir hfree, dirs_of_not_dir]
      rw [hat, if_neg hm, if_pos rfl]
      exact ht
    · refine dirs_congr ?_ ?_
      all_goals rw [hat, if_neg hm, if_neg hmi]

theorem dirs_created_dir (hok : DirOk sb (T d).contents) (hi : 0 < i ∧ i < 65536)
    (hin : i < sb.ninodes) (hdn : 0 < d ∧ d < 65536) (hd : (T d).type = .dir) (hdead : T i = .none)
    (hnone : lookup name (entries (T d).contents) = none) : dirs (created T i d .dir major minor name) =
      setName (Function.update (dirs T) i (dotNames i d)) d (key name) (some i) := by
  have hne : i ≠ d := by
    rintro rfl
    rw [hdead] at hd
    cases hd
  have hat := created_dir_apply T major minor name hne
  funext m
  unfold setName
  by_cases hm : m = d
  · subst hm
    rw [Function.update_self, Function.update_of_ne hne.symm]
    refine dirs_link hok hi hd hnone ?_ ?_
    · rw [hat, if_pos rfl]
      exact hd
    · rw [hat, if_pos rfl]
      rfl
  · rw [Function.update_of_ne hm]
    by_cases hmi : m = i
    · subst hmi
      have hdir : (created T m d .dir major minor name m).type = .dir := by
        rw [hat, if_neg hm, if_pos rfl]
        rfl
      rw [Function.update_self, dirs_of_dir hdir, hat, if_neg hm, if_pos rfl, entries_dots hi hin hdn.2]
      exact dirMap_dots hi.1.ne' hdn.1.ne'
    · rw [Function.update_of_ne hmi]
      refine dirs_congr ?_ ?_
      all_goals rw [hat, if_neg hm, if_neg hmi]

theorem dirs_unlinked_file (hok : DirOk sb (T d).contents) (hd : (T d).type = .dir) (hfile : (T i).type ≠ .dir)
    (hfound : lookup name (entries (T d).contents) = some (j, i)) :
    dirs (unlinked T i d j) = Function.update (setName (dirs T) d (key name) none) i fun _ => none := by
  have hne : i ≠ d := fun heq => hfile (heq ▸ hd)
  have hat := unlinked_file_apply j hne hfile
  funext m
  unfold setName
  by_cases hmi : m = i
  · subst hmi
    rw [Function.update_self, dirs_of_not_dir]
    rw [hat, if_pos rfl]
    exact hfile
  · rw [Function.update_of_ne hmi]
    by_cases hm : m = d
    · subst hm
      rw [Function.update_self]
      refine dirs_unlink hok hd hfound ?_ ?_
      · rw [hat, if_neg hmi, if_pos rfl]
        exact hd
      · rw [hat, if_neg hmi, if_pos rfl]
    · rw [Function.update_of_ne hm]
      refine dirs_congr ?_ ?_
      all_goals rw [hat, if_neg hmi, if_neg hm]

theorem dirs_unlinked_dir (hok : DirOk sb (T d).contents) (hd : (T d).type = .dir) (hdir : (T i).type = .dir) (hne : i ≠ d)
    (hfound : lookup name (entries (T d).contents) = some (j, i)) :
    dirs (Function.update (unlinked T i d j) i .none) =
      Function.update (setName (dirs T) d (key name) none) i fun _ => none := by
  have hat := unlinked_dir_apply j hne hdir
  funext m
  unfold setName
  by_cases hmi : m = i
  · subst hmi
    rw [Function.update_self, dirs_of_not_dir]
    rw [Function.update_self]
    decide
  · have hupd : Function.update (unlinked T i d j) i .none m = unlinked T i d j m := Function.update_of_ne hmi _ _
    rw [Function.update_of_ne hmi]
    by_cases hm : m = d
    · subst hm
      rw [Function.update_self]
      refine dirs_unlink hok hd hfound ?_ ?_
      · rw [hupd, hat, if_neg hmi, if_pos rfl]
        exact hd
      · rw [hupd, hat, if_neg hmi, if_pos rfl]
        rfl
    · rw [Function.update_of_ne hm]
      refine dirs_congr ?_ ?_
      all_goals rw [hupd, hat, if_neg hmi, if_neg hm]

theorem dirs_rewritten (h : Rewritten i T T') : dirs T' = dirs T := by
  rcases h with rfl | ⟨ht, bs, rfl⟩
  · rfl
  · funext d
    by_cases hd : d = i
    · have hno : (T i).type ≠ .dir := by
        rw [ht]
        decide
      rw [hd, dirs_of_not_dir hno, dirs_of_not_dir]
      rw [Function.update_self]
      exact hno
    · refine dirs_congr ?_ ?_
      all_goals rw [Function.update_of_ne hd]

theorem Tree.dirs_freed (ht : Tree n T) (hf : Freed T T') : dirs T' = dirs T := by
  funext d
  rcases hf d with heq | ⟨hnone, hz⟩
  · refine dirs_congr ?_ ?_
    all_goals rw [heq]
  · have hno : (T d).type ≠ .dir := by
      intro hd
      have := ht.nlink_pos (ne_free_of_dir hd) (ht.dir_links hd)
      omega
    rw [dirs_of_not_dir hno, dirs_of_not_dir]
    rw [hnone]
    decide

end maps

/-! ## System calls -/

/-- A new file under the last name of the path. -/
def Added (v : View) (p : PIdx) (path : List UInt8) (D : Nat → List UInt8 → Option Nat) : Prop :=
  ∃ d name i, v.resolve p path true = some (d, name) ∧ dirs v.node d (key name) = none ∧ v.node i = .none ∧
    D = setName (dirs v.node) d (key name) (some i)

/-- The maps after a system call of process `p`, with its return value. -/
def Renamed (v : View) (p : PIdx) : Call → Int → (Nat → List UInt8 → Option Nat) → Prop
  | .link old new, r, D =>
    (r = 0 ∧ ∃ i x d name, v.resolve p old false = some (i, x) ∧ v.resolve p new true = some (d, name) ∧
      dirs v.node d (key name) = none ∧ D = setName (dirs v.node) d (key name) (some i)) ∨
    (r = -1 ∧ D = dirs v.node)
  | .unlink path, r, D =>
    (r = 0 ∧ ∃ d name i, v.resolve p path true = some (d, name) ∧ dirs v.node d (key name) = some i ∧
      D = Function.update (setName (dirs v.node) d (key name) none) i fun _ => none) ∨
    (r = -1 ∧ D = dirs v.node)
  | .mkdir path, r, D =>
    (r = 0 ∧ ∃ d name i, v.resolve p path true = some (d, name) ∧ dirs v.node d (key name) = none ∧ v.node i = .none ∧
      D = setName (Function.update (dirs v.node) i (dotNames i d)) d (key name) (some i)) ∨
    (r = -1 ∧ D = dirs v.node)
  | .mknod path _ _, r, D => (r = 0 ∧ Added v p path D) ∨ (r = -1 ∧ D = dirs v.node)
  | .open path omode, r, D =>
    if hasFlag omode 0x200 then
      (v.resolve p path true = none ∧ r = -1 ∧ D = dirs v.node) ∨
      (∃ d name i, v.resolve p path true = some (d, name) ∧ dirs v.node d (key name) = some i ∧
        (r = -1 ∨ r = v.newFd p) ∧ D = dirs v.node) ∨
      (r = v.newFd p ∧ Added v p path D)
    else D = dirs v.node
  | _, _, D => D = dirs v.node

section calls

variable {Z : Origin} {v v' : View} {s s' : FS} {p : PIdx} {c : Call} {r : Int} {T : Nat → Node} {path : List UInt8}

theorem dirs_eq_none {d : Nat} {name : Name} (hd : (T d).type = .dir) (h : lookup name (entries (T d).contents) = none) :
    dirs T d (key name) = none := by
  rw [dirs_of_dir hd]
  exact lookup_eq_none_iff.mp h

theorem dirs_eq_some {d i j : Nat} {name : Name} (hd : (T d).type = .dir)
    (h : lookup name (entries (T d).contents) = some (j, i)) : dirs T d (key name) = some i := by
  rw [dirs_of_dir hd, ← lookup_map, h]
  rfl

theorem link_renamed (h : Rest Z v s) (hsb : v.sb.Small) (ht : Tree v.sb.ninodes v.node) {old new : List UInt8}
    (hT : v.link p old new = some T) : Renamed v p (.link old new) 0 (dirs T) := by
  obtain ⟨x, hold, hT⟩ := Option.bind_eq_some_iff.mp hT
  split_ifs at hT with hdir
  obtain ⟨y, hnew, hT⟩ := Option.bind_eq_some_iff.mp hT
  split_ifs at hT with hnone
  cases hT
  have hd := resolve_parent hnew
  obtain ⟨hpos, hlt⟩ := ht.bound _ (resolve_live h ht hold)
  refine .inl ⟨rfl, x.1, x.2, y.1, y.2, hold, hnew, dirs_eq_none hd hnone, ?_⟩
  exact dirs_linked (h.st.dirs _ hd) ⟨hpos, hlt.trans_le hsb.2⟩ hd hdir hnone

theorem create_renamed (h : Rest Z v s) (hsb : v.sb.Small) {type : FType} {major minor : Int} {o : Option Nat}
    (hdir : type ≠ .dir) (hT : v.Create p path type major minor o T) :
    (dirs T = dirs v.node ∧ (o = none ∨ type = .file)) ∨ (o ≠ none ∧ Added v p path (dirs T)) := by
  cases hT with
  | noDir => exact .inl ⟨rfl, .inl rfl⟩
  | reuse _ _ hfile => exact .inl ⟨rfl, .inr hfile.1⟩
  | «exists» => exact .inl ⟨rfl, .inl rfl⟩
  | new hres hnone hdead hpos hlt =>
    have hd := resolve_parent hres
    refine .inr ⟨Option.some_ne_none _, _, _, _, hres, dirs_eq_none hd hnone, hdead, ?_⟩
    exact dirs_created_file (h.st.dirs _ hd) ⟨hpos, hlt.trans_le hsb.2⟩ hd hdead hdir hnone

theorem open_renamed (h : Rest Z v s) (hsb : v.sb.Small) {o : Option Nat} (hT : v.Create p path .file 0 0 o T)
    (hr : r = if o = none then -1 else v.newFd p) :
    (v.resolve p path true = none ∧ r = -1 ∧ dirs T = dirs v.node) ∨
    (∃ d name i, v.resolve p path true = some (d, name) ∧ dirs v.node d (key name) = some i ∧
      (r = -1 ∨ r = v.newFd p) ∧ dirs T = dirs v.node) ∨
    (r = v.newFd p ∧ Added v p path (dirs T)) := by
  cases hT with
  | noDir hres => exact .inl ⟨hres, hr, rfl⟩
  | reuse hres hfound hfile =>
    exact .inr (.inl ⟨_, _, _, hres, dirs_eq_some (resolve_parent hres) hfound, .inr hr, rfl⟩)
  | «exists» hres hfound hno =>
    exact .inr (.inl ⟨_, _, _, hres, dirs_eq_some (resolve_parent hres) hfound, .inl hr, rfl⟩)
  | new hres hnone hdead hpos hlt =>
    have hd := resolve_parent hres
    refine .inr (.inr ⟨hr, _, _, _, hres, dirs_eq_none hd hnone, hdead, ?_⟩)
    exact dirs_created_file (h.st.dirs _ hd) ⟨hpos, hlt.trans_le hsb.2⟩ hd hdead (by decide) hnone

theorem mkdir_renamed (h : Rest Z v s) (hsb : v.sb.Small) (ht : Tree v.sb.ninodes v.node) {o : Option Nat}
    (hr : r = if o = none then -1 else 0) (hT : v.Create p path .dir 0 0 o T) : Renamed v p (.mkdir path) r (dirs T) := by
  cases hT with
  | noDir => exact .inr ⟨hr, rfl⟩
  | reuse _ _ hfile => cases hfile.1
  | «exists» => exact .inr ⟨hr, rfl⟩
  | new hres hnone hdead hpos hlt =>
    have hd := resolve_parent hres
    obtain ⟨hdpos, hdlt⟩ := ht.bound _ (ne_free_of_dir hd)
    refine .inl ⟨hr, _, _, _, hres, dirs_eq_none hd hnone, hdead, ?_⟩
    exact dirs_created_dir (h.st.dirs _ hd) ⟨hpos, hlt.trans_le hsb.2⟩ hlt ⟨hdpos, hdlt.trans_le hsb.2⟩ hd hdead hnone

theorem unlink_renamed (h : Rest Z v s) (hZ : Z.lost = ∅) (hsb : v.sb.Small) (ht : Tree v.sb.ninodes v.node)
    (hc : Call.Spares v p (.unlink path)) (hst : Step Z v p (.unlink path) r T v' s') (hT : v.unlink p path = some T) :
    Renamed v p (.unlink path) 0 (dirs v'.node) := by
  obtain ⟨x, hres, hT⟩ := Option.bind_eq_some_iff.mp hT
  split_ifs at hT with hdots
  obtain ⟨y, hfound, hT⟩ := Option.bind_eq_some_iff.mp hT
  split_ifs at hT with hfull
  cases hT
  rw [not_or] at hdots
  have hd := resolve_parent hres
  have hok := h.st.dirs _ hd
  have he := entry_of_lookup hd hfound
  have hj := ht.lookup_ge hd hdots.1 hdots.2 hfound
  refine .inl ⟨rfl, x.1, x.2, y.2, hres, dirs_eq_some hd hfound, ?_⟩
  by_cases hdir : (v.node y.2).type = .dir
  · have hempty : EmptyFrom 2 (entries (v.node y.2).contents) := by
      by_contra hne
      exact hfull ⟨hdir, hne⟩
    have hne : y.2 ≠ x.1 := by
      intro heq
      rw [heq] at he
      have := ht.not_self he
      omega
    obtain ⟨hz, htree⟩ := ht.unlink_dir he hj hdir hempty (h.isShort hsb ht _)
    rw [htree.dirs_freed (hst.freed_at hZ rfl hz (hc x hres y hfound hdir))]
    exact dirs_unlinked_dir hok hd hdir hne hfound
  · rw [(ht.unlink_file he hj hdir (h.isShort hsb ht _)).dirs_freed hst.freed]
    exact dirs_unlinked_file hok hd hdir hfound

theorem Step.renamed (hst : Step Z v p c r T v' s') (h : Rest Z v s) (hZ : Z.lost = ∅) (hsb : v.sb.Small)
    (ht : Tree v.sb.ninodes v.node) (hc : c.Spares v p) : Renamed v p c r (dirs v'.node) := by
  have heff := hst.effect hZ (h.isShort hsb ht)
  have hsame : T = v.node → dirs v'.node = dirs v.node := by
    rintro rfl
    exact ht.dirs_freed hst.freed
  cases c with
  | link old new =>
    rcases heff with ⟨rfl, hT⟩ | ⟨hr, hT, -⟩
    · rw [(link_tree h hsb ht hT).dirs_freed hst.freed]
      exact link_renamed h hsb ht hT
    · exact .inr ⟨hr, hsame hT⟩
  | unlink path =>
    rcases heff with ⟨rfl, hT⟩ | ⟨hr, hT, -⟩
    · exact unlink_renamed h hZ hsb ht hc hst hT
    · exact .inr ⟨hr, hsame hT⟩
  | mkdir path =>
    obtain ⟨o, hr, hT⟩ := heff
    rw [(create_tree h hsb ht (by decide) hT).dirs_freed hst.freed]
    exact mkdir_renamed h hsb ht hr hT
  | mknod path major minor =>
    obtain ⟨o, hr, hT⟩ := heff
    rw [(create_tree h hsb ht (by decide) hT).dirs_freed hst.freed]
    rcases create_renamed h hsb (by decide) hT with ⟨hD, ho⟩ | ⟨ho, hadd⟩
    · have hnone : o = none := ho.resolve_right (by decide)
      rw [if_pos hnone] at hr
      exact .inr ⟨hr, hD⟩
    · rw [if_neg ho] at hr
      exact .inl ⟨hr, hadd⟩
  | «open» path omode =>
    have hopen : v.Open p path omode r T := heff
    unfold View.Open at hopen
    show if hasFlag omode 0x200 then _ else _
    split_ifs at hopen ⊢
    · obtain ⟨o, hT, hr⟩ := hopen
      rw [(create_tree h hsb ht (by decide) hT).dirs_freed hst.freed]
      exact open_renamed h hsb hT hr
    · exact hsame hopen.1
  | write fd src dev =>
    obtain ⟨i, hT⟩ := h.rewritten (p := p) fd src dev
    rw [show v.write p fd src dev = (r, T) from heff] at hT
    rw [(ht.rewrite hT).dirs_freed hst.freed]
    exact dirs_rewritten hT
  | _ => exact hsame heff

end calls

end Xv6Mlfq.Fs
