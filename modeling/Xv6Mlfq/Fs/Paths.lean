import Xv6Mlfq.Fs.ByteArray
import Xv6Mlfq.Fs.Held

/-!
# Directories and paths

`dirlookup`, `dirlink` and `namex` as moves of references and locks (`Xv6Mlfq.Fs.Held`), with their results in terms of
the entries of directories: `dirlookup` finds what `lookup` finds, `dirlink` puts an entry into the first free place
(`place`), and `namex` ends at the inode where `walk` ends.

`iput` in the middle of `namex` may free an inode, and `walk` is then about a file system that is no more. This cannot
happen when the inodes without links are those that somebody refers to (`Tidy`).
-/

namespace Xv6Mlfq.Fs

open Lib

/-- The entries of the directory in entry `k`. -/
def View.dirents (v : View) (k : IRef) : List Dirent := entries (v.inodeAt k).contents

/-- Somebody refers to every inode without links, apart from those in `Z` that have been lost before. -/
def Tidy (Z : Set Nat) (R : Multiset IRef) (v : View) : Prop :=
  ∀ i, i ∉ Z → v.Live i → (v.node i).nlink = 0 → ∃ k ∈ R, (v.slot k).inum = i

section paths

variable {B : Stop → Prop} {R : Multiset IRef} {L : Finset IRef} {v v' : View} {s s' : FS} {k dp : IRef} {i j : Nat}
  {name : Name}

namespace Tidy

variable {Z : Set Nat}

theorem keep (ht : Tidy Z R v) (hk : Keep R v v') : Tidy Z R v' := by
  intro i hZ hl hn
  rcases hk.node i with hi | ⟨hi, -, -⟩
  · unfold View.Live at hl
    rw [hi] at hl hn
    obtain ⟨k, hkR, hki⟩ := ht i hZ hl hn
    exact ⟨k, hkR, (hk.inum k hkR).trans hki⟩
  · exact absurd (congrArg Node.type hi) hl

theorem mono {R' : Multiset IRef} (ht : Tidy Z R v) (hR : R ≤ R') : Tidy Z R' v := by
  intro i hZ hl hn
  obtain ⟨k, hk, hi⟩ := ht i hZ hl hn
  exact ⟨k, Multiset.mem_of_le hR hk, hi⟩

theorem node_eq (ht : Tidy ∅ R v) (h : At v s) (hk : Keep R v v') : v'.node = v.node := by
  funext i
  rcases hk.node i with hi | ⟨hi, hn, hr⟩
  · exact hi
  · have hdead : ¬ v.Live i := by
      intro hl
      obtain ⟨k, hkR, hki⟩ := ht i (Set.notMem_empty i) hl hn
      exact hr k hkR hki
    rw [hi, h.node_dead hdead]

theorem setNode (ht : Tidy Z R v) (h : St R L v s) (hk : k ∈ L) (d : Node) : Tidy Z R (v.setNode (v.slot k).inum d) := by
  intro i hZ hl hn
  by_cases hi : i = (v.slot k).inum
  · exact ⟨k, (h.locked k hk).1, hi.symm⟩
  · unfold View.Live at hl
    simp only [View.setNode, Function.update_of_ne hi] at hl hn
    exact ht i hZ hl hn

theorem put (ht : Tidy Z (k ::ₘ R) v) (h : St (k ::ₘ R) L v s) (hkn : v.Known k) : Tidy Z R (v.put k) := by
  intro i hZ hl hn
  by_cases hkR : k ∈ R
  · have hlast : ¬ v.Last k := by
      intro hlast
      have := hlast.2.2
      rw [h.ref, Multiset.count_cons_self] at this
      exact Multiset.count_eq_zero.mp (Nat.succ_injective this) hkR
    unfold View.put View.Live at *
    rw [if_neg hlast] at hl hn ⊢
    obtain ⟨j, hj, hji⟩ := ht i hZ hl hn
    refine ⟨j, ?_, ?_⟩
    · rcases Multiset.mem_cons.mp hj with rfl | hj
      · exact hkR
      · exact hj
    · simp only [View.setSlot, Function.update_apply]
      split_ifs with hjk
      · rw [← hjk]
        exact hji
      · exact hji
  · by_cases hlast : v.Last k
    · unfold View.put View.Live at *
      rw [if_pos hlast] at hl hn ⊢
      by_cases hi : i = (v.slot k).inum
      · simp only [View.setSlot, View.setNode, hi, Function.update_self] at hl
        exact absurd rfl hl
      · simp only [View.setSlot, View.setNode, Function.update_of_ne hi] at hl hn
        obtain ⟨j, hj, hji⟩ := ht i hZ hl hn
        rcases Multiset.mem_cons.mp hj with rfl | hj
        · exact absurd hji.symm hi
        · refine ⟨j, hj, ?_⟩
          have hjk : j ≠ k := fun heq => hkR (heq ▸ hj)
          simp only [View.setSlot, Function.update_of_ne hjk]
          exact hji
    · unfold View.put View.Live at *
      rw [if_neg hlast] at hl hn ⊢
      obtain ⟨j, hj, hji⟩ := ht i hZ hl hn
      rcases Multiset.mem_cons.mp hj with rfl | hj
      · -- the inode has links, or its entry is valid and this was the last reference
        have hlinks : (v.inodeAt j).nlink = 0 := by
          rw [← hji] at hn
          exact hn
        refine absurd ⟨hkn.resolve_right (not_not.mpr hlinks), hlinks, ?_⟩ hlast
        rw [h.ref, Multiset.count_cons_self, Multiset.count_eq_zero.mpr hkR]
      · refine ⟨j, hj, ?_⟩
        have hjk : j ≠ k := fun heq => hkR (heq ▸ hj)
        simp only [View.setSlot, Function.update_of_ne hjk]
        exact hji

end Tidy

/-! ## Reading a directory -/

theorem length_dirents (v : View) (k : IRef) : (v.dirents k).length = (v.inodeAt k).contents.length / DESIZE :=
  length_entries _

theorem direntsIn_eq (h : St R L v s) (hd : (v.inodeAt dp).type = .dir) :
    direntsIn (v.inodeAt dp).contents.length = (v.dirents dp).length := by
  have hw := (h.dirs _ hd).whole
  rw [length_dirents]
  unfold direntsIn View.inodeAt at *
  simp only [DESIZE] at *
  omega

theorem readDirent_st (h : St R L v s) (hk : dp ∈ L) (hd : (v.inodeAt dp).type = .dir) (hj : j < (v.dirents dp).length)
    (msg : String) {E : Stop → Prop} :
    Wp (readDirent dp (DESIZE * j) msg) s (fun de s' => s' = s ∧ (v.dirents dp)[j]? = some de) E := by
  have hlen := h.length_le (v.slot dp).inum
  have hj' : j < (v.inodeAt dp).contents.length / DESIZE := by rwa [length_dirents] at hj
  have hread : readiResult (v.inodeAt dp) (DESIZE * j) DESIZE none =
      some (((v.inodeAt dp).contents.drop (DESIZE * j)).take DESIZE) := by
    unfold readiResult
    rw [hd, if_neg (by decide), if_neg]
    unfold View.inodeAt at *
    simp only [DESIZE, MAXFILE, NDIRECT, NINDIRECT, BSIZE, UINT] at *
    omega
  unfold readDirent
  refine Wp.bind (readi_st h hk (DESIZE * j) DESIZE none) ?_
  intro r s₁ hpost
  obtain ⟨rfl, rfl⟩ := hpost
  rw [hread]
  dsimp only
  rw [if_pos]
  · refine ⟨rfl, ?_⟩
    unfold View.dirents
    rw [entries_getElem?, if_pos hj']
    rfl
  · rw [List.length_take, List.length_drop]
    simp only [DESIZE] at *
    omega

/-- What `dirlookup` returns when the entry `w` is the first one with the name. -/
inductive Found (R : Multiset IRef) (L : Finset IRef) (v : View) (s : FS) :
    Option (Nat × Nat) → Option (IRef × Nat) → FS → Prop
  | none : Found R L v s none none s
  | some {k : IRef} {v' : View} {s' : FS} {j : Nat} (st : St (k ::ₘ R) L v' s') (keep : Keep R v v')
      (node : v'.node = v.node) : Found R L v s (some (j, (v'.slot k).inum)) (some (k, DESIZE * j)) s'

theorem drop_dirents (hj : j < (v.dirents dp).length) :
    ∃ de, (v.dirents dp)[j]? = some de ∧ de ∈ v.dirents dp ∧ (v.dirents dp).drop j = de :: (v.dirents dp).drop (j + 1) := by
  refine ⟨(v.dirents dp)[j], List.getElem?_eq_getElem hj, List.getElem_mem hj, ?_⟩
  exact List.drop_eq_getElem_cons hj

theorem dirlookupLoop_st (h : St R L v s) (hk : dp ∈ L) (hd : (v.inodeAt dp).type = .dir) (name : Name) (fuel : Nat) :
    ∀ j, j + fuel = (v.dirents dp).length → Wp (dirlookupLoop dp name fuel (DESIZE * j)) s
      (fun r s' => Found R L v s (lookupFrom name ((v.dirents dp).drop j) j) r s') (Halt B) := by
  induction fuel with
  | zero =>
    intro j hj
    rw [List.drop_eq_nil_of_le (by omega)]
    exact .none
  | succ fuel ih =>
    intro j hj
    have hlt : j < (v.dirents dp).length := by omega
    obtain ⟨de, hget, hmem, hdrop⟩ := drop_dirents hlt
    have hnext : DESIZE * j + DESIZE = DESIZE * (j + 1) := rfl
    unfold dirlookupLoop
    refine Wp.bind (readDirent_st h hk hd (by omega) "dirlookup read") ?_
    intro de' s₁ hpost
    obtain ⟨rfl, hde⟩ := hpost
    obtain rfl : de' = de := Option.some.inj (hde.symm.trans hget)
    rw [hdrop, hnext]
    unfold lookupFrom
    refine Wp.ite (fun hz => ?_) fun hnz => Wp.ite (fun hname => ?_) fun hname => ?_
    · rw [if_neg fun hn => hn.1 hz]
      exact ih (j + 1) (by omega)
    · rw [if_pos ⟨hnz, hname⟩]
      refine Wp.bind (iget_st h ((h.dirs _ hd).inum de' hmem)) ?_
      intro k s₂ hpost
      obtain ⟨v', hst, hkeep, hinum, hnode⟩ := hpost
      rw [← hinum]
      exact .some hst hkeep hnode
    · rw [if_neg fun hn => hname hn.2]
      exact ih (j + 1) (by omega)

theorem dirlookup_st (h : St R L v s) (hk : dp ∈ L) (hd : (v.inodeAt dp).type = .dir) (name : Name) :
    Wp (dirlookup dp name) s (fun r s' => Found R L v s (lookup name (v.dirents dp)) r s') (Halt B) := by
  unfold dirlookup
  simp only [Fs.inode, wp_bind, wp_look, h.type (h.toHeld.loaded hk), h.size (h.toHeld.loaded hk), direntsIn_eq h hd]
  rw [if_neg (not_not.mpr hd)]
  exact dirlookupLoop_st h hk hd name _ 0 (Nat.zero_add _)

/-! ## What the entries name -/

/-- The root directory, or an inode that an entry of a directory names. -/
def Named (T : Nat → Node) (i : Nat) : Prop :=
  i = ROOTINO ∨ ∃ d, (T d).type = .dir ∧ ∃ de ∈ entries (T d).contents, de.inum = i ∧ i ≠ 0

/-- Every inode that a path can lead to has links, and process `p` has a current directory. -/
structure Reach (B : Stop → Prop) (p : PIdx) (v : View) : Prop where
  named : ∀ i, Named v.node i → (v.node i).nlink = 0 → B (.panic "ilock: no type")
  cwd : (v.proc p).cwd = none → B .notEnabled

theorem Reach.keep {p : PIdx} (h : Reach B p v) (hk : Keep R v v') : Reach B p v' := by
  refine ⟨fun i hn hz => h.named i ?_ ?_, fun hc => h.cwd (hk.proc ▸ hc)⟩
  · refine hn.imp_right ?_
    intro hent
    obtain ⟨d, hd, de, hde, hi⟩ := hent
    rcases hk.node d with heq | ⟨hnone, -, -⟩
    · exact ⟨d, heq ▸ hd, de, heq ▸ hde, hi⟩
    · rw [hnone] at hd
      cases hd
  · rcases hk.node i with heq | ⟨-, hz', -⟩
    · exact heq ▸ hz
    · exact hz'

theorem Reach.lockable {p : PIdx} (h : Reach B p v) (hat : At v s) (hn : Named v.node (v.slot k).inum) (hk : k ∉ L) :
    Lockable B L v k := by
  refine ⟨fun hkL => absurd hkL hk, fun _ hdead => h.named _ hn ?_⟩
  rw [hat.node_dead hdead]
  rfl

theorem lockable_of_known (hat : At v s) (hkn : v.Known k) (hk : k ∉ L) : Lockable B L v k := by
  rcases hkn with hv | hlinks
  · exact .of_valid hk hv
  · refine .of_live hk fun htype => hlinks ?_
    have hdead : ¬ v.Live (v.slot k).inum := not_not.mpr htype
    unfold View.inodeAt
    rw [hat.node_dead hdead]
    rfl

theorem named_of_lookup (hd : (v.inodeAt dp).type = .dir) (h : lookup name (v.dirents dp) = some (j, i)) :
    Named v.node i := by
  obtain ⟨de, hget, hi, hn⟩ := lookup_some h
  exact .inr ⟨_, hd, de, List.mem_of_getElem? hget, hi, hi ▸ hn.1⟩

/-! ## Writing a directory -/

def Node.link (d : Node) (inum : Nat) (name : Name) : Node :=
  { d with contents := splice d.contents (DESIZE * freeSlot (entries d.contents)) (Dirent.encode ⟨inum, strncpy name⟩) }

section link

variable {sb : Superblock} {d : Node} {inum : Nat}

theorem DirOk.length_eq (h : DirOk sb d.contents) : DESIZE * (entries d.contents).length = d.contents.length := by
  rw [length_entries]
  exact Nat.mul_div_cancel' h.whole

theorem entries_link (h : DirOk sb d.contents) :
    entries (d.link inum name).contents = place (entries d.contents) ⟨inum % 65536, strncpy name⟩ := by
  have hlen := h.length_eq
  have hde : (⟨inum, strncpy name⟩ : Dirent).name.length = DIRSIZ := length_strncpy name
  unfold place Node.link
  split_ifs with hlt
  · exact entries_set hde (by rwa [length_entries] at hlt)
  · have heq : freeSlot (entries d.contents) = (entries d.contents).length :=
      le_antisymm (freeSlot_le _) (Nat.le_of_not_lt hlt)
    exact entries_append hde (by rw [heq, hlen])

theorem DirOk.link (h : DirOk sb d.contents) (hi : inum < sb.ninodes)
    (hnew : lookup name (entries d.contents) = none) : DirOk sb (d.link inum name).contents := by
  have hlen := h.length_eq
  have hle := freeSlot_le (entries d.contents)
  refine ⟨?_, ?_, ?_⟩
  · have henc : (Dirent.encode ⟨inum, strncpy name⟩).length = DESIZE := length_encode (length_strncpy name)
    unfold Node.link
    rw [length_splice (by rw [← hlen]; exact Nat.mul_le_mul_left _ hle), henc]
    rcases Nat.lt_or_ge (freeSlot (entries d.contents)) (entries d.contents).length with hlt | hge
    · rw [max_eq_left]
      · exact h.whole
      · simp only [DESIZE] at *
        omega
    · rw [max_eq_right]
      · exact Nat.dvd_add (Nat.dvd_mul_right _ _) (Nat.dvd_refl _)
      · simp only [DESIZE] at *
        omega
  · intro de hde
    rw [entries_link h] at hde
    have hstored : inum % 65536 < sb.ninodes := lt_of_le_of_lt (Nat.mod_le _ _) hi
    unfold place at hde
    split_ifs at hde
    · rcases List.mem_or_eq_of_mem_set hde with hmem | rfl
      · exact h.inum de hmem
      · exact hstored
    · rcases List.mem_append.mp hde with hmem | hmem
      · exact h.inum de hmem
      · rw [List.mem_singleton.mp hmem]
        exact hstored
  · rw [entries_link h]
    apply h.distinct.place
    rw [key_strncpy]
    exact dirMap_eq_none_iff.mp (lookup_eq_none_iff.mp hnew)

end link

theorem dirlinkLoop_st (h : St R L v s) (hk : dp ∈ L) (hd : (v.inodeAt dp).type = .dir) (fuel : Nat) {E : Stop → Prop} :
    ∀ j, j + fuel = (v.dirents dp).length → Wp (dirlinkLoop dp fuel (DESIZE * j)) s
      (fun off s' => s' = s ∧ off = DESIZE * freeSlotFrom ((v.dirents dp).drop j) j) E := by
  induction fuel with
  | zero =>
    intro j hj
    rw [List.drop_eq_nil_of_le (by omega)]
    exact ⟨rfl, rfl⟩
  | succ fuel ih =>
    intro j hj
    have hlt : j < (v.dirents dp).length := by omega
    obtain ⟨de, hget, -, hdrop⟩ := drop_dirents hlt
    unfold dirlinkLoop
    refine Wp.bind (readDirent_st h hk hd (by omega) "dirlink read") ?_
    intro de' s₁ hpost
    obtain ⟨rfl, hde⟩ := hpost
    obtain rfl : de' = de := Option.some.inj (hde.symm.trans hget)
    rw [hdrop]
    unfold freeSlotFrom
    refine Wp.ite (fun hz => ?_) fun hnz => ?_
    · rw [if_pos hz]
      exact ⟨rfl, rfl⟩
    · rw [if_neg hnz]
      exact ih (j + 1) (by omega)

/-- The outcomes of `dirlink`: the name exists, or there is a new entry. -/
inductive Linking (R : Multiset IRef) (L : Finset IRef) (v : View) (dp : IRef) (name : Name) (inum : Nat) : Int → FS → Prop
  | old {v' : View} {s' : FS} {w : Nat × Nat} (found : lookup name (v.dirents dp) = some w) (st : St R L v' s')
      (keep : Keep R v v') (away : ∀ k ∈ L, (v.slot k).inum ≠ w.2) : Linking R L v dp name inum (-1) s'
  | new {s' : FS} (none : lookup name (v.dirents dp) = none)
      (st : St R L (v.setNode (v.slot dp).inum ((v.inodeAt dp).link inum name)) s') : Linking R L v dp name inum 0 s'

/-- An inode that `iput` can lock is none of those that are locked. -/
theorem found_away (h : St R L v s) (hst : St (k ::ₘ R) L v' s') (hkeep : Keep R v v') (hk : k ∉ L) :
    ∀ k' ∈ L, (v.slot k').inum ≠ (v'.slot k).inum := by
  intro k' hk' heq
  have hmem := (h.locked k' hk').1
  rw [← hkeep.inum k' hmem] at heq
  have hsame := hst.unique (hst.pos (Multiset.mem_cons_of_mem hmem)) (hst.pos (Multiset.mem_cons_self _ _)) heq
  exact hk (hsame ▸ hk')

theorem dirlink_st (h : St R L v s) (hk : dp ∈ L) (hd : (v.inodeAt dp).type = .dir) {inum : Nat}
    (hi : inum < v.sb.ninodes)
    (hB : ∀ j k, k ∈ L → lookup name (v.dirents dp) = some (j, (v.slot k).inum) → B .deadlock) :
    Wp (dirlink dp name inum) s (Linking R L v dp name inum) (Halt B) := by
  have hdir : DirOk v.sb (v.inodeAt dp).contents := h.dirs _ hd
  unfold dirlink
  refine Wp.bind (dirlookup_st h hk hd name) ?_
  intro r s₁ hfound
  generalize hw : lookup name (v.dirents dp) = w at hfound
  cases hfound with
  | some hst hkeep hnode =>
    refine Wp.bind (iput_st hst fun hkL => ?_) ?_
    · rw [hkeep.inum _ (h.locked _ hkL).1] at hw
      exact hB _ _ hkL hw
    intro _ s₂ hpost
    exact .old hw hpost.2.1 (hkeep.trans hpost.2.2) (found_away h hst hkeep hpost.1)
  | none =>
    dsimp only
    simp only [Fs.inode, wp_bind, wp_look, h.size (h.toHeld.loaded hk), direntsIn_eq h hd]
    refine (dirlinkLoop_st h hk hd _ 0 (Nat.zero_add _)).imp ?_
    intro off s₁ hpost
    obtain ⟨rfl, hoff⟩ := hpost
    have hoff' : off = DESIZE * freeSlot (entries (v.inodeAt dp).contents) := hoff
    have hle : off ≤ (v.inodeAt dp).contents.length := by
      rw [hoff', ← hdir.length_eq]
      exact Nat.mul_le_mul_left _ (freeSlot_le _)
    have henc : (Dirent.encode ⟨inum, strncpy name⟩).length = DESIZE := length_encode (length_strncpy name)
    have hwrite : (v.inodeAt dp).write off (Dirent.encode ⟨inum, strncpy name⟩) =
        if off + DESIZE > MAXFILE * BSIZE then (none, v.inodeAt dp) else (some DESIZE, (v.inodeAt dp).link inum name) := by
      have hlen : (v.inodeAt dp).contents.length ≤ MAXFILE * BSIZE := h.length_le _
      unfold Node.write Node.link
      rw [hd, if_neg (by decide), henc, if_neg, hoff']
      simp only [DESIZE, MAXFILE, NDIRECT, NINDIRECT, BSIZE, UINT] at *
      omega
    by_cases hfull : off + DESIZE > MAXFILE * BSIZE
    · rw [if_pos hfull] at hwrite
      refine ((writei_st h hk off _ fun _ => ?_).mono (fun _ _ h => h) fun _ he => he.1).imp ?_
      · rw [hwrite]
        exact hdir
      · intro r s₂ hpost
        rw [hpost.1, hwrite, if_pos (by simp)]
        exact .dirlink
    · rw [if_neg hfull] at hwrite
      refine ((writei_st h hk off _ fun _ => ?_).mono (fun _ _ h => h) fun _ he => he.1).imp ?_
      · rw [hwrite]
        exact hdir.link hi hw
      · intro r s₂ hpost
        obtain ⟨rfl, hst, -⟩ := hpost
        rw [hwrite] at hst ⊢
        rw [if_neg (by simp)]
        exact .new hw hst

/-! ## Paths -/

theorem skipelem_lt {path path' : List UInt8} {name₀ : Name} (h : skipelem path name₀ = some (name, path')) :
    path'.length < path.length := by
  unfold skipelem at h
  simp only at h
  split_ifs at h with hne
  cases h
  have hle : (path.dropWhile fun c => decide (c = slash)).length ≤ path.length := List.length_dropWhile_le _ _
  obtain ⟨c, rest, hcons⟩ := List.exists_cons_of_ne_nil hne
  -- the first byte that is left is not a slash, so the element has at least one byte
  have hc : c ≠ slash := by
    have := List.head?_dropWhile_not (fun c => decide (c = slash)) path
    rw [hcons] at this
    simpa using this
  rw [hcons] at hle ⊢
  have htake : (c :: rest).takeWhile (fun c => decide (c ≠ slash)) = c :: rest.takeWhile fun c => decide (c ≠ slash) := by
    rw [List.takeWhile_cons, if_pos (by simpa using hc)]
  rw [htake, List.length_cons, List.drop_succ_cons]
  refine lt_of_le_of_lt (List.length_dropWhile_le _ _) ?_
  rw [List.length_drop]
  simp only [List.length_cons] at hle
  omega

/-- The outcomes of `namex`, where the path ends at `w`. -/
inductive Walked (B : Stop → Prop) (R : Multiset IRef) (parent : Bool) (v : View) (w : Option (Nat × Name)) :
    Option (IRef × Name) → FS → Prop
  | none {v' : View} {s' : FS} (st : St R ∅ v' s') (keep : Keep R v v') (result : Tidy ∅ R v → w = none) :
      Walked B R parent v w none s'
  | some {v' : View} {s' : FS} {k : IRef} {name : Name} (st : St (k ::ₘ R) ∅ v' s') (keep : Keep R v v')
      (lock : Lockable B ∅ v' k)
      (dir : parent = true → (v'.slot k).valid = true ∧ (v'.inodeAt k).type = .dir)
      (result : Tidy ∅ R v → w = some ((v'.slot k).inum, name)) : Walked B R parent v w (some (k, name)) s'

theorem Walked.after {parent : Bool} {w w' : Option (Nat × Name)} {r : Option (IRef × Name)} (hk : Keep R v v')
    (ht : Tidy ∅ R v → Tidy ∅ R v' ∧ w = w') (h : Walked B R parent v' w' r s') : Walked B R parent v w r s' := by
  cases h with
  | none st keep result => exact .none st (hk.trans keep) fun h => (ht h).2.trans (result (ht h).1)
  | some st keep lock dir result => exact .some st (hk.trans keep) lock dir fun h => (ht h).2.trans (result (ht h).1)

theorem namexLoop_st {p : PIdx} (parent : Bool) (fuel : Nat) :
    ∀ (v : View) (s : FS) (k : IRef) (name : Name) (path : List UInt8),
    path.length < fuel → St (k ::ₘ R) ∅ v s → Reach B p v → Lockable B ∅ v k → Wp (namexLoop parent fuel k name path) s
      (Walked B R parent v (walk v.node parent fuel (v.slot k).inum name path)) (Halt B) := by
  induction fuel with
  | zero =>
    intro v s k name path hlt
    exact absurd hlt (Nat.not_lt_zero _)
  | succ fuel ih =>
    intro v s k name path hlt h hB hlock
    have hle : R ≤ k ::ₘ R := Multiset.le_cons_self R k
    unfold namexLoop walk
    cases hskip : skipelem path name with
    | none =>
      dsimp only
      refine Wp.ite (fun hp => ?_) fun hp => ?_
      · rw [if_pos hp]
        refine Wp.bind (iput_st h fun hk => absurd hk (Finset.notMem_empty k)) ?_
        intro _ s₁ hpost
        exact .none hpost.2.1 hpost.2.2 fun _ => rfl
      · rw [if_neg hp]
        exact .some h (.refl R v) hlock (fun hp' => absurd hp' hp) fun _ => rfl
    | some r =>
      obtain ⟨name', path'⟩ := r
      have hshort := skipelem_lt hskip
      dsimp only
      refine Wp.bind (ilock_st h (Multiset.mem_cons_self k R) hlock) ?_
      intro _ s₁ hpost
      obtain ⟨-, -, h₁, hkeep₁⟩ := hpost
      have hkL : k ∈ insert k (∅ : Finset IRef) := Finset.mem_insert_self k ∅
      have herase : (insert k (∅ : Finset IRef)).erase k = ∅ := by simp
      have hat : (v.ilock k).inodeAt k = v.node (v.slot k).inum := hkeep₁.inodeAt (Multiset.mem_cons_self k R)
      simp only [Fs.inode, wp_bind, wp_look, h₁.type (h₁.toHeld.loaded hkL), hat]
      refine Wp.ite (fun hne => ?_) fun hdir => Wp.ite (fun hlast => ?_) fun hlast => ?_
      · rw [if_pos hne]
        refine Wp.bind (iunlockput_st h₁ hkL) ?_
        intro _ s₂ hpost
        exact .none (herase ▸ hpost.1) ((hkeep₁.mono hle).trans hpost.2) fun _ => rfl
      · rw [if_neg hdir, if_pos hlast]
        refine Wp.bind (iunlock_st h₁ hkL) ?_
        intro _ s₂ hpost
        have hkeep := hkeep₁.trans hpost.2
        have hvalid := (hpost.2.valid k (Multiset.mem_cons_self k R) (h₁.locked k hkL).2).1
        refine .some (herase ▸ hpost.1) (hkeep.mono hle) (.of_valid (Finset.notMem_empty k) hvalid)
          (fun _ => ⟨hvalid, ?_⟩) fun _ => ?_
        · rw [hkeep.inodeAt (Multiset.mem_cons_self k R)]
          exact not_not.mp hdir
        · rw [hkeep.inum k (Multiset.mem_cons_self k R)]
      · rw [if_neg hdir, if_neg hlast]
        have hes : (v.ilock k).dirents k = entries (v.node (v.slot k).inum).contents := by
          unfold View.dirents
          rw [hat]
        refine Wp.bind (dirlookup_st h₁ hkL (hat ▸ not_not.mp hdir) name') ?_
        intro r s₂ hfound
        rw [hes] at hfound
        generalize hw : lookup name' (entries (v.node (v.slot k).inum).contents) = w at hfound ⊢
        cases hfound with
        | none =>
          refine Wp.bind (iunlockput_st h₁ hkL) ?_
          intro _ s₃ hpost
          exact .none (herase ▸ hpost.1) ((hkeep₁.mono hle).trans hpost.2) fun _ => rfl
        | some h₂ hkeep₂ hnode₂ =>
          rename_i next v₂ j
          rw [Multiset.cons_swap] at h₂
          refine Wp.bind (iunlockput_st h₂ hkL) ?_
          intro _ s₃ hpost
          obtain ⟨h₃, hkeep₃⟩ := hpost
          rw [herase] at h₃
          have hkeep := ((hkeep₁.trans hkeep₂).mono hle).trans (hkeep₃.mono (Multiset.le_cons_self R next))
          have hB₃ := hB.keep hkeep
          have hd : (v.inodeAt k).type = .dir := not_not.mp hdir
          have hold : Named v.node (v₂.slot next).inum := named_of_lookup hd hw
          have hnamed : Named v₂.node (v₂.slot next).inum := by
            rw [hnode₂]
            exact hold
          have hlock₂ := ((hB.keep hkeep₁).keep hkeep₂).lockable h₂.toAt hnamed (Finset.notMem_empty next)
          refine (ih _ s₃ next name' path' (by omega) h₃ hB₃ ?_).imp ?_
          · exact hlock₂.keep hkeep₃ (Multiset.mem_cons_self next R) (Finset.notMem_empty next)
          intro r s₄ hwalk
          rw [hkeep₃.inum next (Multiset.mem_cons_self next R)] at hwalk
          exact hwalk.after hkeep fun ht => ⟨ht.keep hkeep, by rw [ht.node_eq h.toAt hkeep]⟩

theorem namex_st (h : St R ∅ v s) {p : PIdx} (hB : Reach B p v) (hcwd : ∀ k, (v.proc p).cwd = some k → k ∈ R ∧ v.Known k)
    (path : List UInt8) (parent : Bool) :
    Wp (namex p path parent) s (Walked B R parent v (v.resolve p path parent)) (Halt B) := by
  have hproc : s.proc = v.proc := by
    rw [← h.view]
    rfl
  have hstart : Wp (namexStart p path) s (fun k s' => ∃ v', St (k ::ₘ R) ∅ v' s' ∧ Keep R v v' ∧
      v.startInum p path = some (v'.slot k).inum ∧ v'.node = v.node ∧ Lockable B ∅ v' k) (Halt B) := by
    unfold namexStart View.startInum
    refine Wp.ite (fun hs => ?_) fun hs => ?_
    · refine (iget_st h h.root).imp ?_
      intro k s₁ hpost
      obtain ⟨v', hst, hkeep, hinum, hnode⟩ := hpost
      refine ⟨v', hst, hkeep, by rw [if_pos hs, hinum], hnode, ?_⟩
      exact (hB.keep hkeep).lockable hst.toAt (.inl hinum) (Finset.notMem_empty k)
    · simp only [wp_bind, wp_look, hproc]
      cases hc : (v.proc p).cwd with
      | none => exact .fault (hB.cwd hc)
      | some k =>
        obtain ⟨hkR, hkn⟩ := hcwd k hc
        refine (idup_st h hkR).imp ?_
        intro k' s₁ hpost
        obtain ⟨rfl, hst, hkeep⟩ := hpost
        refine ⟨_, hst, hkeep, ?_, rfl, lockable_of_known hst.toAt (hkeep.known k' hkR hkn) (Finset.notMem_empty k')⟩
        rw [if_neg hs, hkeep.inum k' hkR]
        rfl
  unfold namex
  refine Wp.bind hstart ?_
  intro k s₁ hpost
  obtain ⟨v₁, h₁, hkeep, hinum, hnode, hlock⟩ := hpost
  refine (namexLoop_st parent (path.length + 1) v₁ s₁ k (pad []) path (Nat.lt_succ_self _) h₁ (hB.keep hkeep) hlock).imp ?_
  intro r s₂ hwalk
  refine hwalk.after hkeep fun ht => ⟨ht.keep hkeep, ?_⟩
  unfold View.resolve
  rw [hinum, Option.bind_some, hnode]

end paths

end Xv6Mlfq.Fs
