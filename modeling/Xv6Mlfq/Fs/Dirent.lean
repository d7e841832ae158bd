import Xv6Mlfq.Fs.Name
import Xv6Mlfq.Fs.Contents

/-!
# Directories as lists of entries

The contents of a directory are `struct dirent`s one after the other: `entries`. `writei` of one entry sets an entry
or appends one. `lookup` and `freeSlot` are what the loops of `dirlookup` and `dirlink` look for, and `walk` is `namex`
on nodes.
-/

namespace Xv6Mlfq.Fs

def direntAt (bs : List UInt8) (j : Nat) : Dirent := Dirent.decode ((bs.drop (DESIZE * j)).take DESIZE)

def entries (bs : List UInt8) : List Dirent := (List.range (bs.length / DESIZE)).map (direntAt bs)

/-- An entry as it is read back: `inum` is a `ushort`. -/
def Dirent.stored (de : Dirent) : Dirent := ⟨de.inum % 65536, de.name⟩

@[simp] theorem length_entries (bs : List UInt8) : (entries bs).length = bs.length / DESIZE := by
  simp [entries]

theorem entries_getElem? (bs : List UInt8) (j : Nat) :
    (entries bs)[j]? = if j < bs.length / DESIZE then some (direntAt bs j) else none := by
  unfold entries
  split_ifs with h
  · simp [h]
  · simpa using h

@[simp] theorem entries_nil : entries [] = [] := rfl

theorem length_encode {de : Dirent} (h : de.name.length = DIRSIZ) : de.encode.length = DESIZE := by
  simp [Dirent.encode, h]

theorem decode_encode (de : Dirent) : Dirent.decode de.encode = de.stored := by
  unfold Dirent.decode Dirent.encode Dirent.stored
  simp only [List.getD_cons_zero, List.getD_cons_succ, List.drop_succ_cons, List.drop_zero]
  congr 1
  have h₁ : (UInt8.ofNat de.inum).toNat = de.inum % 256 := by simp
  have h₂ : (UInt8.ofNat (de.inum / 256)).toNat = de.inum / 256 % 256 := by simp
  rw [h₁, h₂]
  omega

section splice

variable {bs : List UInt8} {de : Dirent} {j m : Nat}

theorem direntAt_splice (hde : de.name.length = DIRSIZ) (hj : DESIZE * j ≤ bs.length) :
    direntAt (splice bs (DESIZE * j) de.encode) m = if m = j then de.stored else direntAt bs m := by
  have hlen := length_encode hde
  have hbyte : ∀ y, y < DESIZE → ((splice bs (DESIZE * j) de.encode).drop (DESIZE * m))[y]? =
      if m = j then de.encode[y]? else (bs.drop (DESIZE * m))[y]? := by
    intro y hy
    rw [List.getElem?_drop, List.getElem?_drop, splice_getElem? hj, hlen]
    simp only [DESIZE] at *
    split_ifs with h₁ h₂ h₃ h₄ h₅
    · omega
    · rfl
    · congr 1
      omega
    · omega
    · omega
    · rfl
  unfold direntAt
  split_ifs with hm
  · rw [← decode_encode]
    congr 1
    refine List.ext_getElem? fun y => ?_
    rw [List.getElem?_take]
    split_ifs with hy
    · rw [hbyte y hy, if_pos hm]
    · rw [List.getElem?_eq_none (by omega)]
  · congr 1
    refine List.ext_getElem? fun y => ?_
    rw [List.getElem?_take, List.getElem?_take]
    split_ifs with hy
    · rw [hbyte y hy, if_neg hm]
    · rfl

theorem entries_set (hde : de.name.length = DIRSIZ) (hj : j < bs.length / DESIZE) :
    entries (splice bs (DESIZE * j) de.encode) = (entries bs).set j de.stored := by
  have hle : DESIZE * j + DESIZE ≤ bs.length := by
    simp only [DESIZE] at *
    omega
  have hlen : (splice bs (DESIZE * j) de.encode).length = bs.length := by
    rw [length_splice (by omega), length_encode hde]
    omega
  refine List.ext_getElem? fun m => ?_
  rw [List.getElem?_set, entries_getElem?, entries_getElem?, hlen, direntAt_splice hde (by omega), length_entries]
  by_cases hm : m = j
  · rw [if_pos hm, if_pos (by omega), if_pos hm.symm, if_pos hj]
  · simp only [if_neg hm, if_neg (Ne.symm hm)]

theorem entries_append (hde : de.name.length = DIRSIZ) (hj : DESIZE * j = bs.length) :
    entries (splice bs (DESIZE * j) de.encode) = entries bs ++ [de.stored] := by
  have hlen : (splice bs (DESIZE * j) de.encode).length = bs.length + DESIZE := by
    rw [length_splice (by omega), length_encode hde]
    omega
  have hdiv : bs.length / DESIZE = j := by
    simp only [DESIZE] at *
    omega
  have hdiv' : (bs.length + DESIZE) / DESIZE = j + 1 := by
    simp only [DESIZE] at *
    omega
  refine List.ext_getElem? fun m => ?_
  rw [entries_getElem?, hlen, hdiv', direntAt_splice hde (by omega)]
  by_cases hm : m < j
  · rw [List.getElem?_append_left (by rw [length_entries, hdiv]; exact hm), entries_getElem?, hdiv, if_pos hm,
      if_pos (by omega), if_neg (by omega)]
  · rw [List.getElem?_append_right (by rw [length_entries, hdiv]; omega), length_entries, hdiv]
    by_cases hmj : m = j
    · rw [hmj, if_pos (by omega), if_pos rfl]
      simp
    · rw [if_neg (by omega), List.getElem?_eq_none (by simp; omega)]

end splice

/-! ## Looking for an entry -/

def Dirent.Named (name : Name) (de : Dirent) : Prop := de.inum ≠ 0 ∧ namecmp name de.name = 0

instance (name : Name) (de : Dirent) : Decidable (de.Named name) := inferInstanceAs (Decidable (_ ∧ _))

/-- The first entry with a name, counted from `j`, and its inode number. -/
def lookupFrom (name : Name) : List Dirent → Nat → Option (Nat × Nat)
  | [], _ => none
  | de :: es, j => if de.Named name then some (j, de.inum) else lookupFrom name es (j + 1)

/-- The first entry with a name, and its inode number. -/
def lookup (name : Name) (es : List Dirent) : Option (Nat × Nat) := lookupFrom name es 0

theorem lookupFrom_some {name : Name} {es : List Dirent} {j j' i : Nat} (h : lookupFrom name es j = some (j', i)) :
    ∃ de, j ≤ j' ∧ es[j' - j]? = some de ∧ de.inum = i ∧ de.Named name := by
  induction es generalizing j with
  | nil => cases h
  | cons de es ih =>
    unfold lookupFrom at h
    split_ifs at h with hd
    · cases h
      exact ⟨de, le_rfl, by simp, rfl, hd⟩
    · obtain ⟨de', hle, hget, hi, hn⟩ := ih h
      refine ⟨de', by omega, ?_, hi, hn⟩
      rw [show j' - j = j' - (j + 1) + 1 by omega, List.getElem?_cons_succ]
      exact hget

theorem lookup_some {name : Name} {es : List Dirent} {j i : Nat} (h : lookup name es = some (j, i)) :
    ∃ de, es[j]? = some de ∧ de.inum = i ∧ de.Named name := by
  obtain ⟨de, -, hget, hi, hn⟩ := lookupFrom_some h
  exact ⟨de, hget, hi, hn⟩

/-- The first empty entry, counted from `j`, or the place behind the last one. -/
def freeSlotFrom : List Dirent → Nat → Nat
  | [], j => j
  | de :: es, j => if de.inum = 0 then j else freeSlotFrom es (j + 1)

/-- The first empty entry, or the place behind the last one. -/
def freeSlot (es : List Dirent) : Nat := freeSlotFrom es 0

theorem freeSlotFrom_cases (es : List Dirent) (j : Nat) : j ≤ freeSlotFrom es j ∧
    (freeSlotFrom es j = j + es.length ∨ ∃ de, es[freeSlotFrom es j - j]? = some de ∧ de.inum = 0) := by
  induction es generalizing j with
  | nil => exact ⟨le_rfl, .inl rfl⟩
  | cons de es ih =>
    unfold freeSlotFrom
    split_ifs with hd
    · exact ⟨le_rfl, .inr ⟨de, by simp, hd⟩⟩
    · obtain ⟨hle, hcase⟩ := ih (j + 1)
      refine ⟨by omega, ?_⟩
      rcases hcase with heq | ⟨de', hget, hz⟩
      · exact .inl (by rw [heq, List.length_cons]; omega)
      · refine .inr ⟨de', ?_, hz⟩
        rw [show freeSlotFrom es (j + 1) - j = freeSlotFrom es (j + 1) - (j + 1) + 1 by omega, List.getElem?_cons_succ]
        exact hget

theorem freeSlot_cases (es : List Dirent) :
    freeSlot es = es.length ∨ ∃ de, es[freeSlot es]? = some de ∧ de.inum = 0 := by
  have := (freeSlotFrom_cases es 0).2
  rw [Nat.zero_add, Nat.sub_zero] at this
  exact this

/-- A directory with nothing but its first two entries. -/
def EmptyFrom (j : Nat) (es : List Dirent) : Prop := ∀ de ∈ es.drop j, de.inum = 0

instance (j : Nat) (es : List Dirent) : Decidable (EmptyFrom j es) := List.decidableBAll _ _

/-! ## Paths -/

@[simp] theorem length_pad (str : List UInt8) : (pad str).length = DIRSIZ := by
  simp [pad]
  omega

@[simp] theorem length_strncpy (t : List UInt8) : (strncpy t).length = DIRSIZ := length_pad _

theorem strncpy_dot : strncpy dot = dot := by decide

theorem strncpy_dotdot : strncpy dotdot = dotdot := by decide

def walk (node : Nat → Node) (parent : Bool) : Nat → Nat → Name → List UInt8 → Option (Nat × Name)
  | 0, _, _, _ => none
  | fuel + 1, i, name, path =>
    match skipelem path name with
    | none => if parent then none else some (i, name)
    | some (name, path) =>
      if (node i).type ≠ .dir then none
      else if parent ∧ path = [] then some (i, name)
      else
        match lookup name (entries (node i).contents) with
        | none => none
        | some (_, i') => walk node parent fuel i' name path

def View.startInum (v : View) (p : PIdx) (path : List UInt8) : Option Nat :=
  if path.head? = some slash then some ROOTINO else ((v.proc p).cwd).map fun k => (v.slot k).inum

/-- The inode that a path of process `p` names, or with `parent` the directory of its last element, and the name of
the last element. -/
def View.resolve (v : View) (p : PIdx) (path : List UInt8) (parent : Bool) : Option (Nat × Name) :=
  (v.startInum p path).bind fun i => walk v.node parent (path.length + 1) i (pad []) path

end Xv6Mlfq.Fs
