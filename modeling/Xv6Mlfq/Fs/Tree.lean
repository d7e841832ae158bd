import Xv6Mlfq.Fs.Paths

/-!
# What the system calls do to the tree

The inodes of a file system are a map from numbers to nodes; its directories make it a tree. `linked`, `unlinked` and
`created` are what `link`, `unlink` and `create` store in it. `View.link` and `View.unlink` are the two system calls on
the tree, `none` where they return -1, and `View.Create` is `create`, which may take any free inode.
-/

namespace Xv6Mlfq.Fs

/-! ## Link counts -/

def IsShort (x : Int) : Prop := -32768 ≤ x ∧ x < 32768

theorem short_spec (x : Int) : IsShort (short x) ∧ ∃ q : Int, short x = x + 65536 * q := by
  have hmod := Int.emod_add_mul_ediv x 65536
  unfold IsShort short
  rw [Int.bmod_def]
  split_ifs
  · exact ⟨by omega, -(x / 65536), by omega⟩
  · exact ⟨by omega, -(x / 65536) - 1, by omega⟩

theorem short_of_isShort {x : Int} (h : IsShort x) : short x = x := by
  obtain ⟨hs, q, hq⟩ := short_spec x
  unfold IsShort at *
  omega

theorem addNlink_back {d : Node} (h : IsShort d.nlink) : (d.addNlink 1).addNlink (-1) = d := by
  have heq : short (short (d.nlink + 1) + -1) = d.nlink := by
    obtain ⟨-, q, hq⟩ := short_spec (d.nlink + 1)
    obtain ⟨hs, q', hq'⟩ := short_spec (short (d.nlink + 1) + -1)
    unfold IsShort at *
    omega
  unfold Node.addNlink
  rw [heq]

/-! ## Removing an entry -/

def Node.unlink (d : Node) (j : Nat) : Node := { d with contents := splice d.contents (DESIZE * j) Dirent.zero.encode }

section clear

variable {sb : Superblock} {d : Node} {j : Nat}

theorem zero_length : Dirent.zero.name.length = DIRSIZ := rfl

theorem entries_unlink (hj : j < (entries d.contents).length) :
    entries (d.unlink j).contents = (entries d.contents).set j Dirent.zero :=
  entries_set zero_length (by rwa [length_entries] at hj)

theorem DirOk.unlink (h : DirOk sb d.contents) (hj : j < (entries d.contents).length) (hn : 0 < sb.ninodes) :
    DirOk sb (d.unlink j).contents := by
  have hlen := h.length_eq
  refine ⟨?_, ?_, ?_⟩
  · have henc : Dirent.zero.encode.length = DESIZE := length_encode zero_length
    unfold Node.unlink
    rw [length_splice, henc, max_eq_left]
    · exact h.whole
    · simp only [DESIZE] at *
      omega
    · simp only [DESIZE] at *
      omega
  · intro de hde
    rw [entries_unlink hj] at hde
    rcases List.mem_or_eq_of_mem_set hde with hmem | rfl
    · exact h.inum de hmem
    · exact hn
  · rw [entries_unlink hj]
    exact h.distinct.clear rfl j

theorem write_zero (hd : d.type = .dir) (hlen : d.contents.length ≤ MAXFILE * BSIZE) (hj : j < (entries d.contents).length) :
    d.write (DESIZE * j) Dirent.zero.encode = (some DESIZE, d.unlink j) := by
  have henc : Dirent.zero.encode.length = DESIZE := length_encode zero_length
  rw [length_entries] at hj
  unfold Node.write Node.unlink
  rw [hd, if_neg (by decide), henc, if_neg, if_neg]
  · simp only [DESIZE, MAXFILE, NDIRECT, NINDIRECT, BSIZE] at *
    omega
  · simp only [DESIZE, MAXFILE, NDIRECT, NINDIRECT, BSIZE, UINT] at *
    omega

theorem lookup_lt {name : Name} {es : List Dirent} {j i : Nat} (h : lookup name es = some (j, i)) : j < es.length := by
  obtain ⟨de, hget, -, -⟩ := lookup_some h
  exact (List.getElem?_eq_some_iff.mp hget).1

end clear

/-! ## The tree afterwards -/

/-- The inodes once `link` has added the entry `name` for inode `i` to directory `d`. -/
def linked (T : Nat → Node) (i d : Nat) (name : Name) : Nat → Node :=
  let T := Function.update T i ((T i).addNlink 1)
  Function.update T d ((T d).link i name)

/-- The inodes once `unlink` has cleared entry `j` of directory `d`, which names inode `i`. -/
def unlinked (T : Nat → Node) (i d j : Nat) : Nat → Node :=
  let T := Function.update T d ((T d).unlink j)
  let T := if (T i).type = .dir then Function.update T d ((T d).addNlink (-1)) else T
  Function.update T i ((T i).addNlink (-1))

def Node.dots (d : Node) (i parent : Nat) : Node := (d.link i dot).link parent dotdot

def Node.fresh (type : FType) (major minor : Int) : Node := ⟨type, short major, short minor, 1, []⟩

/-- The inodes once the new directory `i` in directory `d` has its entries. -/
def addDots (T : Nat → Node) (i d : Nat) : Nat → Node :=
  Function.update (Function.update T d ((T d).addNlink 1)) i ((T i).dots i d)

/-- The inodes once the new inode `i` has an entry in directory `d`. -/
def created (T : Nat → Node) (i d : Nat) (type : FType) (major minor : Int) (name : Name) : Nat → Node :=
  let T := Function.update T i (Node.fresh type major minor)
  let T := if type = .dir then addDots T i d else T
  Function.update T d ((T d).link i name)

theorem created_new {T : Nat → Node} {i d : Nat} {type : FType} {major minor : Int} {name : Name} (hne : i ≠ d) :
    created T i d type major minor name i =
      if type = .dir then (Node.fresh type major minor).dots i d else Node.fresh type major minor := by
  unfold created
  rw [Function.update_of_ne hne]
  split_ifs
  · unfold addDots
    rw [Function.update_self, Function.update_self]
  · rw [Function.update_self]

section inodes

variable {T : Nat → Node} {i d : Nat} {type : FType}

theorem linked_apply (T : Nat → Node) (name : Name) (hne : i ≠ d) (m : Nat) : linked T i d name m =
    if m = d then (T d).link i name else if m = i then (T i).addNlink 1 else T m := by
  unfold linked
  simp only [Function.update_apply, if_neg hne.symm]

theorem created_file_apply (T : Nat → Node) (major minor : Int) (name : Name) (hne : i ≠ d) (ht : type ≠ .dir) (m : Nat) :
    created T i d type major minor name m =
      if m = d then (T d).link i name else if m = i then Node.fresh type major minor else T m := by
  unfold created
  simp only [if_neg ht, Function.update_apply, if_neg hne.symm]

theorem created_dir_apply (T : Nat → Node) (major minor : Int) (name : Name) (hne : i ≠ d) (m : Nat) :
    created T i d .dir major minor name m =
      if m = d then ((T d).addNlink 1).link i name else if m = i then (Node.fresh .dir major minor).dots i d else T m := by
  unfold created addDots
  simp only [if_true, Function.update_apply, if_neg hne.symm]
  split_ifs <;> rfl

theorem unlinked_file_apply (j : Nat) (hne : i ≠ d) (hi : (T i).type ≠ .dir) (m : Nat) : unlinked T i d j m =
    if m = i then (T i).addNlink (-1) else if m = d then (T d).unlink j else T m := by
  unfold unlinked
  simp only [Function.update_apply, if_neg hne, if_neg hi]

theorem unlinked_dir_apply (j : Nat) (hne : i ≠ d) (hi : (T i).type = .dir) (m : Nat) : unlinked T i d j m =
    if m = i then (T i).addNlink (-1) else if m = d then ((T d).unlink j).addNlink (-1) else T m := by
  unfold unlinked
  simp only [Function.update_apply, if_neg hne, if_pos hi]
  split_ifs <;> rfl

end inodes

theorem lookup_dotdot (i : Nat) : lookup dotdot [⟨i, dot⟩] = none := by
  have hno : ¬ (⟨i, dot⟩ : Dirent).Named dotdot := fun hn => absurd hn.2 (show namecmp dotdot dot ≠ 0 by decide)
  unfold lookup lookupFrom
  rw [if_neg hno]
  rfl

/-! ## System calls on the tree -/

/-- The inodes have the same types, and the directories the same entries. -/
def SameDirs (T T' : Nat → Node) : Prop := ∀ i, (T' i).type = (T i).type ∧ (T' i).contents = (T i).contents

theorem walk_congr {T T' : Nat → Node} (h : SameDirs T T') (parent : Bool) (fuel : Nat) : ∀ (i : Nat) (name : Name)
    (path : List UInt8), walk T' parent fuel i name path = walk T parent fuel i name path := by
  induction fuel with
  | zero => exact fun _ _ _ => rfl
  | succ fuel ih =>
    intro i name path
    unfold walk
    rw [(h i).1, (h i).2]
    simp only [ih]

def View.link (v : View) (p : PIdx) (old new : List UInt8) : Option (Nat → Node) :=
  (v.resolve p old false).bind fun x =>
    if (v.node x.1).type = .dir then none
    else (v.resolve p new true).bind fun y =>
      if lookup y.2 (entries (v.node y.1).contents) = none then some (linked v.node x.1 y.1 y.2) else none

def View.unlink (v : View) (p : PIdx) (path : List UInt8) : Option (Nat → Node) :=
  (v.resolve p path true).bind fun x =>
    if namecmp x.2 dot = 0 ∨ namecmp x.2 dotdot = 0 then none
    else (lookup x.2 (entries (v.node x.1).contents)).bind fun y =>
      if (v.node y.2).type = .dir ∧ ¬ EmptyFrom 2 (entries (v.node y.2).contents) then none
      else some (unlinked v.node y.2 x.1 y.1)

/-- `create` on the tree: the inode it returns, and the tree afterwards. -/
inductive View.Create (v : View) (p : PIdx) (path : List UInt8) (type : FType) (major minor : Int) :
    Option Nat → (Nat → Node) → Prop
  | noDir (h : v.resolve p path true = none) : Create v p path type major minor none v.node
  | reuse {d i j : Nat} {name : Name} (h : v.resolve p path true = some (d, name))
      (old : lookup name (entries (v.node d).contents) = some (j, i)) (file : type = .file ∧ (v.node i).type = .file) :
      Create v p path type major minor (some i) v.node
  | exists {d i j : Nat} {name : Name} (h : v.resolve p path true = some (d, name))
      (old : lookup name (entries (v.node d).contents) = some (j, i)) (no : ¬ (type = .file ∧ (v.node i).type = .file)) :
      Create v p path type major minor none v.node
  | new {d i : Nat} {name : Name} (h : v.resolve p path true = some (d, name))
      (none : lookup name (entries (v.node d).contents) = none) (dead : v.node i = .none) (pos : 0 < i)
      (lt : i < v.sb.ninodes) : Create v p path type major minor (some i) (created v.node i d type major minor name)

end Xv6Mlfq.Fs
