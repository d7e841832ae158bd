import Xv6Mlfq.Fs.Inode

/-!
# Directories and paths (fs.c)

A name is the `DIRSIZ` bytes of a `char name[DIRSIZ]`: a string, its terminating zero if it is shorter, and whatever
stood behind it. A path is the string up to its terminating zero. `namex` returns the inode and, in `name`, the last
element that `skipelem` has taken off.
-/

namespace Xv6Mlfq.Fs

open Lib

abbrev Name : Type := List UInt8

def slash : UInt8 := 47

/-- `strncmp`; a list that is too short reads as zero. -/
def strncmp : Nat → List UInt8 → List UInt8 → Int
  | 0, _, _ => 0
  | n + 1, p, q =>
    if p.headD 0 ≠ 0 ∧ p.headD 0 = q.headD 0 then strncmp n p.tail q.tail
    else (p.headD 0).toNat - (q.headD 0).toNat

def namecmp (s t : Name) : Int := strncmp DIRSIZ s t

/-- A string in a `char[DIRSIZ]`, filled up with zeros. -/
def pad (str : List UInt8) : Name := str.take DIRSIZ ++ List.replicate (DIRSIZ - str.length) 0

def strncpy (t : List UInt8) : Name := pad (t.takeWhile fun c => decide (c ≠ 0))

def dot : Name := pad [46]

def dotdot : Name := pad [46, 46]

structure Dirent where
  inum : Nat
  name : Name
  deriving DecidableEq

/-- The bytes of a `struct dirent`; `inum` is a `ushort`. -/
def Dirent.encode (de : Dirent) : List UInt8 :=
  UInt8.ofNat de.inum :: UInt8.ofNat (de.inum / 256) :: de.name

def Dirent.decode (bs : List UInt8) : Dirent :=
  ⟨(bs.getD 0 0).toNat + 256 * (bs.getD 1 0).toNat, bs.drop 2⟩

def Dirent.zero : Dirent := ⟨0, List.replicate DIRSIZ 0⟩

/-- The number of passes of `for(off = 0; off < size; off += sizeof(de))`. -/
def direntsIn (size : Nat) : Nat := (size + (DESIZE - 1)) / DESIZE

/-- `readi(dp, (char*)&de, off, sizeof(de))`, with the panic of the caller. -/
def readDirent (dp : IRef) (off : Nat) (msg : String) : M Dirent := do
  match ← readi dp off DESIZE none with
  | some bs => if bs.length = DESIZE then return Dirent.decode bs else panic msg
  | none => panic msg

/-- The loop of `dirlookup`, with at most `fuel` more entries. -/
def dirlookupLoop (dp : IRef) (name : Name) : Nat → Nat → M (Option (IRef × Nat))
  | 0, _ => return none
  | fuel + 1, off => do
    let de ← readDirent dp off "dirlookup read"
    if de.inum = 0 then dirlookupLoop dp name fuel (off + DESIZE)
    else if namecmp name de.name = 0 then do
      let ip ← iget de.inum
      return some (ip, off)
    else dirlookupLoop dp name fuel (off + DESIZE)

def dirlookup (dp : IRef) (name : Name) : M (Option (IRef × Nat)) := do
  let ip ← inode dp
  if ip.copy.type ≠ .dir then panic "dirlookup not DIR"
  else dirlookupLoop dp name (direntsIn ip.copy.size) 0

/-- The loop of `dirlink` that looks for an empty entry. -/
def dirlinkLoop (dp : IRef) : Nat → Nat → M Nat
  | 0, off => return off
  | fuel + 1, off => do
    let de ← readDirent dp off "dirlink read"
    if de.inum = 0 then return off else dirlinkLoop dp fuel (off + DESIZE)

def dirlink (dp : IRef) (name : Name) (inum : Nat) : M Int := do
  match ← dirlookup dp name with
  | some (ip, _) => do
    iput ip
    return -1
  | none => do
    let d ← inode dp
    let off ← dirlinkLoop dp (direntsIn d.copy.size) 0
    let r ← writei dp (Dirent.encode ⟨inum, strncpy name⟩) off
    if r ≠ some DESIZE then panic "dirlink" else return 0

/-- `memmove` of an element to `name`, with a terminating zero if there is room for one. -/
def putElem (name : Name) (s : List UInt8) : Name :=
  if DIRSIZ ≤ s.length then s.take DIRSIZ else s ++ 0 :: name.drop (s.length + 1)

/-- `skipelem`: the next element, in `name`, and what follows it. -/
def skipelem (path : List UInt8) (name : Name) : Option (Name × List UInt8) :=
  let path := path.dropWhile fun c => decide (c = slash)
  if path = [] then none
  else
    let s := path.takeWhile fun c => decide (c ≠ slash)
    some (putElem name s, (path.drop s.length).dropWhile fun c => decide (c = slash))

/-- The loop of `namex`. Every pass takes an element off the path. -/
def namexLoop (parent : Bool) : Nat → IRef → Name → List UInt8 → M (Option (IRef × Name))
  | 0, _, _, _ => stop .spin
  | fuel + 1, ip, name, path =>
    match skipelem path name with
    | none =>
      if parent then do
        iput ip
        return none
      else return some (ip, name)
    | some (name, path) => do
      ilock ip
      let d ← inode ip
      if d.copy.type ≠ .dir then do
        iunlockput ip
        return none
      else if parent ∧ path = [] then do
        iunlock ip
        return some (ip, name)
      else do
        match ← dirlookup ip name with
        | none => do
          iunlockput ip
          return none
        | some (next, _) => do
          iunlockput ip
          namexLoop parent fuel next name path

def namexStart (p : PIdx) (path : List UInt8) : M IRef :=
  if path.head? = some slash then iget ROOTINO
  else do
    match ← look fun s => (s.proc p).cwd with
    | some cwd => idup cwd
    | none => stop .notEnabled

/-- `namex`, called by process `p`. The array of the caller is not initialised; nothing reads it behind the zero that
`skipelem` puts there, and it starts with zeros here. -/
def namex (p : PIdx) (path : List UInt8) (parent : Bool) : M (Option (IRef × Name)) := do
  let ip ← namexStart p path
  namexLoop parent (path.length + 1) ip (pad []) path

def namei (p : PIdx) (path : List UInt8) : M (Option IRef) := do
  let r ← namex p path false
  return r.map Prod.fst

def nameiparent (p : PIdx) (path : List UInt8) : M (Option (IRef × Name)) := namex p path true

end Xv6Mlfq.Fs
