import Xv6Mlfq.Fs.Types

/-!
# Blocks and inodes (fs.c)

The block allocator, the inode layer and the contents of inodes, translated function by function. A function that
the source calls with a locked inode takes the index of its cache entry. `readi` and `writei` return the bytes read
and the number of bytes written, `none` for -1; what a device returns is an argument.
-/

namespace Xv6Mlfq.Fs

open Lib

/-! ## Blocks -/

def bzero (b : Nat) : M Unit := do
  setData b fun _ _ => 0
  logWrite b

/-- `balloc`: the two loops together visit the bits `0` to `sb.size - 1`. -/
def balloc : M Nat := do
  let s ← look id
  match (List.range s.sb.size).find? fun b => !s.bitmap b with
  | some b => do
    update fun s => { s with bitmap := Function.update s.bitmap b true }
    logWrite (s.sb.bblock b)
    bzero b
    return b
  | none => panic "balloc: out of blocks"

def bfree (b : Nat) : M Unit := do
  let s ← look id
  if s.bitmap b then do
    update fun s => { s with bitmap := Function.update s.bitmap b false }
    logWrite (s.sb.bblock b)
  else panic "freeing free block"

/-! ## Inodes -/

def iupdate (k : IRef) : M Unit := do
  let ip ← inode k
  update fun s => { s with inode := Function.update s.inode ip.inum ip.copy }
  let sb ← look fun s => s.sb
  logWrite (sb.iblock ip.inum)

/-- The cache entry of an inode that is in the cache. -/
def FS.cached (s : FS) (inum : Nat) : Option IRef :=
  (List.finRange NINODE).find? fun k => decide ((s.icache k).ref > 0 ∧ (s.icache k).inum = inum)

def FS.empty (s : FS) : Option IRef :=
  (List.finRange NINODE).find? fun k => decide ((s.icache k).ref = 0)

def iget (inum : Nat) : M IRef := do
  let s ← look id
  match s.cached inum with
  | some k => do
    setInode k fun ip => { ip with ref := ip.ref + 1 }
    return k
  | none =>
    match s.empty with
    | some k => do
      setInode k fun ip => { ip with inum := inum, ref := 1, valid := false }
      return k
    | none => panic "iget: no inodes"

def ialloc (type : FType) : M IRef := do
  let s ← look id
  match (List.range s.sb.ninodes).find? fun i => decide (1 ≤ i ∧ (s.inode i).type = .free) with
  | some i => do
    update fun s => { s with inode := Function.update s.inode i { Dinode.zero with type := type } }
    logWrite (s.sb.iblock i)
    iget i
  | none => panic "ialloc: no inodes"

def idup (k : IRef) : M IRef := do
  setInode k fun ip => { ip with ref := ip.ref + 1 }
  return k

def acquire (k : IRef) : M Unit := do
  let ip ← inode k
  if ip.lock then stop .deadlock else setInode k fun ip => { ip with lock := true }

def release (k : IRef) : M Unit := setInode k fun ip => { ip with lock := false }

/-- The part of `ilock` that reads the inode from the disk. -/
def iload (k : IRef) : M Unit := do
  let s ← look id
  let inum := (s.icache k).inum
  if inum < s.sb.ninodes then do
    setInode k fun ip => { ip with copy := s.inode inum, valid := true }
    if (s.inode inum).type = .free then panic "ilock: no type" else return ()
  else stop .noInode

def ilock (k : IRef) : M Unit := do
  let ip ← inode k
  if ip.ref < 1 then panic "ilock"
  else do
    acquire k
    if ip.valid then return () else iload k

def iunlock (k : IRef) : M Unit := do
  let ip ← inode k
  if ip.lock = false ∨ ip.ref < 1 then panic "iunlock" else release k

/-! ## Contents -/

/-- `if((addr = ip->addrs[i]) == 0) ip->addrs[i] = addr = balloc(ip->dev);` -/
def bmapAddr (k : IRef) (i : Nat) : M Nat := do
  let ip ← inode k
  if ip.copy.addrs i = 0 then do
    let b ← balloc
    setCopy k fun d => { d with addrs := Function.update d.addrs i b }
    return b
  else return ip.copy.addrs i

def bmap (k : IRef) (bn : Nat) : M Nat :=
  if bn < NDIRECT then bmapAddr k bn
  else if bn - NDIRECT < NINDIRECT then do
    let a ← bmapAddr k NDIRECT
    let blk ← look fun s => s.data a
    if word blk (bn - NDIRECT) = 0 then do
      let b ← balloc
      setData a (setWord (bn - NDIRECT) b)
      logWrite a
      return b
    else return word blk (bn - NDIRECT)
  else panic "bmap: out of range"

def itruncDirect (k : IRef) (i : Nat) : M Unit := do
  let ip ← inode k
  if ip.copy.addrs i = 0 then return ()
  else do
    bfree (ip.copy.addrs i)
    setCopy k fun d => { d with addrs := Function.update d.addrs i 0 }

def itruncIndirect (k : IRef) : M Unit := do
  let ip ← inode k
  let a := ip.copy.addrs NDIRECT
  if a = 0 then return ()
  else do
    let blk ← look fun s => s.data a
    each (List.range NINDIRECT) fun j => if word blk j = 0 then pure () else bfree (word blk j)
    bfree a
    setCopy k fun d => { d with addrs := Function.update d.addrs NDIRECT 0 }

def itrunc (k : IRef) : M Unit := do
  each (List.range NDIRECT) (itruncDirect k)
  itruncIndirect k
  setCopy k fun d => { d with size := 0 }
  iupdate k

/-- What `iput` does to an inode without links and other references. -/
def ifree (k : IRef) : M Unit := do
  itrunc k
  setCopy k fun d => { d with type := .free }
  iupdate k
  setInode k fun ip => { ip with valid := false }

/-- The test for the last reference in `iput`. -/
def iputLast (k : IRef) : M Unit := do
  let ip ← inode k
  if ip.valid ∧ ip.copy.nlink = 0 ∧ ip.ref = 1 then ifree k else return ()

def iput (k : IRef) : M Unit := do
  acquire k
  iputLast k
  release k
  setInode k fun ip => { ip with ref := ip.ref - 1 }

def iunlockput (k : IRef) : M Unit := do
  iunlock k
  iput k

/-- The loop of `readi`: `n` bytes from `off` on. Each pass reads at least one byte, so `n` passes are enough. -/
def readiLoop (k : IRef) : Nat → Nat → Nat → M (List UInt8)
  | 0, _, _ => return []
  | fuel + 1, off, n =>
    if n = 0 then return []
    else do
      let b ← bmap k (off / BSIZE)
      let blk ← look fun s => s.data b
      let m := min n (BSIZE - off % BSIZE)
      let rest ← readiLoop k fuel (off + m) (n - m)
      return bytes blk (off % BSIZE) m ++ rest

def readi (k : IRef) (off n : Nat) (dev : Option (List UInt8)) : M (Option (List UInt8)) := do
  let ip ← inode k
  if ip.copy.type = .dev then return if ip.copy.major = CONSOLE then dev else none
  else if off > ip.copy.size ∨ (off + n) % UINT < off then return none
  else do
    let n := if off + n > ip.copy.size then ip.copy.size - off else n
    let bs ← readiLoop k n off n
    return some bs

/-- The loop of `writei`: the bytes `src` at `off`. -/
def writeiLoop (k : IRef) : Nat → Nat → List UInt8 → M Unit
  | 0, _, _ => return ()
  | fuel + 1, off, src =>
    if src = [] then return ()
    else do
      let b ← bmap k (off / BSIZE)
      let m := min src.length (BSIZE - off % BSIZE)
      setData b (memmove (off % BSIZE) (src.take m))
      logWrite b
      writeiLoop k fuel (off + m) (src.drop m)

def writei (k : IRef) (src : List UInt8) (off : Nat) : M (Option Nat) := do
  let ip ← inode k
  let n := src.length
  if ip.copy.type = .dev then return if ip.copy.major = CONSOLE then some n else none
  else if off > ip.copy.size ∨ (off + n) % UINT < off then return none
  else if off + n > MAXFILE * BSIZE then return none
  else do
    writeiLoop k n off src
    if n > 0 ∧ off + n > ip.copy.size then do
      setCopy k fun d => { d with size := off + n }
      iupdate k
      return some n
    else return some n

end Xv6Mlfq.Fs
