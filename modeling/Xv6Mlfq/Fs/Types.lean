import Xv6Mlfq.Kernel.Types
import Xv6Mlfq.Lib.Prog

/-!
# The file system's data (fs.h, file.h, stat.h)

The disk is kept by regions: the inode blocks as an array of `struct dinode`, the bitmap as an array of bits, the
other blocks as bytes. Block and inode numbers, sizes and offsets are natural numbers, and the places where the
32-bit arithmetic of the source can wrap say so; `nlink` is a `short` (`short`). The inode cache, the file table
and the open files of the processes are arrays as in the source, and a pointer into one of them is an index.

There is one device, so `dev` is left out. `logged` lists the blocks that `log_write` was called for, latest
first, and `outstanding` counts `begin_op` without `end_op`.
-/

namespace Xv6Mlfq.Fs

open Lib

abbrev BSIZE : Nat := 512
abbrev NDIRECT : Nat := 12
abbrev NINDIRECT : Nat := 128
abbrev MAXFILE : Nat := NDIRECT + NINDIRECT
abbrev DIRSIZ : Nat := 14
abbrev DESIZE : Nat := 16
abbrev IPB : Nat := 8
abbrev BPB : Nat := 4096
abbrev ROOTINO : Nat := 1
/-- Active inodes, open files of the system and of a process (param.h). -/
abbrev NINODE : Nat := 50
@[inherit_doc NINODE]
abbrev NFILE : Nat := 100
@[inherit_doc NINODE]
abbrev NOFILE : Nat := 16
/-- Size of the file system in blocks (param.h). -/
abbrev FSSIZE : Nat := 1000
/-- The only device with functions in `devsw`. -/
abbrev CONSOLE : Int := 1

abbrev UINT : Nat := 2 ^ 32

/-- The value of an `int` expression stored in a `short`. -/
def short (x : Int) : Int := Int.bmod x 65536

/-- The contents of a block (bytes `0` to `BSIZE - 1`). -/
abbrev Block : Type := Nat → UInt8

/-- `struct superblock`; its fields are `uint`s. The data blocks are the last ones, and block 0 is the boot
block. -/
structure Superblock where
  size : Nat
  nblocks : Nat
  ninodes : Nat
  inodestart : Nat
  bmapstart : Nat
  size_lt : size < UINT
  nblocks_lt : nblocks < size

def Superblock.iblock (sb : Superblock) (i : Nat) : Nat := i / IPB + sb.inodestart

def Superblock.bblock (sb : Superblock) (b : Nat) : Nat := b / BPB + sb.bmapstart

/-- The type of an inode; `free` is 0, the others `T_DIR`, `T_FILE` and `T_DEV`. -/
inductive FType where
  | free | dir | file | dev
  deriving DecidableEq, Repr

/-- `struct dinode`; `addrs` has `NDIRECT + 1` entries. -/
@[ext] structure Dinode where
  type : FType
  major : Int
  minor : Int
  nlink : Int
  size : Nat
  addrs : Nat → Nat

def Dinode.zero : Dinode := ⟨.free, 0, 0, 0, 0, fun _ => 0⟩

/-- `struct inode`: `copy` is the copy of the disk inode. -/
structure Inode where
  inum : Nat
  ref : Nat
  lock : Bool
  valid : Bool
  copy : Dinode

/-- A non-null `struct inode *`: an index into `icache.inode`. -/
abbrev IRef : Type := Fin NINODE

instance neZeroNINODE : NeZero NINODE := ⟨by decide⟩

/-- A non-null `struct file *`: an index into `ftable.file`. -/
abbrev FRef : Type := Fin NFILE

instance neZeroNFILE : NeZero NFILE := ⟨by decide⟩

inductive FdType where
  | none | pipe | inode
  deriving DecidableEq, Repr

structure File where
  type : FdType
  ref : Nat
  readable : Bool
  writable : Bool
  ip : IRef
  off : Nat
  deriving DecidableEq

/-- The open files and the current directory of a `struct proc`. -/
structure ProcFiles where
  ofile : Fin NOFILE → Option FRef
  cwd : Option IRef
  deriving DecidableEq

structure FS where
  sb : Superblock
  inode : Nat → Dinode
  bitmap : Nat → Bool
  data : Nat → Block
  icache : IRef → Inode
  ftable : FRef → File
  proc : PIdx → ProcFiles
  outstanding : Int
  logged : List Nat

inductive Stop where
  | panic (msg : String)
  /-- `acquiresleep` of an inode lock that the same system call holds. -/
  | deadlock
  /-- An inode number beyond the inode blocks. -/
  | noInode
  /-- A loop whose bound is too small (never the case, see `namex`). -/
  | spin
  | notEnabled
  deriving DecidableEq, Repr

/-- Kernel code that works on the file system. -/
abbrev M : Type → Type := Prog FS Stop

def panic {α : Type} (msg : String) : M α := stop (.panic msg)

/-- `begin_op`; the log itself is the subject of `Xv6Mlfq.Log`. -/
def beginOp : M Unit := update fun s => { s with outstanding := s.outstanding + 1 }

def endOp : M Unit := update fun s => { s with outstanding := s.outstanding - 1 }

def logWrite (b : Nat) : M Unit := update fun s => { s with logged := b :: s.logged }

def inode (k : IRef) : M Inode := look fun s => s.icache k

def setInode (k : IRef) (f : Inode → Inode) : M Unit :=
  update fun s => { s with icache := Function.update s.icache k (f (s.icache k)) }

/-- Write fields of the copy of the disk inode. -/
def setCopy (k : IRef) (f : Dinode → Dinode) : M Unit := setInode k fun ip => { ip with copy := f ip.copy }

def setData (b : Nat) (f : Block → Block) : M Unit :=
  update fun s => { s with data := Function.update s.data b (f (s.data b)) }

def word (blk : Block) (j : Nat) : Nat :=
  (blk (4 * j)).toNat + 256 * (blk (4 * j + 1)).toNat + 65536 * (blk (4 * j + 2)).toNat +
    16777216 * (blk (4 * j + 3)).toNat

def setWord (j x : Nat) (blk : Block) : Block := fun k =>
  if k / 4 = j then UInt8.ofNat (x / 256 ^ (k % 4)) else blk k

/-- `memmove(bp->data + o, src, n)` for the `n` bytes `src`. -/
def memmove (o : Nat) (src : List UInt8) (blk : Block) : Block := fun k =>
  if o ≤ k ∧ k < o + src.length then src.getD (k - o) 0 else blk k

def bytes (blk : Block) (o n : Nat) : List UInt8 := (List.range n).map fun k => blk (o + k)

/-! ## Words of a block -/

theorem toNat_ofNat (x : Nat) : (UInt8.ofNat x).toNat = x % 256 := by
  simp

theorem word_setWord (blk : Block) (j j' : Nat) {x : Nat} (hx : x < UINT) :
    word (setWord j x blk) j' = if j' = j then x else word blk j' := by
  unfold word setWord
  by_cases h : j' = j
  · subst h
    have h0 : 4 * j' / 4 = j' ∧ 4 * j' % 4 = 0 := by omega
    have h1 : (4 * j' + 1) / 4 = j' ∧ (4 * j' + 1) % 4 = 1 := by omega
    have h2 : (4 * j' + 2) / 4 = j' ∧ (4 * j' + 2) % 4 = 2 := by omega
    have h3 : (4 * j' + 3) / 4 = j' ∧ (4 * j' + 3) % 4 = 3 := by omega
    simp only [h0, h1, h2, h3, if_true, toNat_ofNat]
    simp only [UINT] at hx
    norm_num
    omega
  · have h0 : 4 * j' / 4 = j' := by omega
    have h1 : (4 * j' + 1) / 4 = j' := by omega
    have h2 : (4 * j' + 2) / 4 = j' := by omega
    have h3 : (4 * j' + 3) / 4 = j' := by omega
    simp only [h0, h1, h2, h3, if_neg h]

theorem word_lt (blk : Block) (j : Nat) : word blk j < UINT := by
  have h0 := (blk (4 * j)).toNat_lt
  have h1 := (blk (4 * j + 1)).toNat_lt
  have h2 := (blk (4 * j + 2)).toNat_lt
  have h3 := (blk (4 * j + 3)).toNat_lt
  unfold word
  simp only [UINT]
  omega

@[simp] theorem word_zero (j : Nat) : word (fun _ => 0) j = 0 := rfl

end Xv6Mlfq.Fs
