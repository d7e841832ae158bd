import Xv6Mlfq.Vm.Grow

/-!
# Processes and their memory (proc.c, pipe.c, file.c)

The part of the kernel's state that decides which pages are in use: the process table (`sz`, `pgdir`, `kstack`, `parent`,
`ofile`), the file table, the two flags of a pipe, and the kernel's own page directory. A process that runs, waits or is
runnable is `live`; the scheduler's fields, the current directory and the contents of trap frames are left out.
A pipe is named by its page.
-/

namespace Xv6Mlfq.Vm

open Lib
open Fs (UINT)

abbrev NPROC : Nat := 64
abbrev NOFILE : Nat := 16
abbrev NFILE : Nat := 100

/-- `enum procstate`; SLEEPING, RUNNABLE and RUNNING are `live`. -/
inductive PState where
  | unused
  | embryo
  | live
  | zombie
  deriving DecidableEq, Repr

structure Proc where
  state : PState
  sz : Nat
  pgdir : Nat
  kstack : Nat
  parent : Option Nat
  ofile : Nat → Option Nat

inductive FileType where
  | none
  | pipe
  | inode
  deriving DecidableEq, Repr

structure File where
  type : FileType
  ref : Nat
  writable : Bool
  pipe : Nat

structure Pipe where
  readopen : Bool
  writeopen : Bool

structure Sys where
  phys : Phys
  proc : Nat → Proc
  file : Nat → File
  pipe : Nat → Pipe
  kpgdir : Nat
  initproc : Nat
  /-- The stacks that `startothers` gave to the other CPUs. -/
  apstacks : List Nat

abbrev K : Type → Type := Prog Sys Stop

variable {α : Type}

def mem (m : M α) : K α := fun s => (m s.phys).map fun r => (r.1, { s with phys := r.2 })

@[simp] theorem wp_mem {m : M α} {s : Sys} {Q : α → Sys → Prop} {E : Stop → Prop} :
    Wp (mem m) s Q E ↔ Wp m s.phys (fun a t => Q a { s with phys := t }) E := by
  unfold Wp mem
  cases m s.phys with
  | ok r => exact Iff.rfl
  | error e => exact Iff.rfl

def setProc (p : Nat) (f : Proc → Proc) : K Unit :=
  update fun s => { s with proc := Function.update s.proc p (f (s.proc p)) }

def toUint (x : Int) : Nat := (x % 4294967296).toNat

def switchuvm (p : Nat) : K Unit := do
  let q ← look fun s => s.proc p
  if q.kstack = 0 then stop (.panic "switchuvm: no kstack")
  else if q.pgdir = 0 then stop (.panic "switchuvm: no pgdir")
  else return ()

def setSize (p sz : Nat) : K Int := do
  setProc p fun q => { q with sz }
  switchuvm p
  return 0

def growproc (p : Nat) (n : Int) : K Int := do
  let q ← look fun s => s.proc p
  if n > 0 then do
    let sz ← mem (allocuvm q.pgdir q.sz (toUint (q.sz + n)))
    if sz = 0 then return -1 else setSize p sz
  else if n < 0 then do
    let sz ← mem (deallocuvm q.pgdir q.sz (toUint (q.sz + n)))
    if sz = 0 then return -1 else setSize p sz
  else setSize p q.sz

end Xv6Mlfq.Vm
