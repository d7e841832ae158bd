import Mathlib

/-!
# The process table (proc.h, param.h)

`Proc` is `struct proc` without the fields that no modelled function reads (`sz`, `pgdir`, `tf`,
`ofile`, `cwd`, `name`); a pointer to a process is its index in `ptable.proc` (`none` is the null
pointer). The C types are kept: an `int` is an `Int32`, a `uint` a `UInt32`, both with the wrapping
arithmetic of the compiled kernel.

Two things that C keeps on a kernel stack are fields here. `context` stands for the address that
`swtch` returns to when the process is next chosen, and `fork` for the local variable `np` of a
`fork()` that is under way.
-/

namespace Xv6Mlfq

abbrev NPROC : Nat := 64

/-- A non-null `struct proc *`: an index into `ptable.proc`. -/
abbrev PIdx : Type := Fin NPROC

instance neZeroNPROC : NeZero NPROC := ⟨by decide⟩

/-- An index into `ptable.queues` and `time_quantum`. -/
abbrev Level : Type := Fin 4

instance neZeroLevels : NeZero 4 := ⟨by decide⟩

inductive ProcState where
  | unused | embryo | sleeping | runnable | running | zombie
  deriving DecidableEq, Repr

inductive ProcType where
  | idle | init | shell
  deriving DecidableEq, Repr

/-- What a process sleeps on: a process (`wait` sleeps on its own `struct proc`) or any other kernel
object (`&ticks`, a buffer, a pipe end, ...), given by its address. -/
inductive Chan where
  | proc (p : PIdx)
  | obj (addr : Nat)
  deriving DecidableEq, Repr

/-- Where `p->context` resumes: `forkret` for a process that never ran, and the call of `sched` in
`yield`, in `sleep`, in the `sleep` of `wait` (which still holds `ptable.lock`), or in `exit`. -/
inductive Context where
  | forkret | yield | sleep | wait | exit
  deriving DecidableEq, Repr

/-- How far the `fork()` of a process is: not in `fork`, before `kalloc` of the child's stack, before
`copyuvm`, or before the critical section that makes the child runnable. -/
inductive Fork where
  | none
  | kalloc (np : PIdx)
  | copyuvm (np : PIdx)
  | enqueue (np : PIdx)
  deriving DecidableEq, Repr

def Fork.np : Fork → Option PIdx
  | .none => Option.none
  | .kalloc np => some np
  | .copyuvm np => some np
  | .enqueue np => some np

/-- The fields of `struct proc` that the scheduler works with. -/
@[ext] structure Sched where
  state : ProcState
  pid : Int32
  /-- `kstack != 0` -/
  kstack : Bool
  killed : Bool
  qLevel : Int32
  cpuBurst : Int32
  cpuWait : Int32
  ioWaitTime : Int32
  endTime : Int32
  totalCpuTime : Int32
  queueEntryTime : UInt32
  type : ProcType
  deriving DecidableEq, Repr

@[ext] structure Proc extends Sched where
  parent : Option PIdx
  chan : Option Chan
  context : Context
  fork : Fork
  next : Option PIdx
  prev : Option PIdx
  deriving DecidableEq, Repr

/-- A zeroed `struct proc`, as the kernel's bss holds it at boot. -/
def Proc.zero : Proc where
  state := .unused
  pid := 0
  kstack := false
  killed := false
  qLevel := 0
  cpuBurst := 0
  cpuWait := 0
  ioWaitTime := 0
  endTime := 0
  totalCpuTime := 0
  queueEntryTime := 0
  type := .idle
  parent := none
  chan := none
  context := .forkret
  fork := .none
  next := none
  prev := none

/-- `struct proc_list` (`proc_count` is never used). -/
@[ext] structure ProcList where
  head : Option PIdx
  tail : Option PIdx
  deriving DecidableEq, Repr

@[ext] structure Ptable where
  proc : PIdx → Proc
  queues : Level → ProcList

namespace Ptable

def modify (t : Ptable) (p : PIdx) (f : Proc → Proc) : Ptable :=
  { t with proc := Function.update t.proc p (f (t.proc p)) }

def setHead (t : Ptable) (l : Level) (p : Option PIdx) : Ptable :=
  { t with queues := Function.update t.queues l { t.queues l with head := p } }

def setTail (t : Ptable) (l : Level) (p : Option PIdx) : Ptable :=
  { t with queues := Function.update t.queues l { t.queues l with tail := p } }

@[simp] theorem modify_proc (t : Ptable) (p : PIdx) (f : Proc → Proc) :
    (t.modify p f).proc = Function.update t.proc p (f (t.proc p)) := rfl
@[simp] theorem modify_queues (t : Ptable) (p : PIdx) (f : Proc → Proc) :
    (t.modify p f).queues = t.queues := rfl
@[simp] theorem setHead_proc (t : Ptable) (l : Level) (p : Option PIdx) :
    (t.setHead l p).proc = t.proc := rfl
@[simp] theorem setTail_proc (t : Ptable) (l : Level) (p : Option PIdx) :
    (t.setTail l p).proc = t.proc := rfl

end Ptable

/-- The two arrays of length four that are indexed by a queue level. -/
inductive LevelArray where
  | queues | timeQuantum
  deriving DecidableEq, Repr

/-- Why a critical section does not end in a next state. `notEnabled` is no fault of the kernel: the
action is not one that can happen in the state. -/
inductive Stop where
  | panic (msg : String)
  | outOfRange (array : LevelArray)
  | nullDeref
  /-- `nextpid++` beyond the largest `int`, which C leaves undefined. -/
  | overflow
  /-- A walk along `next` that does not end. -/
  | spin
  | notEnabled
  deriving DecidableEq, Repr

/-- The level that an `int` names, if it names one. -/
def levelOf (x : Int32) : Option Level :=
  if x = 0 then some 0
  else if x = 1 then some 1
  else if x = 2 then some 2
  else if x = 3 then some 3
  else none

def index (a : LevelArray) (x : Int32) : Except Stop Level :=
  match levelOf x with
  | some l => .ok l
  | none => .error (.outOfRange a)

@[simp] theorem index_some {a : LevelArray} {x : Int32} {l : Level} (h : levelOf x = some l) :
    index a x = .ok l := by
  rw [index, h]

@[simp] theorem index_none {a : LevelArray} {x : Int32} (h : levelOf x = none) :
    index a x = .error (.outOfRange a) := by
  rw [index, h]

def Level.toInt32 (l : Level) : Int32 := Int32.ofNat l.val

theorem levelOf_eq_some {x : Int32} {l : Level} : levelOf x = some l ↔ x = l.toInt32 := by
  constructor
  · unfold levelOf
    split_ifs with h₀ h₁ h₂ h₃
    · rintro ⟨⟩; exact h₀
    · rintro ⟨⟩; exact h₁
    · rintro ⟨⟩; exact h₂
    · rintro ⟨⟩; exact h₃
    · rintro ⟨⟩
  · rintro rfl
    fin_cases l <;> rfl

theorem levelOf_isSome {x : Int32} : (levelOf x).isSome ↔ 0 ≤ x ∧ x ≤ 3 := by
  unfold levelOf
  split_ifs with h₀ h₁ h₂ h₃
  · subst h₀; decide
  · subst h₁; decide
  · subst h₂; decide
  · subst h₃; decide
  · simp only [Option.isSome_none, Bool.false_eq_true, false_iff]
    grind

end Xv6Mlfq
