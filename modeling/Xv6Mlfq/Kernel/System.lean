import Xv6Mlfq.Kernel.Process
import Xv6Mlfq.Lib.Run

/-!
# The kernel as a transition system

An action is one critical section of `ptable.lock` taken as a whole, or one of the few writes that
the code makes to the shared state without that lock (`ticks++`, `p->killed = 1` on a fault, the
parts of `fork` and `userinit` between their two sections). Any CPU may take the next step, so a run
is an arbitrary interleaving over `n` CPUs.

What the code fixes and the model keeps: a section that belongs to a process is taken by the process
that its CPU runs; a process inside `fork` does nothing but go on with the fork or be preempted; CPU 0
schedules and takes interrupts only after `userinit`; `sleep` and `wakeup` calls from outside proc.c
never name a process as their channel. Everything else is left open, so a run of the kernel is a run
of the model.
-/

namespace Xv6Mlfq

open Lib

/-- One atomic step. The argument `c` is the CPU that takes it. -/
inductive Act (n : Nat) where
  | userinitAlloc
  | userinitKalloc (ok : Bool)
  | userinitSetupkvm (ok : Bool)
  | userinitEnqueue
  | forkAlloc (c : Fin n)
  | forkKalloc (c : Fin n) (ok : Bool)
  | forkCopyuvm (c : Fin n) (ok : Bool)
  | forkEnqueue (c : Fin n)
  | exit (c : Fin n)
  | wait (c : Fin n)
  | yield (c : Fin n)
  | sleep (c : Fin n) (addr : Nat)
  | wakeup (addr : Nat)
  | kill (c : Fin n) (pid : Int32)
  | setProcInfo (c : Fin n) (info : ProcInfo)
  /-- `myproc()->killed = 1` after an unexpected trap from user space. -/
  | trapKill (c : Fin n)
  | scheduler (c : Fin n)
  /-- `ticks++` in the timer interrupt of CPU 0. -/
  | tick
  /-- The rest of the timer interrupt of CPU `c`, up to `lapiceoi`. -/
  | timer (c : Fin n)
  deriving DecidableEq, Repr

variable {n : Nat}

/-- CPU `c` is past `userinit` (only CPU 0 runs it). -/
def Kernel.started (k : Kernel n) (c : Fin n) : Prop := c.val = 0 → k.boot = .done

instance (k : Kernel n) (c : Fin n) : Decidable (k.started c) :=
  inferInstanceAs (Decidable (c.val = 0 → k.boot = .done))

def onCpu (k : Kernel n) (c : Fin n) (f : PIdx → Except Stop (Kernel n)) : Except Stop (Kernel n) :=
  match k.cpus c with
  | some p => f p
  | none => .error .notEnabled

/-- A step of the process that CPU `c` runs, outside `fork`. -/
def onCpuFree (k : Kernel n) (c : Fin n) (f : PIdx → Except Stop (Kernel n)) :
    Except Stop (Kernel n) :=
  onCpu k c fun p => if (k.ptable.proc p).fork = .none then f p else .error .notEnabled

def userinitAlloc (k : Kernel n) : Except Stop (Kernel n) :=
  if k.boot = .start then do
    match ← allocproc k with
    | (k, some p) => return { k with boot := .kalloc p }
    | (_, none) => .error .nullDeref
  else .error .notEnabled

def userinitKalloc (k : Kernel n) (ok : Bool) : Except Stop (Kernel n) :=
  match k.boot with
  | .kalloc p =>
    -- a null `p` is dereferenced right after `allocproc` returns it
    if ok then .ok { k.modify p (allocStack true) with boot := .setupkvm p } else .error .nullDeref
  | _ => .error .notEnabled

def userinitSetupkvm (k : Kernel n) (ok : Bool) : Except Stop (Kernel n) :=
  match k.boot with
  | .setupkvm p =>
    if ok then .ok { k with initproc := some p, boot := .enqueue p }
    else .error (.panic "userinit: out of memory?")
  | _ => .error .notEnabled

def userinitEnqueue (k : Kernel n) : Except Stop (Kernel n) :=
  match k.boot with
  | .enqueue p => do
    let k := k.modify p userinitSlot
    let t ← addToQueue k.ticks k.ptable p (k.ptable.proc p).qLevel
    return { k with ptable := t, boot := .done }
  | _ => .error .notEnabled

/-- The parts of `fork` by `p`; a failed `fork` returns -1 and leaves `fork`. -/
def forkAlloc (k : Kernel n) (p : PIdx) : Except Stop (Kernel n) := do
  match ← allocproc k with
  | (k, some np) => return k.modify p fun x => { x with fork := .kalloc np }
  | (k, none) => return k

@[inherit_doc forkAlloc]
def forkKalloc (k : Kernel n) (p : PIdx) (ok : Bool) : Except Stop (Kernel n) :=
  match (k.ptable.proc p).fork with
  | .kalloc np =>
    let k := k.modify np (allocStack ok)
    .ok (k.modify p fun x => { x with fork := if ok then .copyuvm np else .none })
  | _ => .error .notEnabled

@[inherit_doc forkAlloc]
def forkCopyuvm (k : Kernel n) (p : PIdx) (ok : Bool) : Except Stop (Kernel n) :=
  match (k.ptable.proc p).fork with
  | .copyuvm np =>
    let k := k.modify np (copySlot ok p)
    .ok (k.modify p fun x => { x with fork := if ok then .enqueue np else .none })
  | _ => .error .notEnabled

@[inherit_doc forkAlloc]
def forkEnqueue (k : Kernel n) (p : PIdx) : Except Stop (Kernel n) :=
  match (k.ptable.proc p).fork with
  | .enqueue np => do
    let k := k.modify np (forkSlot (k.ptable.proc p).pid)
    let t ← addToQueue k.ticks k.ptable np (k.ptable.proc np).qLevel
    return { k with ptable := t.modify p fun x => { x with fork := .none } }
  | _ => .error .notEnabled

def step (k : Kernel n) : Act n → Except Stop (Kernel n)
  | .userinitAlloc => userinitAlloc k
  | .userinitKalloc ok => userinitKalloc k ok
  | .userinitSetupkvm ok => userinitSetupkvm k ok
  | .userinitEnqueue => userinitEnqueue k
  | .forkAlloc c => onCpuFree k c fun p => forkAlloc k p
  | .forkKalloc c ok => onCpu k c fun p => forkKalloc k p ok
  | .forkCopyuvm c ok => onCpu k c fun p => forkCopyuvm k p ok
  | .forkEnqueue c => onCpu k c fun p => forkEnqueue k p
  | .exit c => onCpuFree k c fun p => exit k c p
  | .wait c => onCpuFree k c fun p => do
    let (k, _) ← wait k c p
    return k
  | .yield c => onCpu k c fun p => yield k c p
  | .sleep c addr => onCpuFree k c fun p => sleep k c p (.obj addr) .sleep
  | .wakeup addr => do
    let t ← wakeup1 k.ticks (some (.obj addr)) k.ptable
    return { k with ptable := t }
  | .kill c pid => onCpuFree k c fun _ => do
    let (t, _) ← kill k.ticks k.ptable pid
    return { k with ptable := t }
  | .setProcInfo c info => onCpuFree k c fun p => .ok (k.modify p (setProcInfo info))
  | .trapKill c => onCpuFree k c fun p => .ok (k.modify p fun x => { x with killed := true })
  | .scheduler c =>
    if k.started c ∧ k.cpus c = none then scheduler k c else .error .notEnabled
  | .tick => if k.boot = .done then .ok { k with ticks := k.ticks + 1 } else .error .notEnabled
  | .timer c =>
    if k.started c then
      match k.cpus c with
      | some p =>
        if (k.ptable.proc p).state = .running then do
          let t ← trapTimer k.ticks k.ptable p
          return { k with ptable := t }
        else .ok k
      | none => .ok k
    else .error .notEnabled

/-- The state at boot: the bss is zero, `nextpid` is 1 and `pinit` has run. -/
def boot (n : Nat) : Kernel n where
  ptable := initQeueus { proc := fun _ => .zero, queues := fun _ => ⟨none, none⟩ }
  nextpid := 1
  initproc := none
  ticks := 0
  cpus := fun _ => none
  boot := .start

/-- A step of a run: the state it is taken in, and the action. -/
abbrev Event (n : Nat) : Type := Kernel n × Act n

/-- `KRun h k`: the run with history `h` (latest step first) reaches `k`. -/
abbrev KRun (h : List (Event n)) (k : Kernel n) : Prop := Run step (boot n) h k

def Reachable (k : Kernel n) : Prop := ∃ h : List (Event n), KRun h k

theorem exists_kRun {P : List (Event n) → Kernel n → Prop} (as : List (Act n))
    (h : Sat (exec step [] (boot n) as) (fun r => P r.1 r.2) (fun _ => False)) :
    ∃ h k, KRun h k ∧ P h k := exists_run_of_exec _ _ as h

def userinitActs (n : Nat) : List (Act n) :=
  [.userinitAlloc, .userinitKalloc true, .userinitSetupkvm true, .userinitEnqueue]

/-- `fork` by the process on CPU `c`, without a failure and not interrupted. -/
def forkActs (c : Fin n) : List (Act n) :=
  [.forkAlloc c, .forkKalloc c true, .forkCopyuvm c true, .forkEnqueue c]

end Xv6Mlfq
