import Xv6Mlfq.Kernel.Queue

/-!
# Processes (proc.c, the timer case of trap.c)

The critical sections of `ptable.lock` as functions. A function that runs under the lock from its
`acquire` to its `release` is one definition; a section that is left through `sched` ends where the
scheduler of that CPU releases the lock, and one that is entered by the scheduler's `swtch` starts
with the scheduler's `acquire`. `fork` and `userinit` give the lock up between `allocproc` and the
section that makes the new process runnable, so they are cut into the parts in between.

`kalloc`, `copyuvm` and `setupkvm` either succeed or fail; the outcome is an argument. Return values
are returned where the source's caller can see them.
-/

namespace Xv6Mlfq

inductive Boot where
  | start
  | kalloc (p : PIdx)
  | setupkvm (p : PIdx)
  | enqueue (p : PIdx)
  | done
  deriving DecidableEq, Repr

/-- The process that `userinit` is setting up. -/
def Boot.np : Boot → Option PIdx
  | .start => none
  | .kalloc p => some p
  | .setupkvm p => some p
  | .enqueue p => some p
  | .done => none

/-- The kernel state that the critical sections work on: `ptable`, `nextpid`, `initproc`, `ticks` and
`c->proc` for each of the `n` CPUs. -/
@[ext] structure Kernel (n : Nat) where
  ptable : Ptable
  nextpid : Int32
  initproc : Option PIdx
  ticks : UInt32
  cpus : Fin n → Option PIdx
  boot : Boot

structure ProcInfo where
  qLevel : Int32
  cpuBurst : Int32
  cpuWaitTime : Int32
  ioWaitTime : Int32
  endTime : Int32
  deriving DecidableEq, Repr

variable {n : Nat}

def Kernel.modify (k : Kernel n) (p : PIdx) (f : Proc → Proc) : Kernel n :=
  { k with ptable := k.ptable.modify p f }

/-- The first process of the table with a property, in table order. -/
def Ptable.first (t : Ptable) (P : Proc → Bool) : Option PIdx :=
  (List.finRange NPROC).find? fun p => P (t.proc p)

/-! ## Creating processes -/

/-- The fields that `allocproc` writes into the slot it found. -/
def allocSlot (pid : Int32) (x : Proc) : Proc :=
  { x with
    state := .embryo
    pid := pid
    qLevel := 0
    cpuBurst := 0
    cpuWait := 0
    ioWaitTime := 0
    endTime := -1
    totalCpuTime := 0
    queueEntryTime := 0
    next := none
    prev := none }

def allocproc (k : Kernel n) : Except Stop (Kernel n × Option PIdx) :=
  match k.ptable.first fun x => x.state = .unused with
  | none => .ok (k, none)
  | some p =>
    if k.nextpid = Int32.maxValue then .error .overflow
    else .ok ({ k.modify p (allocSlot k.nextpid) with nextpid := k.nextpid + 1 }, some p)

/-- The end of `allocproc`, without the lock: the kernel stack and the first context. -/
def allocStack (ok : Bool) (x : Proc) : Proc :=
  if ok then { x with kstack := true, context := .forkret }
  else { x with kstack := false, state := .unused }

/-- The fields that the critical section of `userinit` writes before `add_to_queue`. -/
def userinitSlot (x : Proc) : Proc :=
  { x with
    state := .runnable
    qLevel := 3
    cpuBurst := 0
    cpuWait := 0
    ioWaitTime := 0
    next := none
    prev := none
    queueEntryTime := 0
    type := .init }

/-- The middle of `fork`, without the lock: `copyuvm`, and the child's parent. -/
def copySlot (ok : Bool) (curproc : PIdx) (x : Proc) : Proc :=
  if ok then { x with parent := some curproc }
  else { x with kstack := false, state := .unused }

/-- The fields that the critical section of `fork` writes before `add_to_queue`. -/
def forkSlot (pid : Int32) (x : Proc) : Proc :=
  let x := { x with state := .runnable }
  let x := if pid = 1 then { x with qLevel := 3, type := .shell } else { x with qLevel := 0 }
  { x with
    cpuBurst := 0
    cpuWait := 0
    ioWaitTime := 0
    next := none
    prev := none
    queueEntryTime := 0
    endTime := -1
    totalCpuTime := 0 }

/-! ## Sleeping, waking and scheduling -/

def wakeupProc (ticks : UInt32) (chan : Option Chan) (t : Ptable) (p : PIdx) : Except Stop Ptable :=
  if (t.proc p).state = .sleeping ∧ (t.proc p).chan = chan then
    let t := t.modify p fun x => { x with state := .runnable }
    addToQueue ticks t p (t.proc p).qLevel
  else .ok t

def wakeup1 (ticks : UInt32) (chan : Option Chan) (t : Ptable) : Except Stop Ptable :=
  (List.finRange NPROC).foldlM (wakeupProc ticks chan) t

def kill (ticks : UInt32) (t : Ptable) (pid : Int32) : Except Stop (Ptable × Int32) :=
  match t.first fun x => x.pid = pid with
  | none => .ok (t, -1)
  | some p => do
    let t := t.modify p fun x => { x with killed := true }
    if (t.proc p).state = .sleeping then
      let t := t.modify p fun x => { x with state := .runnable }
      let t ← addToQueue ticks t p (t.proc p).qLevel
      return (t, 0)
    return (t, 0)

/-- `sched`, entered from `p` on CPU `c`, up to the `release` in `scheduler`: the scheduler of that
CPU finds itself back after its `swtch` and clears `c->proc`. The checks of `sched` that are about the
lock and the interrupt flag have no counterpart here. -/
def sched (k : Kernel n) (c : Fin n) (p : PIdx) (ctx : Context) : Except Stop (Kernel n) :=
  if (k.ptable.proc p).state = .running then .error (.panic "sched running")
  else .ok { k.modify p (fun x => { x with context := ctx }) with
    cpus := Function.update k.cpus c none }

def yield (k : Kernel n) (c : Fin n) (p : PIdx) : Except Stop (Kernel n) := do
  let k := k.modify p fun x => { x with state := .runnable }
  let t ← addToQueue k.ticks k.ptable p (k.ptable.proc p).qLevel
  sched { k with ptable := t } c p .yield

def sleep (k : Kernel n) (c : Fin n) (p : PIdx) (chan : Chan) (ctx : Context) :
    Except Stop (Kernel n) :=
  sched (k.modify p fun x => { x with chan := some chan, state := .sleeping }) c p ctx

/-- The fields that `wait` clears when it reaps a child. -/
def reapSlot (x : Proc) : Proc :=
  { x with kstack := false, pid := 0, parent := none, killed := false, state := .unused }

/-- One round of the loop of `wait` by `p` on CPU `c`: reap the first exited child and return its pid,
return -1, or go to sleep (no return value yet). -/
def wait (k : Kernel n) (c : Fin n) (p : PIdx) : Except Stop (Kernel n × Option Int32) :=
  match k.ptable.first fun x => x.parent = some p ∧ x.state = .zombie with
  | some q => .ok (k.modify q reapSlot, some (k.ptable.proc q).pid)
  | none =>
    if (k.ptable.first fun x => x.parent = some p) = none ∨ (k.ptable.proc p).killed then
      .ok (k, some (-1))
    else do
      let k ← sleep k c p (.proc p) .wait
      return (k, none)

/-- What the process that `scheduler` switched to does before it releases the lock: return from
`sched` in `yield` or `sleep`, enter `forkret`, or go around the loop of `wait`. -/
def resume (k : Kernel n) (c : Fin n) (p : PIdx) : Except Stop (Kernel n) :=
  match (k.ptable.proc p).context with
  | .forkret => .ok k
  | .yield => .ok k
  | .sleep => .ok (k.modify p fun x => { x with chan := none })
  | .wait => do
    let (k, _) ← wait (k.modify p fun x => { x with chan := none }) c p
    return k
  | .exit => .error (.panic "zombie exit")

/-- One turn of the loop of `scheduler` on CPU `c`. -/
def scheduler (k : Kernel n) (c : Fin n) : Except Stop (Kernel n) :=
  match getNextProc k.ptable with
  | none => .ok k
  | some p =>
    if (k.ptable.proc p).state = .runnable ∧ (k.ptable.proc p).kstack then do
      let k := { k with cpus := Function.update k.cpus c (some p) }
      let k := k.modify p fun x => { x with state := .running }
      let t ← removeFromQueue k.ptable p
      resume { k with ptable := t } c p
    else .ok k

/-! ## Exit -/

/-- One pass of the loop of `exit` that passes abandoned children to init. -/
def abandonProc (ticks : UInt32) (curproc : PIdx) (initproc : Option PIdx) (t : Ptable) (p : PIdx) :
    Except Stop Ptable :=
  if (t.proc p).parent = some curproc then
    let t := t.modify p fun x => { x with parent := initproc }
    if (t.proc p).state = .zombie then wakeup1 ticks (initproc.map .proc) t else .ok t
  else .ok t

def exit (k : Kernel n) (c : Fin n) (p : PIdx) : Except Stop (Kernel n) :=
  if k.initproc = some p then .error (.panic "init exiting")
  else do
    let t ← removeFromQueue k.ptable p
    let t ← wakeup1 k.ticks ((t.proc p).parent.map .proc) t
    let t ← (List.finRange NPROC).foldlM (abandonProc k.ticks p k.initproc) t
    let t := t.modify p fun x => { x with state := .zombie }
    sched { k with ptable := t } c p .exit

/-! ## set_proc_info and the timer interrupt -/

def setProcInfo (i : ProcInfo) (x : Proc) : Proc :=
  { x with
    qLevel := i.qLevel
    cpuBurst := i.cpuBurst
    cpuWait := i.cpuWaitTime
    ioWaitTime := i.ioWaitTime
    endTime := i.endTime }

/-- The middle of the timer handler: the quota of the interrupted process, or else its quantum. -/
def checkQuota (t : Ptable) (p : PIdx) : Except Stop Ptable :=
  if (t.proc p).endTime > 0 ∧ (t.proc p).totalCpuTime ≥ (t.proc p).endTime then
    .ok (t.modify p fun x => { x with killed := true })
  else if (t.proc p).killed = false then checkTimeQuantum t p
  else .ok t

/-- The critical section of the timer interrupt (trap.c) on a CPU that runs `p`. -/
def trapTimer (ticks : UInt32) (t : Ptable) (p : PIdx) : Except Stop Ptable := do
  let t ← checkQuota (updateAllProcTimers t) p
  checkAging ticks t

end Xv6Mlfq
