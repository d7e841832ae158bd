import Xv6Mlfq.Kernel.System
import Xv6Mlfq.Sched.Aging

/-!
# The kernel without its pointers

`View` is the kernel state with the links of the run queues erased, and `Trans` the steps that remain:
every loop over the table is a map over the processes, and the scheduler picks some process that is
`Best` (least level, then first in the order of its queue). Each rule carries what the code has
checked when it gets there, so a case analysis of `Trans` says everything that one step can do.
-/

namespace Xv6Mlfq

variable {n : Nat}

structure View (n : Nat) where
  proc : PIdx → Proc
  nextpid : Int32
  initproc : Option PIdx
  ticks : UInt32
  cpus : Fin n → Option PIdx
  boot : Boot

def Kernel.view (k : Kernel n) : View n where
  proc := k.ptable.body
  nextpid := k.nextpid
  initproc := k.initproc
  ticks := k.ticks
  cpus := k.cpus
  boot := k.boot

namespace View

def set (v : View n) (p : PIdx) (f : Proc → Proc) : View n :=
  { v with proc := Function.update v.proc p (f (v.proc p)) }

def run (v : View n) (c : Fin n) (p : Option PIdx) : View n :=
  { v with cpus := Function.update v.cpus c p }

/-- The first process of the table with a property. -/
def first (v : View n) (P : Proc → Bool) : Option PIdx :=
  (List.finRange NPROC).find? fun p => P (v.proc p)

@[simp, grind =] theorem set_proc (v : View n) (p : PIdx) (f : Proc → Proc) (q : PIdx) :
    (v.set p f).proc q = if q = p then f (v.proc p) else v.proc q := by
  simp [set, Function.update_apply]
@[simp, grind =] theorem set_nextpid (v : View n) (p : PIdx) (f : Proc → Proc) :
    (v.set p f).nextpid = v.nextpid := rfl
@[simp, grind =] theorem set_initproc (v : View n) (p : PIdx) (f : Proc → Proc) :
    (v.set p f).initproc = v.initproc := rfl
@[simp, grind =] theorem set_ticks (v : View n) (p : PIdx) (f : Proc → Proc) :
    (v.set p f).ticks = v.ticks := rfl
@[simp, grind =] theorem set_cpus (v : View n) (p : PIdx) (f : Proc → Proc) :
    (v.set p f).cpus = v.cpus := rfl
@[simp, grind =] theorem set_boot (v : View n) (p : PIdx) (f : Proc → Proc) :
    (v.set p f).boot = v.boot := rfl
@[simp, grind =] theorem run_cpus (v : View n) (c c' : Fin n) (p : Option PIdx) :
    (v.run c p).cpus c' = if c' = c then p else v.cpus c' := by
  simp [run, Function.update_apply]
@[simp, grind =] theorem run_proc (v : View n) (c : Fin n) (p : Option PIdx) :
    (v.run c p).proc = v.proc := rfl
@[simp, grind =] theorem run_initproc (v : View n) (c : Fin n) (p : Option PIdx) :
    (v.run c p).initproc = v.initproc := rfl
@[simp, grind =] theorem run_ticks (v : View n) (c : Fin n) (p : Option PIdx) :
    (v.run c p).ticks = v.ticks := rfl
@[simp, grind =] theorem run_boot (v : View n) (c : Fin n) (p : Option PIdx) :
    (v.run c p).boot = v.boot := rfl

theorem first_eq_some {v : View n} {P : Proc → Bool} {p : PIdx} (h : v.first P = some p) :
    P (v.proc p) = true := by
  have := List.find?_some h
  simpa using this

end View

/-! ## What the steps do to one process -/

def wake (ticks : UInt32) (chan : Option Chan) (x : Proc) : Proc :=
  if x.state = .sleeping ∧ x.chan = chan then { x with state := .runnable, queueEntryTime := ticks }
  else x

/-- The child at the end of `fork` by a process with the given pid. -/
def startSlot (ticks : UInt32) (pid : Int32) (x : Proc) : Proc :=
  { forkSlot pid x with queueEntryTime := ticks }

/-- The first process at the end of `userinit`. -/
def startInit (ticks : UInt32) (x : Proc) : Proc :=
  { userinitSlot x with queueEntryTime := ticks }

def yieldSlot (ticks : UInt32) (x : Proc) : Proc :=
  { x with state := .runnable, queueEntryTime := ticks, context := .yield }

def sleepSlot (chan : Chan) (ctx : Context) (x : Proc) : Proc :=
  { x with chan := some chan, state := .sleeping, context := ctx }

def exitSlot (x : Proc) : Proc := { x with state := .zombie, context := .exit }

def killSlot (ticks : UInt32) (x : Proc) : Proc :=
  if x.state = .sleeping then { x with killed := true, state := .runnable, queueEntryTime := ticks }
  else { x with killed := true }

/-- `check_time_quantum` of the interrupted process. -/
def quantumSlot (x : Proc) : Proc :=
  match levelOf x.qLevel with
  | some l => if x.cpuBurst ≥ timeQuantum l then demoteProcess x else x
  | none => x

/-- The interrupted process between the timers and the aging pass of the timer interrupt. -/
def quotaSlot (x : Proc) : Proc :=
  if x.endTime > 0 ∧ x.totalCpuTime ≥ x.endTime then { x with killed := true }
  else if x.killed = false then quantumSlot x
  else x

/-- Process `q` in the timer interrupt of a CPU that runs `p`. -/
def timerSlot (ticks : UInt32) (p q : PIdx) (x : Proc) : Proc :=
  age ticks (if q = p then quotaSlot (updateProcTimers x) else updateProcTimers x)

namespace View

/-- The exiting process `p` leaves a zombie child behind. -/
def Orphaned (v : View n) (p : PIdx) : Prop :=
  ∃ q, (v.proc q).parent = some p ∧ (v.proc q).state = .zombie

instance (v : View n) (p : PIdx) : Decidable (v.Orphaned p) := by
  unfold Orphaned
  infer_instance

/-- The `exit` of `p` up to its change of state: the parent is woken up, the children are passed to
init, and init is woken up if one of them has exited. -/
def abandon (v : View n) (p : PIdx) : View n :=
  { v with proc := fun q =>
      let x := wake v.ticks ((v.proc p).parent.map .proc) (v.proc q)
      let x := if x.parent = some p then { x with parent := v.initproc } else x
      if v.Orphaned p then wake v.ticks (v.initproc.map .proc) x else x }

/-- `p` may be dispatched next: it is runnable, no runnable process has a smaller level, and on its
own level `p` comes first. -/
def Best (v : View n) (p : PIdx) : Prop :=
  (v.proc p).state = .runnable ∧ ∀ q, (v.proc q).state = .runnable →
    (v.proc p).qLevel ≤ (v.proc q).qLevel ∧
      ((v.proc p).qLevel = (v.proc q).qLevel → Precedes (v.proc p).toSched (v.proc q).toSched)

end View

/-! ## The steps -/

/-- One round of the loop of `wait` by `p` on CPU `c`. -/
inductive Waits (v : View n) (c : Fin n) (p : PIdx) : View n → Prop
  | reap {q : PIdx} (hq : v.first (fun x => x.parent = some p ∧ x.state = .zombie) = some q) :
      Waits v c p (v.set q reapSlot)
  | fail (hz : v.first (fun x => x.parent = some p ∧ x.state = .zombie) = none)
      (hno : v.first (fun x => x.parent = some p) = none ∨ (v.proc p).killed = true) : Waits v c p v
  | sleep (hz : v.first (fun x => x.parent = some p ∧ x.state = .zombie) = none)
      (hkids : v.first (fun x => x.parent = some p) ≠ none) (hkilled : (v.proc p).killed = false) :
      Waits v c p ((v.set p (sleepSlot (.proc p) .wait)).run c none)

/-- The scheduler of CPU `c` switches to `p`, which goes on from where it was, up to the point where it
releases the lock. -/
inductive Dispatches (v : View n) (c : Fin n) (p : PIdx) : View n → Prop
  | resume (hctx : (v.proc p).context = .forkret ∨ (v.proc p).context = .yield) :
      Dispatches v c p ((v.set p fun x => { x with state := .running }).run c (some p))
  | sleep (hctx : (v.proc p).context = .sleep) :
      Dispatches v c p
        ((v.set p fun x => { x with state := .running, chan := none }).run c (some p))
  | wait {v' : View n} (hctx : (v.proc p).context = .wait)
      (hwait : Waits ((v.set p fun x => { x with state := .running, chan := none }).run c (some p))
        c p v') : Dispatches v c p v'

inductive Trans (v : View n) : Act n → View n → Prop
  | userinitAlloc {p} (hboot : v.boot = .start) (hp : v.first (fun x => x.state = .unused) = some p)
      (hmax : v.nextpid ≠ Int32.maxValue) :
      Trans v .userinitAlloc
        { v.set p (allocSlot v.nextpid) with nextpid := v.nextpid + 1, boot := .kalloc p }
  | userinitKalloc {p} (hboot : v.boot = .kalloc p) :
      Trans v (.userinitKalloc true) { v.set p (allocStack true) with boot := .setupkvm p }
  | userinitSetupkvm {p} (hboot : v.boot = .setupkvm p) :
      Trans v (.userinitSetupkvm true) { v with initproc := some p, boot := .enqueue p }
  | userinitEnqueue {p} (hboot : v.boot = .enqueue p) :
      Trans v .userinitEnqueue { v.set p (startInit v.ticks) with boot := .done }
  | forkAlloc {c p np} (hc : v.cpus c = some p) (hfork : (v.proc p).fork = .none)
      (hnp : v.first (fun x => x.state = .unused) = some np) (hmax : v.nextpid ≠ Int32.maxValue) :
      Trans v (.forkAlloc c)
        { (v.set np (allocSlot v.nextpid)).set p (fun x => { x with fork := .kalloc np }) with
          nextpid := v.nextpid + 1 }
  | forkAllocFail {c p} (hc : v.cpus c = some p) (hfork : (v.proc p).fork = .none)
      (hnp : v.first (fun x => x.state = .unused) = none) : Trans v (.forkAlloc c) v
  | forkKalloc {c p np} (ok : Bool) (hc : v.cpus c = some p) (hfork : (v.proc p).fork = .kalloc np) :
      Trans v (.forkKalloc c ok) ((v.set np (allocStack ok)).set p
        fun x => { x with fork := if ok then .copyuvm np else .none })
  | forkCopyuvm {c p np} (ok : Bool) (hc : v.cpus c = some p) (hfork : (v.proc p).fork = .copyuvm np) :
      Trans v (.forkCopyuvm c ok) ((v.set np (copySlot ok p)).set p
        fun x => { x with fork := if ok then .enqueue np else .none })
  | forkEnqueue {c p np} (hc : v.cpus c = some p) (hfork : (v.proc p).fork = .enqueue np) :
      Trans v (.forkEnqueue c) ((v.set np (startSlot v.ticks (v.proc p).pid)).set p
        fun x => { x with fork := .none })
  | exit {c p} (hc : v.cpus c = some p) (hfork : (v.proc p).fork = .none)
      (hinit : v.initproc ≠ some p) :
      Trans v (.exit c) (((v.abandon p).set p exitSlot).run c none)
  | wait {c p v'} (hc : v.cpus c = some p) (hfork : (v.proc p).fork = .none) (hwait : Waits v c p v') :
      Trans v (.wait c) v'
  | yield {c p} (hc : v.cpus c = some p) :
      Trans v (.yield c) ((v.set p (yieldSlot v.ticks)).run c none)
  | sleep {c p} (addr : Nat) (hc : v.cpus c = some p) (hfork : (v.proc p).fork = .none) :
      Trans v (.sleep c addr) ((v.set p (sleepSlot (.obj addr) .sleep)).run c none)
  | wakeup (addr : Nat) :
      Trans v (.wakeup addr)
        { v with proc := fun q => wake v.ticks (some (.obj addr)) (v.proc q) }
  | kill {c p q} (pid : Int32) (hc : v.cpus c = some p) (hfork : (v.proc p).fork = .none)
      (hq : v.first (fun x => x.pid = pid) = some q) :
      Trans v (.kill c pid) (v.set q (killSlot v.ticks))
  | killFail {c p} (pid : Int32) (hc : v.cpus c = some p) (hfork : (v.proc p).fork = .none)
      (hq : v.first (fun x => x.pid = pid) = none) : Trans v (.kill c pid) v
  | setProcInfo {c p} (info : ProcInfo) (hc : v.cpus c = some p) (hfork : (v.proc p).fork = .none) :
      Trans v (.setProcInfo c info) (v.set p (setProcInfo info))
  | trapKill {c p} (hc : v.cpus c = some p) (hfork : (v.proc p).fork = .none) :
      Trans v (.trapKill c) (v.set p fun x => { x with killed := true })
  | schedulerIdle {c} (hc : v.cpus c = none) (hidle : ∀ p, (v.proc p).state ≠ .runnable) :
      Trans v (.scheduler c) v
  | dispatch {c p v'} (hc : v.cpus c = none) (hboot : v.boot = .done) (hbest : v.Best p)
      (hd : Dispatches v c p v') : Trans v (.scheduler c) v'
  | tick (hboot : v.boot = .done) : Trans v .tick { v with ticks := v.ticks + 1 }
  | timerIdle {c} (hc : v.cpus c = none) : Trans v (.timer c) v
  | timer {c p} (hc : v.cpus c = some p) :
      Trans v (.timer c) { v with proc := fun q => timerSlot v.ticks p q (v.proc q) }

end Xv6Mlfq
