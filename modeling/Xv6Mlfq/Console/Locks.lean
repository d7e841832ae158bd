import Xv6Mlfq.Console.Debug
import Xv6Mlfq.Console.Input

/-!
# The console lock and the process table lock of a DEBUG build

The kernel of `Kernel.System` with the console on top, on `n` CPUs. A critical section that waits for no other
lock is one step. Three pieces of code take one of `ptable.lock` and `cons.lock` while they hold the other, and are
cut there:

* the timer interrupt prints under `ptable.lock`; each `cprintf` takes `cons.lock` (`Pc.print`);
* `consoleintr` calls `wakeup` under `cons.lock`, which takes `ptable.lock` (`Pc.wake`);
* `consoleread` calls `sleep` under `cons.lock`, which takes `ptable.lock` before it lets go (`Pc.sleep`).

The orders are opposite, and two CPUs can wait for each other forever (`console_deadlock`). They cannot as long
as the printing interrupts and the console's sections keep apart (`console_no_deadlock`).
-/

namespace Xv6Mlfq.Console

open Lib

variable {n : Nat}

def inputR : Nat := 0

/-- Where a CPU is: in none of the three pieces of code, or at an `acquire` in one of them, with what is
still to be printed, the characters still to come, or the variables of `consoleread`. -/
inductive Pc where
  | idle
  | print (msgs : List Msg)
  | wake (cs : List UInt8)
  | sleep (r : Read)
  deriving DecidableEq

def Pc.wantsCons : Pc → Bool
  | .print _ => true
  | _ => false

def Pc.wantsPtable : Pc → Bool
  | .wake _ => true
  | .sleep _ => true
  | _ => false

/-- The kernel, the input buffer, the holders of the two locks, where each CPU is, and the processes that sleep in
`consoleread`. -/
structure State (n : Nat) where
  k : Kernel n
  input : Input
  ptableLock : Option (Fin n)
  consLock : Option (Fin n)
  pc : Fin n → Pc
  reads : PIdx → Option Read

/-- One step. The argument `c` is the CPU that takes it. -/
inductive Act (n : Nat) where
  | kernel (a : Xv6Mlfq.Act n)
  /-- The critical section of the timer interrupt, up to its first `cprintf`. -/
  | timer (c : Fin n)
  /-- The next `cprintf` of the timer interrupt. -/
  | cprintf (c : Fin n)
  /-- `consoleintr` on the characters `cs`, up to its first `wakeup`. -/
  | consoleintr (c : Fin n) (cs : List UInt8)
  /-- The `wakeup` of `consoleintr`, and on up to the next one. -/
  | wakeup (c : Fin n)
  /-- `consoleread` of `m` bytes, up to its first `sleep`. -/
  | consoleread (c : Fin n) (m : Nat)
  /-- The `sleep` of `consoleread`. -/
  | sleep (c : Fin n)
  /-- `consoleread` after its `sleep`, up to the next one. -/
  | resume (c : Fin n)

/-- The CPU that takes a step of the kernel, where the step has one. -/
def cpuOf : Xv6Mlfq.Act n → Option (Fin n)
  | .forkAlloc c => some c
  | .forkKalloc c _ => some c
  | .forkCopyuvm c _ => some c
  | .forkEnqueue c => some c
  | .exit c => some c
  | .wait c => some c
  | .yield c => some c
  | .sleep c _ => some c
  | .kill c _ => some c
  | .setProcInfo c _ => some c
  | .trapKill c => some c
  | .scheduler c => some c
  | .timer c => some c
  | _ => none

/-- The step is not one that an interrupt or the scheduler makes on its own. -/
def ownStep : Xv6Mlfq.Act n → Bool
  | .yield _ => false
  | .scheduler _ => false
  | _ => true

/-- The step is a critical section of `ptable.lock`. -/
def takesPtable : Xv6Mlfq.Act n → Bool
  | .userinitKalloc _ => false
  | .userinitSetupkvm _ => false
  | .forkKalloc _ _ => false
  | .forkCopyuvm _ _ => false
  | .trapKill _ => false
  | .tick => false
  | _ => true

/-- The CPU does nothing else, and its process is not inside a `consoleread` it would have to go on with. -/
def State.free (s : State n) (c : Fin n) (own : Bool) : Bool :=
  decide (s.pc c = .idle) &&
    match s.k.cpus c with
    | some p => !own || (s.reads p).isNone
    | none => true

/-- The kernel may take the step. The timer interrupt is a step of its own here. -/
def State.admits (s : State n) (a : Xv6Mlfq.Act n) : Bool :=
  match a with
  | .timer _ => false
  | a =>
    (!takesPtable a || s.ptableLock.isNone) &&
      match cpuOf a with
      | some c => s.free c (ownStep a)
      | none => true

def State.leave (s : State n) (c : Fin n) : State n := { s with pc := Function.update s.pc c .idle }

/-- The timer interrupt of CPU `c` while it runs `p`. -/
def timer (s : State n) (c : Fin n) (p : PIdx) : Except Stop (State n) := do
  let r ← trapTimerDebug s.k.ticks s.k.ptable p
  let s := { s with k := { s.k with ptable := r.2 } }
  if r.1 = [] then return s
  return { s with ptableLock := some c, pc := Function.update s.pc c (.print r.1) }

/-- The end of one `cprintf`: the next one, or the end of the interrupt. -/
def State.printed (s : State n) (c : Fin n) : List Msg → State n
  | [] => { s.leave c with ptableLock := none }
  | msgs => { s with pc := Function.update s.pc c (.print msgs) }

def State.intr (s : State n) (c : Fin n) (cs : List UInt8) : State n :=
  match intrChars s.input cs with
  | (i, some cs) => { s with input := i, consLock := some c, pc := Function.update s.pc c (.wake cs) }
  | (i, none) => { s.leave c with input := i, consLock := none }

/-- `consoleread` by `p` on CPU `c` from the top of its loop on. A killed process returns -1. -/
def State.read (s : State n) (c : Fin n) (p : PIdx) (r : Read) : State n :=
  let s := { s with reads := Function.update s.reads p none }
  match readLoop r.target r.n r.got s.input with
  | (i, none) => { s.leave c with input := i, consLock := none }
  | (i, some r) =>
    if (s.k.ptable.proc p).killed then { s.leave c with input := i, consLock := none }
    else { s with input := i, consLock := some c, pc := Function.update s.pc c (.sleep r) }

/-- One step. A step that would spin on a lock is not enabled. -/
def step (s : State n) : Act n → Except Stop (State n)
  | .kernel a =>
    if s.admits a then do
      let k ← Xv6Mlfq.step s.k a
      return { s with k := k }
    else .error .notEnabled
  | .timer c =>
    if s.pc c = .idle ∧ s.ptableLock = none ∧ s.k.started c then
      match s.k.cpus c with
      | some p => if (s.k.ptable.proc p).state = .running then timer s c p else .ok s
      | none => .ok s
    else .error .notEnabled
  | .cprintf c =>
    match s.pc c with
    | .print (_ :: msgs) => if s.consLock = none then .ok (s.printed c msgs) else .error .notEnabled
    | _ => .error .notEnabled
  | .consoleintr c cs =>
    if s.pc c = .idle ∧ s.consLock = none then .ok (s.intr c cs) else .error .notEnabled
  | .wakeup c =>
    match s.pc c with
    | .wake cs =>
      if s.ptableLock = none then do
        let k ← Xv6Mlfq.step s.k (.wakeup inputR)
        return State.intr { s with k := k } c cs
      else .error .notEnabled
    | _ => .error .notEnabled
  | .consoleread c m =>
    match s.k.cpus c with
    | some p =>
      if s.free c true ∧ s.consLock = none ∧ (s.k.ptable.proc p).fork = .none then .ok (s.read c p ⟨m, m, []⟩)
      else .error .notEnabled
    | none => .error .notEnabled
  | .sleep c =>
    match s.pc c, s.k.cpus c with
    | .sleep r, some p =>
      if s.ptableLock = none then do
        let k ← Xv6Mlfq.step s.k (.sleep c inputR)
        return { s.leave c with k := k, consLock := none, reads := Function.update s.reads p (some r) }
      else .error .notEnabled
    | _, _ => .error .notEnabled
  | .resume c =>
    match s.k.cpus c with
    | some p =>
      match s.reads p with
      | some r => if s.pc c = .idle ∧ s.consLock = none then .ok (s.read c p r) else .error .notEnabled
      | none => .error .notEnabled
    | none => .error .notEnabled

def start (n : Nat) : State n where
  k := boot n
  input := .zero
  ptableLock := none
  consLock := none
  pc := fun _ => .idle
  reads := fun _ => none

/-- A step of a run: the state it is taken in, and the action. -/
abbrev Event (n : Nat) : Type := State n × Act n

/-- `CRun h s`: the run with history `h` (latest step first) reaches `s`. -/
abbrev CRun (h : List (Event n)) (s : State n) : Prop := Run step (start n) h s

/-- One CPU holds `ptable.lock` and waits for `cons.lock`, another one the other way round. -/
def Deadlock (s : State n) : Prop :=
  ∃ c d, c ≠ d ∧ s.ptableLock = some c ∧ (s.pc c).wantsCons = true ∧ s.consLock = some d ∧
    (s.pc d).wantsPtable = true

instance (s : State n) : Decidable (Deadlock s) :=
  inferInstanceAs (Decidable (∃ c d, c ≠ d ∧ s.ptableLock = some c ∧ (s.pc c).wantsCons = true ∧
    s.consLock = some d ∧ (s.pc d).wantsPtable = true))

/-- No step of the console keeps `cons.lock`, to go on to `ptable.lock`, while a timer interrupt prints. -/
def Releases (s : State n) (a : Act n) : Prop := ∀ s', step s a = .ok s' → s'.consLock ≠ none → s.ptableLock = none

/-- The timer interrupts that print and the sections of the console that go on to `ptable.lock` keep apart. -/
def Apart (s : State n) : Act n → Prop
  | .timer c => ∀ p, s.k.cpus c = some p → DebugDue s.k.ptable p → s.consLock = none
  | .consoleintr c cs => Releases s (.consoleintr c cs)
  | .consoleread c m => Releases s (.consoleread c m)
  | .resume c => Releases s (.resume c)
  | _ => True

/-! ## The kernel underneath -/

variable {s s' : State n} {h : List (Event n)} {a : Act n}

@[simp] theorem intr_k (s : State n) (c : Fin n) (cs : List UInt8) : (s.intr c cs).k = s.k := by
  unfold State.intr
  split <;> rfl

@[simp] theorem intr_ptableLock (s : State n) (c : Fin n) (cs : List UInt8) :
    (s.intr c cs).ptableLock = s.ptableLock := by
  unfold State.intr
  split <;> rfl

@[simp] theorem read_k (s : State n) (c : Fin n) (p : PIdx) (r : Read) : (s.read c p r).k = s.k := by
  unfold State.read
  simp only
  split
  · rfl
  · split <;> rfl

@[simp] theorem read_ptableLock (s : State n) (c : Fin n) (p : PIdx) (r : Read) :
    (s.read c p r).ptableLock = s.ptableLock := by
  unfold State.read
  simp only
  split
  · rfl
  · split <;> rfl

@[simp] theorem printed_k (s : State n) (c : Fin n) (msgs : List Msg) : (s.printed c msgs).k = s.k := by
  cases msgs <;> rfl

@[simp] theorem printed_consLock (s : State n) (c : Fin n) (msgs : List Msg) :
    (s.printed c msgs).consLock = s.consLock := by
  cases msgs <;> rfl

theorem bind_ok {α β : Type} {x : Except Stop α} {f : α → β} {b : β}
    (h : (do let r ← x; return f r) = Except.ok b) : ∃ r, x = .ok r ∧ b = f r := by
  cases x with
  | error e => cases h
  | ok r => exact ⟨r, rfl, (Except.ok.inj h).symm⟩

theorem timer_ok {c : Fin n} {p : PIdx} (h : timer s c p = .ok s') :
    ∃ msgs t, trapTimerDebug s.k.ticks s.k.ptable p = .ok (msgs, t) ∧
      s'.k = { s.k with ptable := t } ∧ s'.consLock = s.consLock ∧
      (msgs = [] → s'.ptableLock = s.ptableLock) := by
  unfold timer at h
  cases hr : trapTimerDebug s.k.ticks s.k.ptable p with
  | error e =>
    rw [hr] at h
    cases h
  | ok r =>
    rw [hr] at h
    refine ⟨r.1, r.2, rfl, ?_⟩
    by_cases hnil : r.1 = []
    · have hs : { s with k := { s.k with ptable := r.2 } } = s' := by
        simpa [hnil, bind, Except.bind, pure, Except.pure] using h
      subst hs
      exact ⟨rfl, rfl, fun _ => rfl⟩
    · have hs : { s with
          k := { s.k with ptable := r.2 }
          ptableLock := some c
          pc := Function.update s.pc c (.print r.1) } = s' := by
        simpa [hnil, bind, Except.bind, pure, Except.pure] using h
      subst hs
      exact ⟨rfl, rfl, fun hnil' => absurd hnil' hnil⟩

/-- What a step needs of the locks, and what it does to the kernel and to them: a step of the kernel, the timer
interrupt, a `cprintf`, an entry of the console, or its way on under `ptable.lock`. -/
inductive Moves (s s' : State n) : Act n → Prop
  | kernel {b} : Xv6Mlfq.step s.k b = .ok s'.k → s'.pc = s.pc → s'.ptableLock = s.ptableLock →
      s'.consLock = s.consLock → Moves s s' (.kernel b)
  | timer {c} : s.ptableLock = none → Xv6Mlfq.step s.k (.timer c) = .ok s'.k → s'.consLock = s.consLock →
      (s'.ptableLock ≠ none → ∃ p, s.k.cpus c = some p ∧ DebugDue s.k.ptable p) → Moves s s' (.timer c)
  | cprintf {c} : s.consLock = none → s'.k = s.k → s'.consLock = none → Moves s s' (.cprintf c)
  | consoleintr {c cs} : s.consLock = none → s'.k = s.k → s'.ptableLock = s.ptableLock →
      Moves s s' (.consoleintr c cs)
  | wakeup {c} : s.ptableLock = none → Xv6Mlfq.step s.k (.wakeup inputR) = .ok s'.k → s'.ptableLock = none →
      Moves s s' (.wakeup c)
  | consoleread {c m} : s.consLock = none → s'.k = s.k → s'.ptableLock = s.ptableLock →
      Moves s s' (.consoleread c m)
  | sleep {c} : s.ptableLock = none → Xv6Mlfq.step s.k (.sleep c inputR) = .ok s'.k → s'.ptableLock = none →
      Moves s s' (.sleep c)
  | resume {c} : s.consLock = none → s'.k = s.k → s'.ptableLock = s.ptableLock → Moves s s' (.resume c)

theorem timer_moves {c : Fin n} (ht : step s (.timer c) = .ok s') : Moves s s' (.timer c) := by
  simp only [step] at ht
  split_ifs at ht with hfree
  obtain ⟨-, hlock, hstarted⟩ := hfree
  have hkernel : Xv6Mlfq.step s.k (.timer c) = match s.k.cpus c with
      | some p =>
        if (s.k.ptable.proc p).state = .running then do
          let t ← trapTimer s.k.ticks s.k.ptable p
          return { s.k with ptable := t }
        else .ok s.k
      | none => .ok s.k := if_pos hstarted
  cases hp : s.k.cpus c with
  | none =>
    simp only [hp] at ht hkernel
    cases ht
    exact .timer hlock hkernel rfl fun hne => absurd hlock hne
  | some p =>
    simp only [hp] at ht hkernel
    split_ifs at ht with hrun
    · obtain ⟨msgs, t, hdebug, hk, hcons, hkeep⟩ := timer_ok ht
      refine .timer hlock ?_ hcons fun hne => ⟨p, hp, trapTimerDebug_due hdebug fun hnil => hne ?_⟩
      · rw [hkernel, if_pos hrun, ← trapTimerDebug_table, hdebug, hk]
        rfl
      · rw [hkeep hnil, hlock]
    · cases ht
      exact .timer hlock (by rw [hkernel, if_neg hrun]) rfl fun hne => absurd hlock hne

theorem step_moves (ht : step s a = .ok s') : Moves s s' a := by
  cases a with
  | kernel a =>
    simp only [step] at ht
    split_ifs at ht
    obtain ⟨k, hk, rfl⟩ := bind_ok ht
    exact .kernel hk rfl rfl rfl
  | timer c => exact timer_moves ht
  | cprintf c =>
    simp only [step] at ht
    split at ht
    · obtain ⟨hlock, rfl⟩ := ok_of_ite ht
      exact .cprintf hlock (printed_k s c _) (by rw [printed_consLock, hlock])
    · cases ht
  | consoleintr c cs =>
    obtain ⟨⟨-, hlock⟩, rfl⟩ := ok_of_ite ht
    exact .consoleintr hlock (intr_k s c cs) (intr_ptableLock s c cs)
  | wakeup c =>
    simp only [step] at ht
    split at ht
    · split_ifs at ht with hlock
      obtain ⟨k, hk, rfl⟩ := bind_ok ht
      exact .wakeup hlock (by rw [intr_k]; exact hk) (by rw [intr_ptableLock]; exact hlock)
    · cases ht
  | consoleread c m =>
    simp only [step] at ht
    split at ht
    · rename_i p _
      obtain ⟨⟨-, hlock, -⟩, rfl⟩ := ok_of_ite ht
      exact .consoleread hlock (read_k s c p _) (read_ptableLock s c p _)
    · cases ht
  | sleep c =>
    simp only [step] at ht
    split at ht
    · split_ifs at ht with hlock
      obtain ⟨k, hk, rfl⟩ := bind_ok ht
      exact .sleep hlock hk hlock
    · cases ht
  | resume c =>
    simp only [step] at ht
    split at ht
    · rename_i p _
      split at ht
      · obtain ⟨⟨-, hlock⟩, rfl⟩ := ok_of_ite ht
        exact .resume hlock (read_k s c p _) (read_ptableLock s c p _)
      · cases ht
    · cases ht

theorem CRun.kernel (hr : CRun h s) : Reachable s.k := by
  refine hr.induct (I := fun s => Reachable s.k) ⟨[], .start⟩ fun s a s' ⟨hk, hrun⟩ ht => ?_
  cases step_moves ht with
  | kernel hs => exact ⟨_, hrun.next hs⟩
  | timer _ hs => exact ⟨_, hrun.next hs⟩
  | wakeup _ hs => exact ⟨_, hrun.next hs⟩
  | sleep _ hs => exact ⟨_, hrun.next hs⟩
  | cprintf _ heq => exact heq ▸ ⟨hk, hrun⟩
  | consoleintr _ heq => exact heq ▸ ⟨hk, hrun⟩
  | consoleread _ heq => exact heq ▸ ⟨hk, hrun⟩
  | resume _ heq => exact heq ▸ ⟨hk, hrun⟩

/-! ## The two locks -/

theorem Releases.step (hC : Releases s a) (ht : Console.step s a = .ok s') (hp : s'.ptableLock = s.ptableLock) :
    s'.ptableLock = none ∨ s'.consLock = none := by
  by_cases hnone : s'.consLock = none
  · exact .inr hnone
  · exact .inl (hp.trans (hC s' ht hnone))

theorem Apart.step (hone : s.ptableLock = none ∨ s.consLock = none) (hC : Apart s a) (ht : step s a = .ok s') :
    s'.ptableLock = none ∨ s'.consLock = none := by
  cases step_moves ht with
  | kernel _ _ hp hc =>
    rw [hp, hc]
    exact hone
  | timer _ _ hc hdue =>
    by_cases hnone : s'.ptableLock = none
    · exact .inl hnone
    · obtain ⟨p, hp, hd⟩ := hdue hnone
      exact .inr (hc.trans (hC p hp hd))
  | cprintf _ _ hc => exact .inr hc
  | consoleintr _ _ hp => exact Releases.step hC ht hp
  | wakeup _ _ hp => exact .inl hp
  | consoleread _ _ hp => exact Releases.step hC ht hp
  | sleep _ _ hp => exact .inl hp
  | resume _ _ hp => exact Releases.step hC ht hp

theorem Deadlock.step (hd : Deadlock s) (ht : step s a = .ok s') : Deadlock s' := by
  obtain ⟨c, d, hne, hp, hcwants, hc, hdwants⟩ := hd
  cases step_moves ht with
  | kernel _ hpc hp' hc' => exact ⟨c, d, hne, hp' ▸ hp, hpc ▸ hcwants, hc' ▸ hc, hpc ▸ hdwants⟩
  | timer hlock => exact absurd (hlock.symm.trans hp) nofun
  | cprintf hlock => exact absurd (hlock.symm.trans hc) nofun
  | consoleintr hlock => exact absurd (hlock.symm.trans hc) nofun
  | wakeup hlock => exact absurd (hlock.symm.trans hp) nofun
  | consoleread hlock => exact absurd (hlock.symm.trans hc) nofun
  | sleep hlock => exact absurd (hlock.symm.trans hp) nofun
  | resume hlock => exact absurd (hlock.symm.trans hc) nofun

end Xv6Mlfq.Console
