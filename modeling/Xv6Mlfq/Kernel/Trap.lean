import Xv6Mlfq.Kernel.System

/-!
# Between user space and the kernel (trap.c, trapasm.S)

Where each process is between two steps of the kernel: in user space, in one of the places of `trap` around `syscall`,
or in the handler of an interrupt that found it in one of these. A step of this machine is one such place, and carries
at most one step of the kernel (`TAct.act`). The gate of system calls leaves interrupts enabled (`SETGATE` with
`istrap` 1 in `tvinit`) and the others do not, so an interrupt can arrive wherever the process is except in a handler.
-/

namespace Xv6Mlfq

open Lib

inductive Mode where
  | user
  /-- In the system call case of `trap`, before its first test of `killed`. -/
  | enter
  /-- In `syscall`. -/
  | syscall
  /-- Before the second test of `killed`. -/
  | leave
  /-- After it, or in `forkret`: on the way to the `iret` of `trapret`. -/
  | ret
  /-- In `exit`. -/
  | exiting
  deriving DecidableEq, Repr

/-- Where a process is. The handler of an interrupt remembers where the interrupt arrived. -/
inductive Ctl where
  | run (m : Mode)
  /-- A timer interrupt, before `wakeup(&ticks)` (CPU 0 only). -/
  | ticked (m : Mode)
  /-- A timer interrupt, before the section of `ptable.lock`. -/
  | counting (m : Mode)
  /-- After the `switch` of `trap`; whether it was a timer interrupt. -/
  | handled (m : Mode) (timer : Bool)
  /-- After the first test of `killed` that follows. -/
  | tested (m : Mode) (timer : Bool)
  /-- After `yield`. -/
  | yielded (m : Mode)
  deriving DecidableEq, Repr

structure Machine (n : Nat) where
  k : Kernel n
  ctl : PIdx → Ctl

/-- One step. The argument `c` is the CPU that takes it. -/
inductive TAct (n : Nat) where
  /-- A part of `userinit`, or an idle CPU: its scheduler, or a timer interrupt there. -/
  | kernel (a : Act n)
  /-- A user instruction. -/
  | instr (c : Fin n)
  /-- `int T_SYSCALL`. -/
  | int (c : Fin n)
  | first (c : Fin n)
  /-- A section of a system call, or of `exit`. -/
  | sys (c : Fin n) (a : Act n)
  /-- `sys_exit`. -/
  | sysExit (c : Fin n)
  | sysDone (c : Fin n)
  | second (c : Fin n)
  | iret (c : Fin n)
  /-- A timer interrupt arrives. -/
  | timer (c : Fin n)
  | wakeTicks (c : Fin n)
  | count (c : Fin n)
  /-- Another interrupt arrives, and wakes somebody up. -/
  | device (c : Fin n) (addr : Nat)
  /-- An unexpected trap in user space. -/
  | fault (c : Fin n)
  | test (c : Fin n)
  | yield (c : Fin n)
  | retest (c : Fin n)
  | exit (c : Fin n)
  deriving DecidableEq, Repr

variable {n : Nat}

def ticksChan : Nat := 0

/-- The steps of the kernel that do not belong to a process. -/
def Act.idle (k : Kernel n) : Act n → Bool
  | .userinitAlloc => true
  | .userinitKalloc _ => true
  | .userinitSetupkvm _ => true
  | .userinitEnqueue => true
  | .scheduler c => k.cpus c = none
  | .timer c => k.cpus c = none
  | .tick => true
  | .wakeup _ => true
  | _ => false

/-- The sections that system calls consist of, on CPU `c`. -/
def Act.ofSyscall (c : Fin n) : Act n → Bool
  | .forkAlloc c' => c' = c
  | .forkKalloc c' _ => c' = c
  | .forkCopyuvm c' _ => c' = c
  | .forkEnqueue c' => c' = c
  | .wait c' => c' = c
  | .sleep c' _ => c' = c
  | .wakeup _ => true
  | .kill c' _ => c' = c
  | .setProcInfo c' _ => c' = c
  | _ => false

/-- The sections of `exit` before its last one: closing files may sleep and wake others up. -/
def Act.ofExit (c : Fin n) : Act n → Bool
  | .sleep c' _ => c' = c
  | .wakeup _ => true
  | _ => false

/-- The new process whose first context is set up in a step. -/
def Act.starts (k : Kernel n) : Act n → Option PIdx
  | .userinitEnqueue => k.boot.np
  | .forkEnqueue c => (k.cpus c).bind fun p => (k.ptable.proc p).fork.np
  | _ => none

namespace Machine

def goto (m : Machine n) (p : PIdx) (x : Ctl) : Machine n := { m with ctl := Function.update m.ctl p x }

/-- A step of the kernel. A new process starts in `forkret`. -/
def kstep (m : Machine n) (a : Act n) : Except Stop (Machine n) := do
  let k ← step m.k a
  match a.starts m.k with
  | some p => return goto { m with k := k } p (.run .ret)
  | none => return { m with k := k }

/-- The process on CPU `c`, if it is at a place that `f` knows. -/
def onProc (m : Machine n) (c : Fin n) (f : PIdx → Ctl → Except Stop (Machine n)) : Except Stop (Machine n) :=
  match m.k.cpus c with
  | some p => f p (m.ctl p)
  | none => .error .notEnabled

def killed (m : Machine n) (p : PIdx) : Bool := (m.k.ptable.proc p).killed

def yields (m : Machine n) (p : PIdx) : Bool :=
  match m.ctl p with
  | .tested _ timer => timer && (m.k.ptable.proc p).state = .running
  | _ => false

end Machine

open Machine

def tstep (m : Machine n) : TAct n → Except Stop (Machine n)
  | .kernel a => if a.idle m.k then m.kstep a else .error .notEnabled
  | .instr c => m.onProc c fun _ x =>
    match x with
    | .run .user => .ok m
    | _ => .error .notEnabled
  | .int c => m.onProc c fun p x =>
    match x with
    | .run .user => .ok (m.goto p (.run .enter))
    | _ => .error .notEnabled
  | .first c => m.onProc c fun p x =>
    match x with
    | .run .enter => .ok (m.goto p (.run (if m.killed p then .exiting else .syscall)))
    | _ => .error .notEnabled
  | .sys c a => m.onProc c fun _ x =>
    match x with
    | .run .syscall => if a.ofSyscall c then m.kstep a else .error .notEnabled
    | .run .exiting => if a.ofExit c then m.kstep a else .error .notEnabled
    | _ => .error .notEnabled
  | .sysExit c => m.onProc c fun p x =>
    match x with
    | .run .syscall =>
      if (m.k.ptable.proc p).fork = .none then .ok (m.goto p (.run .exiting)) else .error .notEnabled
    | _ => .error .notEnabled
  | .sysDone c => m.onProc c fun p x =>
    match x with
    | .run .syscall =>
      if (m.k.ptable.proc p).fork = .none then .ok (m.goto p (.run .leave)) else .error .notEnabled
    | _ => .error .notEnabled
  | .second c => m.onProc c fun p x =>
    match x with
    | .run .leave => .ok (m.goto p (.run (if m.killed p then .exiting else .ret)))
    | _ => .error .notEnabled
  | .iret c => m.onProc c fun p x =>
    match x with
    | .run .ret => .ok (m.goto p (.run .user))
    | _ => .error .notEnabled
  | .timer c => m.onProc c fun p x =>
    match x with
    | .run w =>
      if c.val = 0 then do
        let m ← m.kstep .tick
        return m.goto p (.ticked w)
      else .ok (m.goto p (.counting w))
    | _ => .error .notEnabled
  | .wakeTicks c => m.onProc c fun p x =>
    match x with
    | .ticked w => do
      let m ← m.kstep (.wakeup ticksChan)
      return m.goto p (.counting w)
    | _ => .error .notEnabled
  | .count c => m.onProc c fun p x =>
    match x with
    | .counting w => do
      let m ← m.kstep (.timer c)
      return m.goto p (.handled w true)
    | _ => .error .notEnabled
  | .device c addr => m.onProc c fun p x =>
    match x with
    | .run w => do
      let m ← m.kstep (.wakeup addr)
      return m.goto p (.handled w false)
    | _ => .error .notEnabled
  | .fault c => m.onProc c fun p x =>
    match x with
    | .run .user => do
      let m ← m.kstep (.trapKill c)
      return m.goto p (.handled .user false)
    | _ => .error .notEnabled
  | .test c => m.onProc c fun p x =>
    match x with
    | .handled w timer =>
      .ok (m.goto p (if m.killed p ∧ w = .user then .run .exiting else .tested w timer))
    | _ => .error .notEnabled
  | .yield c => m.onProc c fun p x =>
    match x with
    | .tested w _ =>
      if m.yields p then do
        let m ← m.kstep (.yield c)
        return m.goto p (.yielded w)
      else .ok (m.goto p (.yielded w))
    | _ => .error .notEnabled
  | .retest c => m.onProc c fun p x =>
    match x with
    | .yielded w => .ok (m.goto p (if m.killed p ∧ w = .user then .run .exiting else .run w))
    | _ => .error .notEnabled
  | .exit c => m.onProc c fun _ x =>
    match x with
    | .run .exiting => m.kstep (.exit c)
    | _ => .error .notEnabled

def tboot (n : Nat) : Machine n := ⟨boot n, fun _ => .run .ret⟩

/-- A step of a run: the state it is taken in, and the step. -/
abbrev TEvent (n : Nat) : Type := Machine n × TAct n

/-- `TRun h m`: the run with history `h` (latest step first) reaches `m`. -/
abbrev TRun (h : List (TEvent n)) (m : Machine n) : Prop := Run tstep (tboot n) h m

/-- The step of the kernel in a step of the machine. -/
def TAct.act (m : Machine n) : TAct n → Option (Act n)
  | .kernel a => some a
  | .sys _ a => some a
  | .timer c => if c.val = 0 then some .tick else none
  | .wakeTicks _ => some (.wakeup ticksChan)
  | .count c => some (.timer c)
  | .device _ addr => some (.wakeup addr)
  | .fault c => some (.trapKill c)
  | .yield c => if (m.k.cpus c).any m.yields then some (.yield c) else none
  | .exit c => some (.exit c)
  | _ => none

/-- The history of the kernel in a run of the machine. -/
def kernelHist (h : List (TEvent n)) : List (Event n) := h.filterMap fun e => (e.2.act e.1).map fun a => (e.1.k, a)

/-! ## What a step does -/

/-- What the step `a` makes of the place of process `q`. -/
inductive Goes (m : Machine n) (a : TAct n) (q : PIdx) : Ctl → Ctl → Prop
  | stay {x : Ctl} : Goes m a q x x
  | start {x : Ctl} {b : Act n} (hb : a.act m = some b) (hq : b.starts m.k = some q) : Goes m a q x (.run .ret)
  | int : Goes m a q (.run .user) (.run .enter)
  | first : Goes m a q (.run .enter) (.run (if m.killed q then .exiting else .syscall))
  | sysExit : Goes m a q (.run .syscall) (.run .exiting)
  | sysDone : Goes m a q (.run .syscall) (.run .leave)
  | second : Goes m a q (.run .leave) (.run (if m.killed q then .exiting else .ret))
  | iret : Goes m a q (.run .ret) (.run .user)
  | tick {w : Mode} : Goes m a q (.run w) (.ticked w)
  | timer {w : Mode} : Goes m a q (.run w) (.counting w)
  | wakeTicks {w : Mode} : Goes m a q (.ticked w) (.counting w)
  | count {w : Mode} {c : Fin n} (ha : a = .count c) (hq : m.k.cpus c = some q) :
      Goes m a q (.counting w) (.handled w true)
  | device {w : Mode} : Goes m a q (.run w) (.handled w false)
  | test {w : Mode} {t : Bool} :
      Goes m a q (.handled w t) (if m.killed q ∧ w = .user then .run .exiting else .tested w t)
  | yield {w : Mode} {t : Bool} : Goes m a q (.tested w t) (.yielded w)
  | retest {w : Mode} : Goes m a q (.yielded w) (if m.killed q ∧ w = .user then .run .exiting else .run w)

/-- The step of the kernel in a step of the machine, if there is one. -/
def KernelStep (m : Machine n) (a : TAct n) (k' : Kernel n) : Prop :=
  (a.act m = none ∧ k' = m.k) ∨ ∃ b, a.act m = some b ∧ step m.k b = .ok k'

section spec

variable {m m' m₁ : Machine n} {a : TAct n} {b : Act n} {c : Fin n} {p : PIdx} {x y : Ctl}

theorem onProc_ok {f : PIdx → Ctl → Except Stop (Machine n)} (h : m.onProc c f = .ok m') :
    ∃ p, m.k.cpus c = some p ∧ f p (m.ctl p) = .ok m' := by
  unfold Machine.onProc at h
  cases hp : m.k.cpus c with
  | none =>
    rw [hp] at h
    cases h
  | some p =>
    rw [hp] at h
    exact ⟨p, rfl, h⟩

theorem kstep_ok (h : m.kstep b = .ok m') : step m.k b = .ok m'.k ∧
    ∀ q, m'.ctl q = if b.starts m.k = some q then .run .ret else m.ctl q := by
  unfold Machine.kstep at h
  cases hk : step m.k b with
  | error e =>
    rw [hk] at h
    cases h
  | ok k' =>
    rw [hk] at h
    cases hs : b.starts m.k with
    | none =>
      simp only [hs] at h
      cases h
      exact ⟨rfl, fun q => by simp⟩
    | some np =>
      simp only [hs] at h
      cases h
      refine ⟨rfl, fun q => ?_⟩
      show Function.update m.ctl np (.run .ret) q = _
      rw [Function.update_apply]
      simp [eq_comm]

theorem goes_goto (ha : a.act m = none) (hx : m.ctl p = x) (hg : Goes m a p x y) :
    KernelStep m a (m.goto p y).k ∧ ∀ q, Goes m a q (m.ctl q) ((m.goto p y).ctl q) := by
  refine ⟨.inl ⟨ha, rfl⟩, fun q => ?_⟩
  show Goes m a q (m.ctl q) (Function.update m.ctl p y q)
  rw [Function.update_apply]
  split_ifs with hq
  · rw [hq, hx]
    exact hg
  · exact .stay

theorem goes_kstep (ha : a.act m = some b) (h : m.kstep b = .ok m') :
    KernelStep m a m'.k ∧ ∀ q, Goes m a q (m.ctl q) (m'.ctl q) := by
  obtain ⟨hstep, hctl⟩ := kstep_ok h
  refine ⟨.inr ⟨b, ha, hstep⟩, fun q => ?_⟩
  rw [hctl]
  split_ifs with hq
  · exact .start ha hq
  · exact .stay

theorem kstep_goto_ok (hb : b.starts m.k = none)
    (h : (do let m₁ ← m.kstep b; return m₁.goto p y : Except Stop (Machine n)) = .ok m') :
    step m.k b = .ok m'.k ∧ ∀ q, m'.ctl q = if q = p then y else m.ctl q := by
  cases hk : m.kstep b with
  | error e =>
    rw [hk] at h
    cases h
  | ok m₁ =>
    rw [hk] at h
    cases h
    obtain ⟨hstep, hctl⟩ := kstep_ok hk
    refine ⟨hstep, fun q => ?_⟩
    show Function.update m₁.ctl p y q = _
    rw [Function.update_apply, hctl, hb, if_neg (show ¬ none = some q from nofun)]

theorem goes_kstep_goto (ha : a.act m = some b) (hb : b.starts m.k = none)
    (h : (do let m₁ ← m.kstep b; return m₁.goto p y : Except Stop (Machine n)) = .ok m') (hx : m.ctl p = x)
    (hg : Goes m a p x y) : KernelStep m a m'.k ∧ ∀ q, Goes m a q (m.ctl q) (m'.ctl q) := by
  obtain ⟨hstep, hctl⟩ := kstep_goto_ok hb h
  refine ⟨.inr ⟨b, ha, hstep⟩, fun q => ?_⟩
  rw [hctl]
  split_ifs with hq
  · rw [hq, hx]
    exact hg
  · exact .stay

theorem count_ok (h : tstep m (.count c) = .ok m') : ∃ p w, m.k.cpus c = some p ∧ m.ctl p = .counting w ∧
    m'.ctl p = .handled w true ∧ step m.k (.timer c) = .ok m'.k := by
  simp only [tstep] at h
  obtain ⟨p, hp, h⟩ := onProc_ok h
  split at h
  · rename_i w hw
    obtain ⟨hstep, hctl⟩ := kstep_goto_ok rfl h
    exact ⟨p, w, hp, hw, by simp [hctl], hstep⟩
  · cases h

/-- **What a step of the machine does**: at most one step of the kernel, and the places of the processes. -/
theorem tstep_spec (h : tstep m a = .ok m') :
    KernelStep m a m'.k ∧ ∀ q, Goes m a q (m.ctl q) (m'.ctl q) := by
  cases a with
  | kernel b =>
    simp only [tstep] at h
    split_ifs at h
    exact goes_kstep rfl h
  | instr c =>
    simp only [tstep] at h
    obtain ⟨p, hp, h⟩ := onProc_ok h
    split at h
    · cases h
      exact ⟨.inl ⟨rfl, rfl⟩, fun q => .stay⟩
    · cases h
  | int c =>
    simp only [tstep] at h
    obtain ⟨p, hp, h⟩ := onProc_ok h
    split at h
    · cases h
      exact goes_goto rfl ‹_› .int
    · cases h
  | first c =>
    simp only [tstep] at h
    obtain ⟨p, hp, h⟩ := onProc_ok h
    split at h
    · cases h
      exact goes_goto rfl ‹_› .first
    · cases h
  | sys c b =>
    simp only [tstep] at h
    obtain ⟨p, hp, h⟩ := onProc_ok h
    split at h
    · split_ifs at h
      exact goes_kstep rfl h
    · split_ifs at h
      exact goes_kstep rfl h
    · cases h
  | sysExit c =>
    simp only [tstep] at h
    obtain ⟨p, hp, h⟩ := onProc_ok h
    split at h
    · split_ifs at h
      cases h
      exact goes_goto rfl ‹_› .sysExit
    · cases h
  | sysDone c =>
    simp only [tstep] at h
    obtain ⟨p, hp, h⟩ := onProc_ok h
    split at h
    · split_ifs at h
      cases h
      exact goes_goto rfl ‹_› .sysDone
    · cases h
  | second c =>
    simp only [tstep] at h
    obtain ⟨p, hp, h⟩ := onProc_ok h
    split at h
    · cases h
      exact goes_goto rfl ‹_› .second
    · cases h
  | iret c =>
    simp only [tstep] at h
    obtain ⟨p, hp, h⟩ := onProc_ok h
    split at h
    · cases h
      exact goes_goto rfl ‹_› .iret
    · cases h
  | timer c =>
    simp only [tstep] at h
    obtain ⟨p, hp, h⟩ := onProc_ok h
    split at h
    · split_ifs at h with hc
      · exact goes_kstep_goto (if_pos hc) rfl h ‹_› .tick
      · cases h
        exact goes_goto (if_neg hc) ‹_› .timer
    · cases h
  | wakeTicks c =>
    simp only [tstep] at h
    obtain ⟨p, hp, h⟩ := onProc_ok h
    split at h
    · exact goes_kstep_goto rfl rfl h ‹_› .wakeTicks
    · cases h
  | count c =>
    simp only [tstep] at h
    obtain ⟨p, hp, h⟩ := onProc_ok h
    split at h
    · exact goes_kstep_goto rfl rfl h ‹_› (.count rfl hp)
    · cases h
  | device c addr =>
    simp only [tstep] at h
    obtain ⟨p, hp, h⟩ := onProc_ok h
    split at h
    · exact goes_kstep_goto rfl rfl h ‹_› .device
    · cases h
  | fault c =>
    simp only [tstep] at h
    obtain ⟨p, hp, h⟩ := onProc_ok h
    split at h
    · exact goes_kstep_goto rfl rfl h ‹_› .device
    · cases h
  | test c =>
    simp only [tstep] at h
    obtain ⟨p, hp, h⟩ := onProc_ok h
    split at h
    · cases h
      exact goes_goto rfl ‹_› .test
    · cases h
  | yield c =>
    simp only [tstep] at h
    obtain ⟨p, hp, h⟩ := onProc_ok h
    split at h
    · split_ifs at h with hy
      · exact goes_kstep_goto (by simp [TAct.act, hp, hy]) rfl h ‹_› .yield
      · cases h
        exact goes_goto (by simp [TAct.act, hp, hy]) ‹_› .yield
    · cases h
  | retest c =>
    simp only [tstep] at h
    obtain ⟨p, hp, h⟩ := onProc_ok h
    split at h
    · cases h
      exact goes_goto rfl ‹_› .retest
    · cases h
  | exit c =>
    simp only [tstep] at h
    obtain ⟨p, hp, h⟩ := onProc_ok h
    split at h
    · exact goes_kstep rfl h
    · cases h

theorem TRun.kernel {h : List (TEvent n)} (hr : TRun h m) : KRun (kernelHist h) m.k := by
  induction hr with
  | start => exact .start
  | @next h m m' a hr hs ih =>
    rcases (tstep_spec hs).1 with ⟨ha, hk⟩ | ⟨b, ha, hk⟩
    · have : kernelHist ((m, a) :: h) = kernelHist h := by simp [kernelHist, ha]
      rw [this, hk]
      exact ih
    · have : kernelHist ((m, a) :: h) = (m.k, b) :: kernelHist h := by simp [kernelHist, ha]
      rw [this]
      exact ih.next hk

end spec

end Xv6Mlfq
