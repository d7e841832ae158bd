import Xv6Mlfq.Sched.Change

/-!
# Tick accounting

In one tick every CPU takes one timer interrupt. Each interrupt that finds a process on its CPU passes
over the whole table, whatever the other CPUs run, so the counters of a process that stays in one state
move by the number of passes (`counted_passes`) and not by one (`ran_twice_in_a_tick`). When one CPU is
busy in the tick they move by one, and `total_cpu_time` is the number of ticks the process ran
(`counted_once`).
-/

namespace Xv6Mlfq

open Lib

variable {n : Nat} {k k' k₀ k₁ : Kernel n} {a : Act n} {p q : PIdx} {x y : Proc}
  {h w : List (Event n)} {s : ProcState}

/-! ## Ticks -/

/-- The steps of one tick: `ticks` goes up once and each CPU takes one timer interrupt. -/
def IsTick (w : List (Event n)) : Prop :=
  w.countP (fun e => e.2 = .tick) = 1 ∧ ∀ c, w.countP (fun e => e.2 = .timer c) = 1

def passes (w : List (Event n)) : Nat := w.countP fun e => (interrupted e.1 e.2).isSome

def Stays (p : PIdx) (s : ProcState) (w : List (Event n)) (k₁ : Kernel n) : Prop :=
  (k₁.ptable.proc p).state = s ∧ ∀ e ∈ w, (e.1.ptable.proc p).state = s

/-- The step sets counters of `p` back: `p` calls `set_proc_info`, its quantum is used up, or it is
promoted. -/
def Resets (k : Kernel n) (a : Act n) (p : PIdx) : Prop :=
  (infoCall k a).any (fun r => r.1 = p) ∨
  interrupted k a = some p ∧ Expired (k.ptable.proc p).toSched ∧ (k.ptable.proc p).type = .idle ∨
  interrupted k a ≠ none ∧ Due (k.ptable.proc p).toSched

instance (w : List (Event n)) : Decidable (IsTick w) := inferInstanceAs (Decidable (_ ∧ _))

instance (p : PIdx) (s : ProcState) (w : List (Event n)) (k₁ : Kernel n) :
    Decidable (Stays p s w k₁) := inferInstanceAs (Decidable (_ ∧ _))

instance (k : Kernel n) (a : Act n) (p : PIdx) : Decidable (Resets k a p) :=
  inferInstanceAs (Decidable (_ ∨ _ ∨ _))

/-- The counter that belongs to the state `s` moves by `d`, and no other. -/
structure Counted (s : ProcState) (d : Int32) (x y : Sched) : Prop where
  cpuBurst : y.cpuBurst = x.cpuBurst + if s = .running then d else 0
  totalCpuTime : y.totalCpuTime = x.totalCpuTime + if s = .running then d else 0
  cpuWait : y.cpuWait = x.cpuWait + if s = .runnable then d else 0
  ioWaitTime : y.ioWaitTime = x.ioWaitTime + if s = .sleeping then d else 0

theorem Counted.refl (s : ProcState) (x : Sched) : Counted s 0 x x := by
  constructor <;> simp

theorem Counted.trans {d e : Int32} {x y z : Sched} (hxy : Counted s d x y) (hyz : Counted s e y z) :
    Counted s (d + e) x z := by
  obtain ⟨h1, h2, h3, h4⟩ := hxy
  obtain ⟨g1, g2, g3, g4⟩ := hyz
  constructor <;> grind

/-! ## One step -/

theorem Pass.totalCpuTime {ticks : UInt32} (hy : Pass ticks p q x y) :
    y.totalCpuTime = x.totalCpuTime + if x.state = .running then 1 else 0 := by
  cases hy with
  | ran hs => simp [ranSlot, hs]
  | quota _ hs => simp [ranSlot, hs]
  | expired _ hs =>
    unfold demoteProcess
    split_ifs <;> simp [ranSlot]
  | waited hs => simp [waitedSlot, hs]
  | promoted hs => simp [promoteSlot, waitedSlot, hs]
  | slept hs => simp [sleptSlot, hs]
  | idle hs =>
    have hrun : x.state ≠ .running := fun h => hs (.inr (.inr h))
    simp [hrun]

theorem Pass.counted {ticks : UInt32} (hy : Pass ticks p q x y) (hlive : x.state.Live)
    (hq : q = p → Expired x.toSched → x.type ≠ .idle) (hd : ¬ Due x.toSched) :
    Counted x.state 1 x.toSched y.toSched := by
  cases hy with
  | ran hs => constructor <;> simp [ranSlot, hs]
  | quota _ hs => constructor <;> simp [ranSlot, hs]
  | expired heq hs he =>
    have htype : (ranSlot x).type ≠ .idle := hq heq he
    rw [demoteProcess_of_exempt htype]
    constructor <;> simp [ranSlot, hs]
  | waited hs => constructor <;> simp [waitedSlot, hs]
  | promoted _ hd' => exact absurd hd' hd
  | slept hs => constructor <;> simp [sleptSlot, hs]
  | idle hs => exact absurd hlive hs

/-- What a step moves the counter of the present state by. -/
def moved (k : Kernel n) (a : Act n) : Int32 := if (interrupted k a).isSome then 1 else 0

theorem moved_of_interrupted (ht : interrupted k a = some q) : moved k a = 1 := by
  simp [moved, ht]

theorem moved_of_quiet (ht : interrupted k a = none) : moved k a = 0 := by
  simp [moved, ht]

theorem Change.totalCpuTime (hc : Change k a p x y) (hlive : x.state.Live) :
    y.totalCpuTime = x.totalCpuTime + if x.state = .running then moved k a else 0 := by
  rcases hc.live_cases hlive with ⟨info, hi, rfl⟩ | ⟨r, ht, hp⟩ | ⟨ht, hk⟩
  · have ht : interrupted k a = none := by
      obtain ⟨c, rfl, _⟩ := infoCall_eq_some.mp hi
      rfl
    simp [setProcInfo, moved_of_quiet ht]
  · rw [moved_of_interrupted ht]
    exact hp.totalCpuTime
  · simp [moved_of_quiet ht, hk.totalCpuTime]

theorem Change.counted (hc : Change k a p x y) (hx : x.toSched = (k.ptable.proc p).toSched)
    (hlive : x.state.Live) (hr : ¬ Resets k a p) :
    Counted x.state (moved k a) x.toSched y.toSched := by
  simp only [Resets, not_or] at hr
  obtain ⟨hinfo, hexpired, hdue⟩ := hr
  rcases hc.live_cases hlive with ⟨info, hi, _⟩ | ⟨r, ht, hp⟩ | ⟨ht, hk⟩
  · simp [hi] at hinfo
  · rw [moved_of_interrupted ht]
    refine hp.counted hlive (fun heq he htype => hexpired ⟨heq ▸ ht, ?_, ?_⟩) fun hd => hdue ⟨?_, ?_⟩
    · exact hx ▸ he
    · rw [← hx]
      exact htype
    · simp [ht]
    · exact hx ▸ hd
  · rw [moved_of_quiet ht]
    constructor <;> simp [hk.cpuBurst, hk.totalCpuTime, hk.cpuWait, hk.ioWaitTime]

/-! ## A tick -/

theorem passes_cons : Int32.ofNat (passes ((k, a) :: w)) = Int32.ofNat (passes w) + moved k a := by
  unfold passes moved
  rw [List.countP_cons]
  split_ifs <;> simp

/-- While a process stays in one state, its `total_cpu_time` moves by the passes if that is `running`,
and not at all otherwise. -/
theorem totalCpuTime_passes (hr : KRun h k₀) (hw : Run step k₀ w k₁) (hs : s.Live)
    (hstay : Stays p s w k₁) :
    (k₁.ptable.proc p).totalCpuTime = (k₀.ptable.proc p).totalCpuTime +
      if s = .running then Int32.ofNat (passes w) else 0 := by
  induction hw with
  | start => simp [passes]
  | @next w k k' a hw hstep ih =>
    have hk : (k.ptable.proc p).state = s := hstay.2 _ List.mem_cons_self
    have ih := ih ⟨hk, fun e he => hstay.2 e (List.mem_cons_of_mem _ he)⟩
    obtain ⟨x, y, hx, hy, hc⟩ := KRun.change (hr.append hw) hstep p
    have hxs : x.state = s := by rw [hx]; exact hk
    have htotal := hc.totalCpuTime (hxs ▸ hs)
    rw [← hy, htotal, hx, ih, passes_cons, hk]
    split_ifs
    · rw [Int32.add_assoc]
    · simp

/-- While a process stays in one state and none of its counters is set back, the counter of that state
moves by the passes, and no other. -/
theorem counted_passes (hr : KRun h k₀) (hw : Run step k₀ w k₁) (hs : s.Live)
    (hstay : Stays p s w k₁) (hno : ∀ e ∈ w, ¬ Resets e.1 e.2 p) :
    Counted s (Int32.ofNat (passes w)) (k₀.ptable.proc p).toSched (k₁.ptable.proc p).toSched := by
  induction hw with
  | start => exact .refl s _
  | @next w k k' a hw hstep ih =>
    have hk : (k.ptable.proc p).state = s := hstay.2 _ List.mem_cons_self
    have ih := ih ⟨hk, fun e he => hstay.2 e (List.mem_cons_of_mem _ he)⟩
      fun e he => hno e (List.mem_cons_of_mem _ he)
    obtain ⟨x, y, hx, hy, hc⟩ := KRun.change (hr.append hw) hstep p
    have hxs : x.state = s := by rw [hx]; exact hk
    have hone := hc.counted hx (hxs ▸ hs) (hno _ List.mem_cons_self)
    rw [hxs, hx, hy] at hone
    rw [passes_cons]
    exact ih.trans hone

/-! ## Whole runs -/

def passedThisTick : List (Event n) → Bool
  | [] => false
  | (k, a) :: h => a ≠ .tick && ((interrupted k a).isSome || passedThisTick h)

def OnePass : List (Event n) → Prop
  | [] => True
  | (k, a) :: h => (interrupted k a ≠ none → passedThisTick h = false) ∧ OnePass h

/-- The present tick already found `p` running. -/
def ranThisTick (p : PIdx) : List (Event n) → Bool
  | [] => false
  | (k, a) :: h => a ≠ .tick && created k a ≠ some p && (RunsAt k a p || ranThisTick p h)

/-- The ticks since the creation of `p` that found it running, each counted once. -/
def ticksRunning (p : PIdx) : List (Event n) → Nat
  | [] => 0
  | (k, a) :: h =>
    if created k a = some p then 0
    else if RunsAt k a p ∧ ranThisTick p h = false then ticksRunning p h + 1
    else ticksRunning p h

theorem ranThisTick_of_not_passed (hp : passedThisTick h = false) : ranThisTick p h = false := by
  induction h with
  | nil => rfl
  | cons e h ih =>
    obtain ⟨k, a⟩ := e
    by_cases ha : a = .tick
    · simp [ranThisTick, ha]
    · simp only [passedThisTick, ha, ne_eq, not_false_eq_true, decide_true, Bool.true_and,
        Bool.or_eq_false_iff, Option.isSome_eq_false_iff, Option.isNone_iff_eq_none] at hp
      simp [ranThisTick, RunsAt, hp.1, ih hp.2]

/-- The passes since the creation of `p` that found it running. -/
def interruptsRunning (p : PIdx) : List (Event n) → Nat
  | [] => 0
  | (k, a) :: h =>
    if created k a = some p then 0
    else if RunsAt k a p then interruptsRunning p h + 1
    else interruptsRunning p h

theorem interruptsRunning_of_created (hc : created k a = some p) :
    interruptsRunning p ((k, a) :: h) = 0 := by
  simp [interruptsRunning, hc]

theorem interruptsRunning_of_quiet (hc : created k a ≠ some p) (ht : interrupted k a = none) :
    interruptsRunning p ((k, a) :: h) = interruptsRunning p h := by
  simp [interruptsRunning, RunsAt, hc, ht]

theorem interruptsRunning_of_interrupted (ht : interrupted k a = some q) :
    interruptsRunning p ((k, a) :: h) =
      interruptsRunning p h + if (k.ptable.proc p).state = .running then 1 else 0 := by
  by_cases hs : (k.ptable.proc p).state = .running
  · simp [interruptsRunning, RunsAt, created_of_interrupted ht, ht, hs]
  · simp [interruptsRunning, RunsAt, created_of_interrupted ht, hs]

theorem ticksRunning_eq (hone : OnePass h) : ticksRunning p h = interruptsRunning p h := by
  induction h with
  | nil => rfl
  | cons e h ih =>
    obtain ⟨k, a⟩ := e
    have hran : RunsAt k a p → ranThisTick p h = false :=
      fun hr => ranThisTick_of_not_passed (hone.1 hr.1)
    by_cases hr : RunsAt k a p
    · simp [ticksRunning, interruptsRunning, hr, hran hr, ih hone.2]
    · simp [ticksRunning, interruptsRunning, hr, ih hone.2]

theorem KRun.embryo_totalCpuTime (hr : KRun h k) (p : PIdx)
    (hs : (k.ptable.proc p).state = .embryo) : (k.ptable.proc p).totalCpuTime = 0 := by
  induction hr with
  | start => rfl
  | next hr hstep ih =>
    obtain ⟨x, y, hx, hy, hc⟩ := KRun.change hr hstep p
    rw [← hy] at hs ⊢
    rw [← hx] at ih
    cases hc with
    | alloc => rfl
    | startInit => cases hs
    | startChild =>
      unfold startSlot forkSlot
      split_ifs <;> rfl
    | setInfo _ hs' =>
      have hrun : x.state = .embryo := hs
      simp [hs'] at hrun
    | timer _ hp =>
      rw [hp.state] at hs
      rw [hp.totalCpuTime, ih hs]
      simp [hs]
    | keep _ _ _ hk => rw [hk.totalCpuTime, ih (hk.notEmbryo hs)]

theorem KRun.totalCpuTime_interrupts (hr : KRun h k) (p : PIdx) :
    (k.ptable.proc p).totalCpuTime = Int32.ofNat (interruptsRunning p h) := by
  induction hr with
  | start => rfl
  | @next h k k' a hr hstep ih =>
    obtain ⟨x, y, hx, hy, hc⟩ := KRun.change hr hstep p
    rw [← hy]
    rw [← hx] at ih
    cases hc with
    | alloc hc => rw [interruptsRunning_of_created hc]; rfl
    | startInit ha hb hs =>
      have hzero := KRun.embryo_totalCpuTime hr p (by rw [← hx]; exact hs)
      rw [interruptsRunning_of_created (created_startInit ha hb)]
      show x.totalCpuTime = 0
      rw [hx, hzero]
    | startChild ha hp hf =>
      rw [interruptsRunning_of_created (created_startChild ha hp hf)]
      unfold startSlot forkSlot
      split_ifs <;> rfl
    | setInfo hi =>
      obtain ⟨c, rfl, _⟩ := infoCall_eq_some.mp hi
      rw [interruptsRunning_of_quiet (by simp [created]) rfl]
      exact ih
    | timer ht hp =>
      rw [hp.totalCpuTime, ih, interruptsRunning_of_interrupted ht, hx]
      split_ifs <;> simp
    | keep hc _ ht hk =>
      rw [hk.totalCpuTime, ih, interruptsRunning_of_quiet hc ht]

/-- While no tick has two passes, `total_cpu_time` is the number of ticks the process ran. -/
theorem KRun.totalCpuTime (hr : KRun h k) (hone : OnePass h) (p : PIdx) :
    (k.ptable.proc p).totalCpuTime = Int32.ofNat (ticksRunning p h) := by
  rw [ticksRunning_eq hone]
  exact hr.totalCpuTime_interrupts p

/-- **Tick accounting with one pass a tick.** A process that stays in one state over the tick has the
counter of that state moved by one, and no other, unless one is set back; `total_cpu_time` never is. Over
a run without two passes in a tick, `total_cpu_time` is the number of ticks the process ran. -/
theorem counted_once (hr : KRun h k₀) :
    (∀ w k₁ p s, Run step k₀ w k₁ → IsTick w → passes w = 1 → s.Live → Stays p s w k₁ →
      (k₁.ptable.proc p).totalCpuTime =
        (k₀.ptable.proc p).totalCpuTime + (if s = .running then 1 else 0) ∧
      ((∀ e ∈ w, ¬ Resets e.1 e.2 p) →
        Counted s 1 (k₀.ptable.proc p).toSched (k₁.ptable.proc p).toSched)) ∧
    (OnePass h → ∀ p, (k₀.ptable.proc p).totalCpuTime = Int32.ofNat (ticksRunning p h)) := by
  refine ⟨fun w k₁ p s hw _ hone hs hstay => ⟨?_, fun hno => ?_⟩, fun hone p => hr.totalCpuTime hone p⟩
  · have htotal := totalCpuTime_passes hr hw hs hstay
    rw [hone] at htotal
    exact htotal
  · have hcounted := counted_passes hr hw hs hstay hno
    rw [hone] at hcounted
    exact hcounted

/-- One tick of two CPUs, of which the second is idle. -/
theorem counted_once_idle : ∃ (h w : List (Event 2)) (k₀ k₁ : Kernel 2), KRun h k₀ ∧
    Run step k₀ w k₁ ∧ (IsTick w ∧ passes w = 1 ∧ Stays 0 .running w k₁) ∧
    Counted .running 1 (k₀.ptable.proc 0).toSched (k₁.ptable.proc 0).toSched := by
  obtain ⟨h, k₀, hr, hw⟩ := exists_kRun (n := 2)
    (P := fun _ k => Sat (exec step [] k [.tick, .timer 0, .timer 1])
      (fun r => (IsTick r.1 ∧ passes r.1 = 1 ∧ Stays 0 .running r.1 r.2) ∧
        ∀ e ∈ r.1, ¬ Resets e.1 e.2 0) (fun _ => False))
    (List.flatten [userinitActs 2, [.scheduler 0]]) (by decide +kernel)
  obtain ⟨w, k₁, hw, ⟨htick, hone, hstay⟩, hno⟩ := exists_run_of_exec _ _
    (P := fun w k₁ => (IsTick w ∧ passes w = 1 ∧ Stays 0 .running w k₁) ∧
      ∀ e ∈ w, ¬ Resets e.1 e.2 0) [.tick, .timer 0, .timer 1] hw
  exact ⟨h, w, k₀, k₁, hr, hw, ⟨htick, hone, hstay⟩,
    ((counted_once hr).1 w k₁ 0 .running hw htick hone (.inr (.inr rfl)) hstay).2 hno⟩

/-- **Two busy CPUs count double.** Process 1 stays on CPU 1 over one tick, while CPU 0 runs init, and
its counters move by two. -/
theorem ran_twice_in_a_tick : ∃ (h w : List (Event 2)) (k₀ k₁ : Kernel 2), KRun h k₀ ∧
    Run step k₀ w k₁ ∧ (IsTick w ∧ Stays 1 .running w k₁) ∧
    (k₀.ptable.proc 1).totalCpuTime = 0 ∧ (k₁.ptable.proc 1).totalCpuTime = 2 ∧
    (k₀.ptable.proc 1).cpuBurst = 0 ∧ (k₁.ptable.proc 1).cpuBurst = 2 := by
  obtain ⟨h, k₀, hr, h₀, hw⟩ := exists_kRun (n := 2)
    (P := fun _ k => ((k.ptable.proc 1).totalCpuTime = 0 ∧ (k.ptable.proc 1).cpuBurst = 0) ∧
      Sat (exec step [] k [.tick, .timer 0, .timer 1])
        (fun r => (IsTick r.1 ∧ Stays 1 .running r.1 r.2) ∧
          (r.2.ptable.proc 1).totalCpuTime = 2 ∧ (r.2.ptable.proc 1).cpuBurst = 2) (fun _ => False))
    (List.flatten [userinitActs 2, [.scheduler 0], forkActs 0, [.scheduler 1]]) (by decide +kernel)
  obtain ⟨w, k₁, hw, htick, h₁⟩ := exists_run_of_exec _ _
    (P := fun w k₁ => (IsTick w ∧ Stays 1 .running w k₁) ∧
      (k₁.ptable.proc 1).totalCpuTime = 2 ∧ (k₁.ptable.proc 1).cpuBurst = 2)
    [.tick, .timer 0, .timer 1] hw
  exact ⟨h, w, k₀, k₁, hr, hw, htick, h₀.1, h₁.1, h₀.2, h₁.2⟩

end Xv6Mlfq
