import Xv6Mlfq.Sched.Ownership

/-!
# What a timer interrupt does to one process

`Pass` takes the timer interrupt of a CPU apart: what it does to a process depends on the state of the
process, and for the interrupted process on its quota (`QuotaUsed`) and its quantum (`Expired`), for a
runnable one on its waiting time (`Due`). All of these are read off the process before the interrupt.
The counters of a live process move because its pid is not 0.
-/

namespace Xv6Mlfq

variable {p q : PIdx} {x : Proc} {ticks : UInt32}

/-- The interrupt finds the quota of the process used up. -/
def QuotaUsed (x : Sched) : Prop := x.endTime > 0 ∧ x.totalCpuTime + 1 ≥ x.endTime

/-- The interrupt of the CPU that runs the process finds its quantum used up. -/
def Expired (x : Sched) : Prop :=
  ¬ QuotaUsed x ∧ x.killed = false ∧ ∃ l, levelOf x.qLevel = some l ∧ x.cpuBurst + 1 ≥ timeQuantum l

/-- The aging pass of the interrupt finds the process overdue. -/
def Due (x : Sched) : Prop :=
  x.state = .runnable ∧ x.qLevel ≠ 0 ∧ x.cpuWait + 1 ≥ 250 ∧ x.type = .idle

instance (x : Sched) : Decidable (QuotaUsed x) := inferInstanceAs (Decidable (_ ∧ _))

instance (x : Sched) : Decidable (Expired x) := inferInstanceAs (Decidable (_ ∧ _ ∧ _))

instance (x : Sched) : Decidable (Due x) := inferInstanceAs (Decidable (_ ∧ _ ∧ _ ∧ _))

/-- A running process after `update_all_proc_timers`. -/
def ranSlot (x : Proc) : Proc :=
  { x with cpuBurst := x.cpuBurst + 1, totalCpuTime := x.totalCpuTime + 1 }

/-- A runnable process after `update_all_proc_timers`. -/
def waitedSlot (x : Proc) : Proc := { x with cpuWait := x.cpuWait + 1 }

/-- A sleeping process after `update_all_proc_timers`. -/
def sleptSlot (x : Proc) : Proc := { x with ioWaitTime := x.ioWaitTime + 1 }

/-- What the timer interrupt of a CPU that runs `p` makes of process `q`. -/
inductive Pass (ticks : UInt32) (p q : PIdx) (x : Proc) : Proc → Prop
  | ran (hs : x.state = .running) (hq : q = p → ¬ QuotaUsed x.toSched ∧ ¬ Expired x.toSched) :
      Pass ticks p q x (ranSlot x)
  | quota (hq : q = p) (hs : x.state = .running) (hu : QuotaUsed x.toSched) :
      Pass ticks p q x { ranSlot x with killed := true }
  | expired (hq : q = p) (hs : x.state = .running) (he : Expired x.toSched) :
      Pass ticks p q x (demoteProcess (ranSlot x))
  | waited (hs : x.state = .runnable) (hd : ¬ Due x.toSched) : Pass ticks p q x (waitedSlot x)
  | promoted (hs : x.state = .runnable) (hd : Due x.toSched) :
      Pass ticks p q x (promoteSlot ticks (waitedSlot x))
  | slept (hs : x.state = .sleeping) : Pass ticks p q x (sleptSlot x)
  | idle (hs : ¬ x.state.Live) : Pass ticks p q x x

theorem demoteProcess_of_exempt (htype : x.type ≠ .idle) : demoteProcess x = x := by
  have hexempt : x.type = .init ∨ x.type = .shell := by
    cases ht : x.type <;> simp_all
  rw [demoteProcess, if_pos hexempt]

theorem age_of_ne (hs : x.state ≠ .runnable) : age ticks x = x :=
  if_neg fun ho => hs ho.1

theorem quantumSlot_some {l : Level} (hl : levelOf (ranSlot x).qLevel = some l) :
    quantumSlot (ranSlot x) =
      if x.cpuBurst + 1 ≥ timeQuantum l then demoteProcess (ranSlot x) else ranSlot x := by
  unfold quantumSlot
  rw [hl]
  rfl

theorem quantumSlot_none (hl : levelOf (ranSlot x).qLevel = none) :
    quantumSlot (ranSlot x) = ranSlot x := by
  unfold quantumSlot
  rw [hl]

theorem pass_running (hs : x.state = .running) : Pass ticks p p x (quotaSlot (ranSlot x)) := by
  unfold quotaSlot
  split_ifs with hq hk
  · exact .quota rfl hs hq
  · have hnq : ¬ QuotaUsed x.toSched := hq
    cases hl : levelOf x.qLevel with
    | none =>
      rw [quantumSlot_none hl]
      refine .ran hs fun _ => ⟨hnq, ?_⟩
      rintro ⟨_, _, l, hl', _⟩
      simp [hl] at hl'
    | some l =>
      rw [quantumSlot_some hl]
      split_ifs with hb
      · exact .expired rfl hs ⟨hnq, hk, l, hl, hb⟩
      · refine .ran hs fun _ => ⟨hnq, ?_⟩
        rintro ⟨_, _, l', hl', hb'⟩
        rw [hl] at hl'
        exact hb (Option.some.inj hl' ▸ hb')
  · exact .ran hs fun _ => ⟨hq, fun he => hk he.2.1⟩

theorem pass_runnable (hs : x.state = .runnable) :
    Pass ticks p q x (age ticks (waitedSlot x)) := by
  unfold age
  split_ifs with ho
  · exact .promoted hs ho
  · exact .waited hs ho

/-- **What a timer interrupt does to one process.** -/
theorem timerSlot_pass (hpid : x.state.Live → x.pid ≠ 0) (hp : q = p → x.state = .running) :
    Pass ticks p q x (timerSlot ticks p q x) := by
  by_cases hlive : x.state.Live
  · have hpid := hpid hlive
    unfold timerSlot
    rcases hlive with hs | hs | hs
    · have hne : q ≠ p := fun heq => by simp [hs] at hp; exact hp heq
      have hu : updateProcTimers x = sleptSlot x := by simp [updateProcTimers, hpid, hs, sleptSlot]
      rw [if_neg hne, hu, age_of_ne (by simp [sleptSlot, hs])]
      exact .slept hs
    · have hne : q ≠ p := fun heq => by simp [hs] at hp; exact hp heq
      have hu : updateProcTimers x = waitedSlot x := by simp [updateProcTimers, hpid, hs, waitedSlot]
      rw [if_neg hne, hu]
      exact pass_runnable hs
    · have hu : updateProcTimers x = ranSlot x := by simp [updateProcTimers, hpid, hs, ranSlot]
      rw [hu]
      split_ifs with heq
      · have hcalm := (calm_quotaSlot (ranSlot x)).state
        have hx : (ranSlot x).state = .running := hs
        rw [age_of_ne (by grind), heq]
        exact pass_running hs
      · rw [age_of_ne (by simp [ranSlot, hs])]
        exact .ran hs fun h => absurd h heq
  · have hne : q ≠ p := fun heq => hlive (.inr (.inr (hp heq)))
    have hu : updateProcTimers x = x := by
      unfold updateProcTimers ProcState.Live at *
      cases hs : x.state <;> simp_all
    have hr : x.state ≠ .runnable := fun hs => hlive (.inr (.inl hs))
    unfold timerSlot
    rw [if_neg hne, hu, age_of_ne hr]
    exact .idle hlive

end Xv6Mlfq
