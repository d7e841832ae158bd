import Xv6Mlfq.Sched.Change

/-!
# Levels stay in range

The level of a process indexes `queues` and `time_quantum`. `set_proc_info` copies it from the user
without a check, so a process can leave the range and the kernel then faults on the next use of the
level (`level_outOfRange`). As long as every call names an existing level, nobody is out of range and
none of the three faults can happen (`levels_inRange`).
-/

namespace Xv6Mlfq

open Lib

variable {n : Nat} {k k' : Kernel n} {a : Act n} {q : PIdx} {x y : Proc} {h : List (Event n)}

/-- A call of `set_proc_info` names an existing level. -/
def InfoInRange (_ : Kernel n) : Act n → Prop
  | .setProcInfo _ info => 0 ≤ info.qLevel ∧ info.qLevel ≤ 3
  | _ => True

instance (k : Kernel n) (a : Act n) : Decidable (InfoInRange k a) := by
  unfold InfoInRange
  split <;> infer_instance

def InRange (level : Int32) : Prop := 0 ≤ level ∧ level ≤ 3

theorem inRange_zero : InRange 0 := by
  unfold InRange
  decide

theorem inRange_three : InRange 3 := by
  unfold InRange
  decide

theorem demoteProcess_inRange (hx : InRange x.qLevel) : InRange (demoteProcess x).qLevel := by
  unfold demoteProcess
  split_ifs with htype hlast
  · exact hx
  · exact hx
  · show 0 ≤ x.qLevel + 1 ∧ x.qLevel + 1 ≤ 3
    unfold InRange at hx
    grind

theorem Pass.inRange {ticks : UInt32} {p : PIdx} (hy : Pass ticks p q x y)
    (hx : InRange x.qLevel) : InRange y.qLevel := by
  cases hy with
  | expired => exact demoteProcess_inRange hx
  | promoted _ hd =>
    have hne : x.qLevel ≠ 0 := hd.2.1
    show 0 ≤ x.qLevel - 1 ∧ x.qLevel - 1 ≤ 3
    unfold InRange at hx
    grind
  | _ => exact hx

theorem Change.inRange (hc : Change k a q x y) (hi : InfoInRange k a)
    (hx : InRange x.qLevel) : InRange y.qLevel := by
  cases hc with
  | alloc => exact inRange_zero
  | startInit => exact inRange_three
  | startChild =>
    unfold startSlot forkSlot
    dsimp only
    split
    · exact inRange_three
    · exact inRange_zero
  | setInfo hinfo =>
    obtain ⟨c, rfl, _⟩ := infoCall_eq_some.mp hinfo
    exact hi
  | timer _ hy => exact hy.inRange hx
  | keep _ _ _ hk =>
    rw [hk.qLevel]
    exact hx

/-- In a run whose calls of `set_proc_info` name existing levels, so does every slot of the table. -/
theorem KRun.slots_inRange (hr : KRun h k) (hC : Always InfoInRange h) (p : PIdx) :
    InRange (k.ptable.proc p).qLevel :=
  hr.slot_induct (I := fun x => InRange x.qLevel) hC inRange_zero
    (fun _ _ _ _ _ hi hc hx => hc.inRange hi hx) p

/-- **Nobody is out of range, and no level is used out of range**, in every run whose calls of
`set_proc_info` name existing levels. -/
theorem levels_inRange (hr : KRun h k) (hC : Always InfoInRange h) :
    (∀ p, (k.ptable.proc p).state ≠ .unused →
      0 ≤ (k.ptable.proc p).qLevel ∧ (k.ptable.proc p).qLevel ≤ 3) ∧
    ∀ a, step k a ≠ .error (.panic "invalid queue level") ∧
      step k a ≠ .error (.outOfRange .timeQuantum) ∧ step k a ≠ .error (.outOfRange .queues) := by
  refine ⟨fun p _ => hr.slots_inRange hC p, fun a => ?_⟩
  have hlevel : ∀ e, step k a = .error e → e ≠ .panic "invalid queue level" ∧
      ∀ array, e ≠ .outOfRange array := by
    intro e he
    by_contra hbad
    obtain ⟨p, hl⟩ := ((step_refines hr.good a).of_error he).levelOf_eq_none (by grind)
    have hin : InRange (k.ptable.proc p).qLevel := hr.slots_inRange hC p
    exact absurd (levelOf_isSome.mpr hin) (by simp [hl])
  exact ⟨fun he => (hlevel _ he).1 rfl, fun he => (hlevel _ he).2 _ rfl,
    fun he => (hlevel _ he).2 _ rfl⟩

/-- A run with a call of `set_proc_info` that names level 2. -/
theorem levels_inRange_two : ∃ (h : List (Event 1)) (k : Kernel 1), KRun h k ∧
    Always InfoInRange h ∧ (k.ptable.proc 0).qLevel = 2 ∧
    step k (.timer 0) ≠ .error (.outOfRange .timeQuantum) := by
  obtain ⟨h, k, hr, hC, hk⟩ := exists_kRun (n := 1)
    (P := fun h k => (∀ x ∈ h, InfoInRange x.1 x.2) ∧ (k.ptable.proc 0).qLevel = 2)
    (List.flatten [userinitActs 1, [.scheduler 0, .setProcInfo 0 ⟨2, 0, 0, 0, -1⟩]]) (by decide +kernel)
  exact ⟨h, k, hr, hC, hk, ((levels_inRange hr hC).2 (.timer 0)).2.1⟩

/-- **set_proc_info with level 7**: the process is out of range, and its next yield, timer interrupt or
exit faults. -/
theorem level_outOfRange : ∃ (h : List (Event 1)) (k : Kernel 1), KRun h k ∧
    (k.ptable.proc 1).state = .running ∧ (k.ptable.proc 1).qLevel = 7 ∧
    step k (.yield 0) = .error (.panic "invalid queue level") ∧
    step k (.timer 0) = .error (.outOfRange .timeQuantum) ∧
    step k (.exit 0) = .error (.outOfRange .queues) := by
  obtain ⟨h, k, hr, hstate, hlevel, hyield, htimer, hexit⟩ := exists_kRun (n := 1)
    (P := fun _ k => (k.ptable.proc 1).state = .running ∧ (k.ptable.proc 1).qLevel = 7 ∧
      Sat (step k (.yield 0)) (fun _ => False) (fun e => e = .panic "invalid queue level") ∧
      Sat (step k (.timer 0)) (fun _ => False) (fun e => e = .outOfRange .timeQuantum) ∧
      Sat (step k (.exit 0)) (fun _ => False) (fun e => e = .outOfRange .queues))
    (List.flatten [userinitActs 1, [.scheduler 0], forkActs 0,
      [.wait 0, .scheduler 0, .setProcInfo 0 ⟨7, 0, 0, 0, -1⟩]]) (by decide +kernel)
  exact ⟨h, k, hr, hstate, hlevel, hyield.eq_error, htimer.eq_error, hexit.eq_error⟩

end Xv6Mlfq
