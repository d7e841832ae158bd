import Xv6Mlfq.Props.Levels
import Xv6Mlfq.Props.Quota
import Xv6Mlfq.Props.Waiting

/-!
# How long a waiting process takes to level 0

Every timer interrupt that passes over the table counts for an ordinary process that waits in the run queues, whoever is
running: `toGo` is the number of passes that are left until the process is on level 0, and a pass takes exactly one off
(`Pass.toGo`). So a process that is not dispatched climbs from level 3 to level 0 in at most 750 passes, and the pass at
which it arrives is known beforehand (`aging_lifts`).
-/

namespace Xv6Mlfq

open Lib

variable {n : Nat} {k k₁ : Kernel n} {a : Act n} {p q : PIdx} {x y : Proc} {h w : List (Event n)} {g : Int} {m : Nat}

/-- The passes until a waiting process is on level 0. -/
def toGo (x : Sched) : Int := if x.qLevel.toInt ≤ 0 then 0 else 250 * x.qLevel.toInt - x.cpuWait.toInt

/-- `x` has waited for `m` passes since it had `g` to go. -/
structure Climbs (g : Int) (m : Nat) (x : Sched) : Prop where
  type : x.type = .idle
  level : InRange x.qLevel
  notOverdue : NotOverdue x
  toGo : toGo x = max 0 (g - m)

/-! ## Integers -/

theorem InRange.toInt {level : Int32} (h : InRange level) : 0 ≤ level.toInt ∧ level.toInt ≤ 3 :=
  ⟨Int32.le_iff_toInt_le.mp h.1, Int32.le_iff_toInt_le.mp h.2⟩

theorem InRange.toInt_sub_one {level : Int32} (h : InRange level) : (level - 1).toInt = level.toInt - 1 := by
  obtain ⟨hge, hle⟩ := h.toInt
  rw [Int32.toInt_sub]
  apply Int.bmod_eq_of_le
  · show -2147483648 ≤ level.toInt - 1
    omega
  · show level.toInt - 1 < 2147483648
    omega

theorem NotOverdue.toInt {x : Sched} (h : NotOverdue x) (htype : x.type = .idle) (hl : 0 < x.qLevel.toInt) :
    x.cpuWait.toInt < 250 := by
  have hone : 1 ≤ x.qLevel := Int32.le_iff_toInt_le.mpr hl
  exact Int32.lt_iff_toInt_lt.mp (h htype hone)

theorem Climbs.level_zero_iff {x : Sched} (hx : Climbs g m x) : x.qLevel = 0 ↔ Xv6Mlfq.toGo x ≤ 0 := by
  unfold Xv6Mlfq.toGo
  split_ifs with hle
  · refine iff_of_true (Int32.toInt_inj.mp ?_) le_rfl
    exact le_antisymm hle hx.level.toInt.1
  · have hlimit := hx.notOverdue.toInt hx.type (Int.not_le.mp hle)
    refine iff_of_false ?_ (by omega)
    intro heq
    rw [heq] at hle
    exact hle le_rfl

/-! ## One step -/

theorem Pass.toGo {ticks : UInt32} (hy : Pass ticks p q x y) (hs : x.state = .runnable) (htype : x.type = .idle)
    (hl : InRange x.qLevel) (hn : NotOverdue x.toSched) : toGo y.toSched = max 0 (toGo x.toSched - 1) := by
  obtain ⟨hge, hle⟩ := hl.toInt
  have hlimit : 0 < x.qLevel.toInt → x.cpuWait.toInt < 250 ∧ (x.cpuWait + 1).toInt = x.cpuWait.toInt + 1 := by
    intro hpos
    have hlt : x.cpuWait.toInt < 250 := hn.toInt htype hpos
    have hlt' : x.cpuWait < 250 := Int32.lt_iff_toInt_lt.mpr hlt
    exact ⟨hlt, toInt_add_one_of_lt hlt'⟩
  cases hy with
  | waited _ hd =>
    show (if x.qLevel.toInt ≤ 0 then 0 else 250 * x.qLevel.toInt - (x.cpuWait + 1).toInt) =
      max 0 (Xv6Mlfq.toGo x.toSched - 1)
    unfold Xv6Mlfq.toGo
    by_cases hzero : x.qLevel.toInt ≤ 0
    · rw [if_pos hzero, if_pos hzero]
      rfl
    · obtain ⟨hlt, hadd⟩ := hlimit (by omega)
      -- it is not due, so the limit is not reached
      have hwait : x.cpuWait.toInt + 1 < 250 := by
        by_contra hdue
        refine hd ⟨hs, ?_, ?_, htype⟩
        · intro heq
          rw [heq] at hzero
          exact hzero (by decide)
        · refine Int32.le_iff_toInt_le.mpr ?_
          rw [hadd]
          exact Int.not_lt.mp hdue
      rw [if_neg hzero, if_neg hzero, hadd]
      omega
  | promoted _ hd =>
    have hpos : 0 < x.qLevel.toInt := by
      rcases hge.lt_or_eq with hlt | heq
      · exact hlt
      · exact absurd (Int32.toInt_inj.mp heq.symm) hd.2.1
    obtain ⟨hlt, hadd⟩ := hlimit hpos
    have hdue : 250 ≤ x.cpuWait.toInt + 1 := hadd ▸ Int32.le_iff_toInt_le.mp hd.2.2.1
    show (if (x.qLevel - 1).toInt ≤ 0 then 0 else 250 * (x.qLevel - 1).toInt - (0 : Int32).toInt) =
      max 0 (Xv6Mlfq.toGo x.toSched - 1)
    unfold Xv6Mlfq.toGo
    have hzero : (0 : Int32).toInt = 0 := rfl
    rw [hl.toInt_sub_one, hzero, if_neg (Int.not_le.mpr hpos)]
    split_ifs
    · omega
    · omega
  | ran hrun => cases hs.symm.trans hrun
  | quota _ hrun => cases hs.symm.trans hrun
  | expired _ hrun => cases hs.symm.trans hrun
  | slept hsleep => cases hs.symm.trans hsleep
  | idle hlive => exact absurd (.inr (.inl hs)) hlive

theorem Pass.type_of_runnable {ticks : UInt32} (hy : Pass ticks p q x y) (hs : x.state = .runnable) : y.type = x.type := by
  cases hy with
  | expired _ hrun => cases hs.symm.trans hrun
  | _ => rfl

theorem Change.climbs (hc : Change k a q x y) (hs : x.state = .runnable) (hx : Climbs g m x.toSched) :
    Climbs g (if (interrupted k a).isSome then m + 1 else m) y.toSched := by
  cases hc with
  | alloc _ hold => cases hs.symm.trans hold
  | startInit _ _ hold => cases hs.symm.trans hold
  | startChild _ _ _ hold => cases hs.symm.trans hold
  | setInfo _ hold => cases hs.symm.trans hold
  | timer ht hy =>
    have hless := hy.toGo hs hx.type hx.level hx.notOverdue
    rw [ht, Option.isSome_some, if_pos rfl]
    refine ⟨(hy.type_of_runnable hs).trans hx.type, hy.inRange hx.level, hy.notOverdue hx.notOverdue, ?_⟩
    rw [hless, hx.toGo]
    omega
  | keep _ _ ht hk =>
    rw [ht, Option.isSome_none, if_neg Bool.false_ne_true]
    refine ⟨hk.type.trans hx.type, ?_, ?_, ?_⟩
    · show InRange y.qLevel
      rw [hk.qLevel]
      exact hx.level
    · intro htype hlevel
      rw [hk.cpuWait]
      exact hx.notOverdue hx.type (hk.qLevel ▸ hlevel)
    · have hsame : Xv6Mlfq.toGo y.toSched = Xv6Mlfq.toGo x.toSched := by
        unfold Xv6Mlfq.toGo
        rw [hk.qLevel, hk.cpuWait]
      rw [hsame]
      exact hx.toGo

/-! ## Runs -/

theorem climbs_start (hr : KRun h k) (hL : Always InfoInRange h) (hC : Always InfoBelowLimit h)
    (htype : (k.ptable.proc p).type = .idle) : Climbs (toGo (k.ptable.proc p).toSched) 0 (k.ptable.proc p).toSched := by
  have hlevel := hr.slots_inRange hL p
  have hno : NotOverdue (k.ptable.proc p).toSched :=
    hr.slot_induct hC (notOverdue_of_zero rfl) (fun _ _ _ _ _ hi hc hx => hc.notOverdue hi hx) p
  refine ⟨htype, hlevel, hno, ?_⟩
  have hpos : 0 ≤ toGo (k.ptable.proc p).toSched := by
    unfold toGo
    split_ifs with hzero
    · exact le_rfl
    · have := hno.toInt htype (Int.not_le.mp hzero)
      omega
  omega

theorem climbs_run (hr : KRun h k₁) (hw : Run step k₁ w k) (hp : ∀ e ∈ w, (e.1.ptable.proc p).state = .runnable)
    (hx : Climbs g 0 (k₁.ptable.proc p).toSched) : Climbs g (passes w) (k.ptable.proc p).toSched := by
  induction hw with
  | start => exact hx
  | @next w k k' a hw hs ih =>
    have hold : Climbs g (passes w) (k.ptable.proc p).toSched := ih fun e he => hp e (List.mem_cons_of_mem _ he)
    obtain ⟨x, y, hxk, hyk, hc⟩ := KRun.change (hr.append hw) hs p
    have hrun : x.state = .runnable := (congrArg Sched.state hxk).trans (hp (k, a) List.mem_cons_self)
    have hnew := hc.climbs hrun (hxk ▸ hold)
    rw [hyk] at hnew
    unfold passes at hnew ⊢
    rw [List.countP_cons]
    split_ifs at hnew ⊢ with hpass
    · exact hnew
    · exact hnew

/-- **Aging lifts a waiting process to level 0 at a known pass**: as long as an ordinary process waits in the run queues, a
timer interrupt that passes over the table takes one off `toGo`, and the process is on level 0 exactly when nothing is
left. Unless `set_proc_info` has made its waiting time negative, that takes at most 750 passes. -/
theorem aging_lifts (hr : KRun h k₁) (hL : Always InfoInRange h) (hC : Always InfoBelowLimit h)
    (htype : (k₁.ptable.proc p).type = .idle) (hw : Run step k₁ w k)
    (hp : ∀ e ∈ w, (e.1.ptable.proc p).state = .runnable) :
    toGo (k.ptable.proc p).toSched = max 0 (toGo (k₁.ptable.proc p).toSched - passes w) ∧
    ((k.ptable.proc p).qLevel = 0 ↔ toGo (k₁.ptable.proc p).toSched ≤ passes w) ∧
    (0 ≤ (k₁.ptable.proc p).cpuWait → 750 ≤ passes w → (k.ptable.proc p).qLevel = 0) := by
  have hstart := climbs_start hr hL hC htype
  have hend := climbs_run hr hw hp hstart
  have hgo := hend.toGo
  have hiff : (k.ptable.proc p).qLevel = 0 ↔ toGo (k₁.ptable.proc p).toSched ≤ passes w := by
    rw [hend.level_zero_iff, hgo]
    omega
  refine ⟨hgo, hiff, fun hwait hmany => hiff.mpr ?_⟩
  have hle := hstart.level.toInt.2
  have hwait' : 0 ≤ (k₁.ptable.proc p).cpuWait.toInt := Int32.le_iff_toInt_le.mp hwait
  unfold toGo
  split_ifs
  · omega
  · omega

/-- Process 2 waits on level 1 with a waiting time of 249 while another process runs: one pass is left. -/
theorem aging_lifts_one : ∃ (h : List (Event 1)) (k₁ k : Kernel 1), KRun h k₁ ∧ step k₁ (.timer 0) = .ok k ∧
    (k₁.ptable.proc 2).qLevel = 1 ∧ (k.ptable.proc 2).qLevel = 0 := by
  obtain ⟨h, k₁, hr, hL, hC, htype, hlevel, hstate, hcpu, hgo, hstep⟩ := exists_kRun (n := 1)
    (P := fun h k => (∀ x ∈ h, InfoInRange x.1 x.2) ∧ (∀ x ∈ h, InfoBelowLimit x.1 x.2) ∧ (k.ptable.proc 2).type = .idle ∧
      (k.ptable.proc 2).qLevel = 1 ∧ (k.ptable.proc 2).state = .runnable ∧ (k.cpus 0).isSome ∧
      toGo (k.ptable.proc 2).toSched = 1 ∧ Sat (step k (.timer 0)) (fun _ => True) fun _ => False)
    (List.flatten [userinitActs 1, [.scheduler 0], forkActs 0, [.wait 0, .scheduler 0], forkActs 0,
      [.sleep 0 0, .scheduler 0, .setProcInfo 0 ⟨1, 0, 249, 0, -1⟩, .sleep 0 1, .wakeup 0,
        .scheduler 0, .wakeup 1]]) (by decide +kernel)
  obtain ⟨k, hk, -⟩ := hstep.exists_ok
  have hwait : ∀ e ∈ ([(k₁, .timer 0)] : List (Event 1)), (e.1.ptable.proc 2).state = .runnable := by
    intro e he
    rw [List.mem_singleton.mp he]
    exact hstate
  have hone : passes ([(k₁, .timer 0)] : List (Event 1)) = 1 := by
    simp [passes, interrupted, hcpu]
  refine ⟨h, k₁, k, hr, hk, hlevel, ((aging_lifts hr hL hC htype (Run.start.next hk) hwait).2.1).mpr ?_⟩
  rw [hgo, hone]
  rfl

end Xv6Mlfq
