import Xv6Mlfq.Sched.Change

/-!
# Waiting time and I/O credit

`cpu_wait` of an ordinary process below level 0 stays under the aging limit: every step that raises its
level clears the counter, and every step that counts it up runs the aging pass (`cpuWait_lt_limit`).

`io_wait_time` is meant to be counted per level. `credit` is that count, read off the history of a run.
Demotion clears the counter and promotion does not, so a promoted process takes its credit along
(`credit_carried`); while nobody with a credit is promoted the counter is the count
(`ioWaitTime_eq_credit`).
-/

namespace Xv6Mlfq

open Lib

variable {n : Nat} {k k' : Kernel n} {a : Act n} {p q : PIdx} {x y : Proc} {h : List (Event n)}

/-! ## cpu_wait -/

/-- A call of `set_proc_info` names an existing level and a waiting time below the aging limit. -/
def InfoBelowLimit (k : Kernel n) (a : Act n) : Prop :=
  ∀ r ∈ infoCall k a, (0 ≤ r.2.qLevel ∧ r.2.qLevel ≤ 3) ∧ r.2.cpuWaitTime < 250

instance (k : Kernel n) (a : Act n) : Decidable (InfoBelowLimit k a) :=
  inferInstanceAs (Decidable (∀ r ∈ infoCall k a, _))

/-- An ordinary process below level 0 has not waited for the aging limit. -/
def NotOverdue (x : Sched) : Prop := x.type = .idle → 1 ≤ x.qLevel → x.cpuWait < 250

theorem notOverdue_of_zero {x : Sched} (hx : x.cpuWait = 0) : NotOverdue x := by
  intro _ _
  rw [hx]
  decide

theorem Pass.notOverdue {ticks : UInt32} (hy : Pass ticks p q x y) (hx : NotOverdue x.toSched) :
    NotOverdue y.toSched := by
  cases hy with
  | expired =>
    unfold demoteProcess
    split_ifs
    · exact hx
    · exact hx
    · exact notOverdue_of_zero rfl
  | waited hs hd =>
    -- what the pass counts up, its aging check looks at
    intro htype hlevel
    have hlevel' : 1 ≤ x.qLevel := hlevel
    by_contra hlimit
    refine hd ⟨hs, ?_, ?_, htype⟩
    · grind
    · have hlimit' : ¬ x.cpuWait + 1 < 250 := hlimit
      grind
  | promoted => exact notOverdue_of_zero rfl
  | _ => exact hx

theorem Change.notOverdue (hc : Change k a q x y) (hi : InfoBelowLimit k a)
    (hx : NotOverdue x.toSched) : NotOverdue y.toSched := by
  cases hc with
  | alloc => exact notOverdue_of_zero rfl
  | startInit => exact notOverdue_of_zero rfl
  | startChild => exact notOverdue_of_zero rfl
  | setInfo hinfo => exact fun _ _ => (hi _ hinfo).2
  | timer _ hy => exact hy.notOverdue hx
  | keep _ _ _ hk =>
    intro htype hlevel
    rw [hk.cpuWait]
    exact hx (hk.type ▸ htype) (hk.qLevel ▸ hlevel)

/-- **Aging leaves nobody overdue**, in every run whose calls of `set_proc_info` name existing levels
and waiting times below the limit. -/
theorem cpuWait_lt_limit (hr : KRun h k) (hC : Always InfoBelowLimit h) (p : PIdx)
    (htype : (k.ptable.proc p).type = .idle) (hlevel : 1 ≤ (k.ptable.proc p).qLevel) :
    (k.ptable.proc p).cpuWait < 250 := by
  have hno : NotOverdue (k.ptable.proc p).toSched :=
    hr.slot_induct hC (notOverdue_of_zero rfl) (fun _ _ _ _ _ hi hc hx => hc.notOverdue hi hx) p
  exact hno htype hlevel

/-- A process of level 1 that starts out with a waiting time of 249. -/
theorem cpuWait_lt_limit_info : ∃ (h : List (Event 1)) (k : Kernel 1), KRun h k ∧
    Always InfoBelowLimit h ∧ (k.ptable.proc 2).qLevel = 1 ∧ (k.ptable.proc 2).cpuWait < 250 := by
  obtain ⟨h, k, hr, hC, htype, hlevel⟩ := exists_kRun (n := 1)
    (P := fun h k => (∀ x ∈ h, InfoBelowLimit x.1 x.2) ∧
      (k.ptable.proc 2).type = .idle ∧ (k.ptable.proc 2).qLevel = 1)
    (List.flatten [userinitActs 1, [.scheduler 0], forkActs 0, [.wait 0, .scheduler 0], forkActs 0,
      [.sleep 0 0, .scheduler 0, .setProcInfo 0 ⟨1, 0, 249, 5, -1⟩, .yield 0]]) (by decide +kernel)
  exact ⟨h, k, hr, hC, hlevel, cpuWait_lt_limit hr hC 2 htype (by rw [hlevel]; decide)⟩

/-! ## io_wait_time -/

/-- The I/O credit of `p` on its level: what its last `set_proc_info` on this level gave it, and one for
each pass over the table since then, or since it came to this level, that found it sleeping. The
history ends in the second argument. -/
def credit (p : PIdx) : List (Event n) → Kernel n → Int32
  | [], _ => 0
  | (k₀, a) :: h, k =>
    match infoCall k₀ a with
    | some (q, info) => if q = p then info.ioWaitTime else credit p h k₀
    | none =>
      -- the three ways to come to a level: creation, demotion and promotion
      if created k₀ a = some p ∨ (k.ptable.proc p).qLevel ≠ (k₀.ptable.proc p).qLevel then 0
      else if interrupted k₀ a ≠ none ∧ (k₀.ptable.proc p).state = .sleeping then credit p h k₀ + 1
      else credit p h k₀

/-- The step promotes nobody who has a credit. -/
def NoCreditCarried (k : Kernel n) (a : Act n) : Prop :=
  interrupted k a ≠ none → ∀ p, Due (k.ptable.proc p).toSched → (k.ptable.proc p).ioWaitTime = 0

instance (k : Kernel n) (a : Act n) : Decidable (NoCreditCarried k a) :=
  inferInstanceAs (Decidable (_ → _))

theorem credit_of_info {info : ProcInfo} (hi : infoCall k a = some (p, info)) :
    credit p ((k, a) :: h) k' = info.ioWaitTime := by
  simp [credit, hi]

theorem credit_of_created (hc : created k a = some p) : credit p ((k, a) :: h) k' = 0 := by
  simp [credit, infoCall_of_created hc, hc]

theorem credit_of_interrupted (ht : interrupted k a = some q) :
    credit p ((k, a) :: h) k' =
      if (k'.ptable.proc p).qLevel ≠ (k.ptable.proc p).qLevel then 0
      else if (k.ptable.proc p).state = .sleeping then credit p h k + 1
      else credit p h k := by
  simp [credit, infoCall_of_interrupted ht, created_of_interrupted ht, ht]

theorem credit_of_quiet (hc : created k a ≠ some p) (hi : ∀ info, infoCall k a ≠ some (p, info))
    (ht : interrupted k a = none) (hlevel : (k'.ptable.proc p).qLevel = (k.ptable.proc p).qLevel) :
    credit p ((k, a) :: h) k' = credit p h k := by
  rw [credit]
  split
  · rename_i r info hinfo
    split_ifs with hrp
    · exact absurd (hrp ▸ hinfo) (hi info)
    · rfl
  · simp [hc, ht, hlevel]

/-- A pass over the table counts a sleeping process, clears the credit of a demoted one and, if it was
zero, of a promoted one. -/
theorem Pass.ioWaitTime {ticks : UInt32} (hy : Pass ticks p q x y)
    (hno : Due x.toSched → x.ioWaitTime = 0) :
    y.ioWaitTime = if y.qLevel ≠ x.qLevel then 0
      else if x.state = .sleeping then x.ioWaitTime + 1 else x.ioWaitTime := by
  cases hy with
  | ran hs => simp [ranSlot, hs]
  | quota _ hs => simp [ranSlot, hs]
  | expired _ hs =>
    unfold demoteProcess
    split_ifs <;> simp_all [ranSlot]
  | waited hs => simp [waitedSlot, hs]
  | promoted hs hd => simp [promoteSlot, waitedSlot, hs, hno hd]
  | slept hs => simp [sleptSlot, hs]
  | idle hs =>
    have hsleep : x.state ≠ .sleeping := fun h => hs (.inl h)
    simp [hsleep]

/-- **I/O credit is per level**, in every run in which nobody with a credit is promoted. -/
theorem ioWaitTime_eq_credit (hr : KRun h k) (hC : Always NoCreditCarried h) (p : PIdx) :
    (k.ptable.proc p).ioWaitTime = credit p h k := by
  induction hr with
  | start => rfl
  | @next h k k' a hr hs ih =>
    obtain ⟨hno, hC⟩ := always_cons.mp hC
    have hcredit : (k.ptable.proc p).ioWaitTime = credit p h k := ih hC
    obtain ⟨x, y, hx, hy, hc⟩ := KRun.change hr hs p
    rw [← hy]
    cases hc with
    | alloc hc => rw [credit_of_created hc]; rfl
    | startInit ha hb => rw [credit_of_created (created_startInit ha hb)]; rfl
    | startChild ha hp hf => rw [credit_of_created (created_startChild ha hp hf)]; rfl
    | setInfo hi => rw [credit_of_info hi]; rfl
    | timer ht hp =>
      have hio := hp.ioWaitTime fun hd => by
        rw [hx] at hd ⊢
        exact hno (by simp [ht]) p hd
      rw [hio, credit_of_interrupted ht, ← hcredit, ← hx, ← hy]
    | keep hc hi ht hk =>
      rw [credit_of_quiet hc hi ht (by rw [← hx, ← hy]; exact hk.qLevel), hk.ioWaitTime, hx]
      exact hcredit

/-- A pass that promotes process 2, which has no credit, and finds init asleep. -/
theorem ioWaitTime_eq_credit_slept : ∃ (h : List (Event 1)) (k : Kernel 1), KRun h k ∧
    Always NoCreditCarried h ∧ (k.ptable.proc 2).qLevel = 0 ∧ (k.ptable.proc 0).ioWaitTime = 1 ∧
    (k.ptable.proc 0).ioWaitTime = credit 0 h k := by
  obtain ⟨h, k, hr, hC, hlevel, hio⟩ := exists_kRun (n := 1)
    (P := fun h k => (∀ x ∈ h, NoCreditCarried x.1 x.2) ∧ (k.ptable.proc 2).qLevel = 0 ∧
      (k.ptable.proc 0).ioWaitTime = 1)
    (List.flatten [userinitActs 1, [.scheduler 0], forkActs 0, [.wait 0, .scheduler 0], forkActs 0,
      [.sleep 0 0, .scheduler 0, .setProcInfo 0 ⟨1, 0, 249, 0, -1⟩, .sleep 0 1, .wakeup 0,
        .scheduler 0, .wakeup 1, .timer 0]]) (by decide +kernel)
  exact ⟨h, k, hr, hC, hlevel, hio, ioWaitTime_eq_credit hr hC 0⟩

/-- **Promotion carries the credit along**: process 2 comes to level 0 by promotion, has not slept there,
and still has the credit of 5 it was given on level 1. -/
theorem credit_carried : ∃ (h : List (Event 1)) (k : Kernel 1), KRun h k ∧
    (k.ptable.proc 2).state = .runnable ∧ (k.ptable.proc 2).qLevel = 0 ∧
    (k.ptable.proc 2).ioWaitTime = 5 ∧ credit 2 h k = 0 :=
  exists_kRun (n := 1)
    (P := fun h k => (k.ptable.proc 2).state = .runnable ∧ (k.ptable.proc 2).qLevel = 0 ∧
      (k.ptable.proc 2).ioWaitTime = 5 ∧ credit 2 h k = 0)
    (List.flatten [userinitActs 1, [.scheduler 0], forkActs 0, [.wait 0, .scheduler 0], forkActs 0,
      [.sleep 0 0, .scheduler 0, .setProcInfo 0 ⟨1, 0, 249, 5, -1⟩, .sleep 0 1, .wakeup 0,
        .scheduler 0, .wakeup 1, .timer 0]]) (by decide +kernel)

end Xv6Mlfq
