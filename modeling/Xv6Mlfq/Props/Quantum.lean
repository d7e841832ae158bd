import Xv6Mlfq.Sched.Change

/-!
# The time quantum on one CPU

`burst p` counts, from the history of a run, the timer interrupts that found `p` running since it came
to its level or last used up a quantum on level 3. On one CPU the interrupt that finds `p` running is the
interrupt of `p` itself, so `cpu_burst` is this count and the check of the quantum comes right after each
increment: the count never reaches the quantum, and an ordinary process is demoted exactly when it would
(`cpuBurst_eq_burst`).
-/

namespace Xv6Mlfq

open Lib

variable {n : Nat} {k k' : Kernel n} {a : Act n} {p q : PIdx} {x y : Proc} {h : List (Event n)} {b : Nat}

/-- One more interrupt takes the count `b` to the quantum of level 3, on level 3. -/
def BottomUsed (x : Sched) (b : Nat) : Prop := x.killed = false ∧ x.qLevel = 3 ∧ b + 1 = 80

instance (x : Sched) (b : Nat) : Decidable (BottomUsed x b) := inferInstanceAs (Decidable (_ ∧ _ ∧ _))

/-- The timer interrupts that found `p` running since its creation, its last change of level and its
last quantum on level 3. The history ends in the second argument. -/
def burst (p : PIdx) : List (Event n) → Kernel n → Nat
  | [], _ => 0
  | (k₀, a) :: h, k =>
    if created k₀ a = some p ∨ (k.ptable.proc p).qLevel ≠ (k₀.ptable.proc p).qLevel then 0
    else if RunsAt k₀ a p then
      if BottomUsed (k₀.ptable.proc p).toSched (burst p h k₀) then 0 else burst p h k₀ + 1
    else burst p h k₀

/-- `p` called `set_proc_info` since its creation. -/
def calledInfo (p : PIdx) : List (Event n) → Bool
  | [] => false
  | (k, a) :: h =>
    created k a ≠ some p && ((infoCall k a).any (fun r => r.1 = p) || calledInfo p h)

/-- One more interrupt takes the count `b` to the quantum. -/
def Reaches (x : Sched) (b : Nat) : Prop :=
  x.killed = false ∧ ∃ l, levelOf x.qLevel = some l ∧ ((b + 1 : Nat) : Int) = (timeQuantum l).toInt

/-! ## One process -/

/-- A process without a quota, on an existing level, whose `cpu_burst` is the count `b`. -/
structure Allotted (x : Sched) (b : Nat) : Prop where
  endTime : x.endTime ≤ 0
  level : 0 ≤ x.qLevel ∧ x.qLevel ≤ 3
  burst : x.killed = false →
    x.cpuBurst.toInt = b ∧ ∀ l, levelOf x.qLevel = some l → (b : Int) < (timeQuantum l).toInt

theorem timeQuantum_bounds : ∀ l : Level, 0 < (timeQuantum l).toInt ∧ (timeQuantum l).toInt ≤ 80 := by
  decide

theorem toInt_add_one {c : Int32} (h0 : 0 ≤ c.toInt) (h80 : c.toInt < 80) :
    (c + 1).toInt = c.toInt + 1 := by
  rw [Int32.toInt_add]
  apply Int.bmod_eq_of_le
  · show -2147483648 ≤ c.toInt + 1
    omega
  · show c.toInt + 1 < 2147483648
    omega

theorem Allotted.cpuBurst_add_one {x : Sched} (hx : Allotted x b) (hk : x.killed = false) :
    (x.cpuBurst + 1).toInt = ((b + 1 : Nat) : Int) := by
  obtain ⟨hb, hlt⟩ := hx.burst hk
  obtain ⟨l, hl⟩ := Option.isSome_iff_exists.mp (levelOf_isSome.mpr hx.level)
  have := hlt l hl
  have := timeQuantum_bounds l
  rw [toInt_add_one (by omega) (by omega)]
  omega

theorem Allotted.expired_iff {x : Sched} (hx : Allotted x b) : Expired x ↔ Reaches x b := by
  have hquota : ¬ QuotaUsed x := fun hu => absurd hu.1 (Int32.not_lt.mpr hx.endTime)
  unfold Expired Reaches
  refine ⟨fun ⟨_, hk, l, hl, hge⟩ => ⟨hk, l, hl, ?_⟩, fun ⟨hk, l, hl, heq⟩ => ⟨hquota, hk, l, hl, ?_⟩⟩
  · have hge' := Int32.le_iff_toInt_le.mp hge
    have := (hx.burst hk).2 l hl
    rw [hx.cpuBurst_add_one hk] at hge'
    omega
  · apply Int32.le_iff_toInt_le.mpr
    rw [hx.cpuBurst_add_one hk]
    omega

/-- The interrupt of a running process: it runs on, or its quantum is used up. -/
theorem Pass.own {ticks : UInt32} (hy : Pass ticks q q x y) (hx : Allotted x.toSched b)
    (hs : x.state = .running) :
    y = ranSlot x ∧ ¬ Reaches x.toSched b ∨ y = demoteProcess (ranSlot x) ∧ Reaches x.toSched b := by
  cases hy with
  | ran _ hq => exact .inl ⟨rfl, fun hr => (hq rfl).2 (hx.expired_iff.mpr hr)⟩
  | quota _ _ hu => exact absurd hu.1 (Int32.not_lt.mpr hx.endTime)
  | expired _ _ he => exact .inr ⟨rfl, hx.expired_iff.mp he⟩
  | waited hs' => simp [hs] at hs'
  | promoted hs' => simp [hs] at hs'
  | slept hs' => simp [hs] at hs'
  | idle hs' => exact absurd (.inr (.inr hs)) hs'

theorem Allotted.lt_of_not {x : Sched} (hx : Allotted x b) (hk : x.killed = false)
    (hr : ¬ Reaches x b) {l : Level} (hl : levelOf x.qLevel = some l) :
    ((b + 1 : Nat) : Int) < (timeQuantum l).toInt := by
  have := (hx.burst hk).2 l hl
  have : ((b + 1 : Nat) : Int) ≠ (timeQuantum l).toInt := fun heq => hr ⟨hk, l, hl, heq⟩
  omega

theorem bottomUsed_iff {x : Sched} : BottomUsed x b ↔ Reaches x b ∧ x.qLevel = 3 := by
  unfold BottomUsed Reaches
  refine ⟨fun ⟨hk, h3, hb⟩ => ⟨⟨hk, 3, by rw [h3]; rfl, by rw [hb]; rfl⟩, h3⟩, ?_⟩
  rintro ⟨⟨hk, l, hl, hb⟩, h3⟩
  rw [h3] at hl
  obtain rfl : (3 : Level) = l := Option.some.inj hl
  exact ⟨hk, h3, Int.ofNat.inj hb⟩

theorem allotted_zero {x : Sched} (hend : x.endTime ≤ 0) (hl : 0 ≤ x.qLevel ∧ x.qLevel ≤ 3)
    (hb : x.cpuBurst = 0) : Allotted x 0 := by
  refine ⟨hend, hl, fun _ => ⟨by rw [hb]; rfl, fun l _ => ?_⟩⟩
  have := timeQuantum_bounds l
  omega

theorem allotted_new {x : Sched} (hend : x.endTime = -1) (hl : x.qLevel = 0) (hb : x.cpuBurst = 0) :
    Allotted x 0 :=
  allotted_zero (by rw [hend]; decide) (by rw [hl]; decide) hb

theorem allotted_startSlot {ticks : UInt32} {pid : Int32}
    (htype : (startSlot ticks pid x).type = .idle) : Allotted (startSlot ticks pid x).toSched 0 := by
  by_cases hpid : pid = 1
  · simp [startSlot, forkSlot, hpid] at htype
  · apply allotted_new <;> simp [startSlot, forkSlot, hpid]

theorem Allotted.demote (hx : Allotted x.toSched b) (htype : x.type = .idle) :
    Allotted (demoteProcess (ranSlot x)).toSched 0 := by
  have hlevel := hx.level
  unfold demoteProcess
  split_ifs with ht h3
  · simp [ranSlot, htype] at ht
  · exact allotted_zero hx.endTime hx.level rfl
  · have h3' : x.qLevel ≠ 3 := h3
    refine allotted_zero hx.endTime ?_ rfl
    show 0 ≤ x.qLevel + 1 ∧ x.qLevel + 1 ≤ 3
    grind

theorem Allotted.run (hx : Allotted x.toSched b) (hr : ¬ Reaches x.toSched b) :
    Allotted (ranSlot x).toSched (b + 1) :=
  ⟨hx.endTime, hx.level, fun hk => ⟨hx.cpuBurst_add_one hk, fun _ hl => hx.lt_of_not hk hr hl⟩⟩

theorem Allotted.promote {ticks : UInt32} (hx : Allotted x.toSched b) (hd : Due x.toSched) :
    Allotted (promoteSlot ticks (waitedSlot x)).toSched 0 := by
  have hlevel := hx.level
  have hzero := hd.2.1
  refine allotted_zero hx.endTime ?_ rfl
  show 0 ≤ x.qLevel - 1 ∧ x.qLevel - 1 ≤ 3
  grind

theorem not_exempt (htype : x.type = .idle) :
    ¬ ((ranSlot x).type = .init ∨ (ranSlot x).type = .shell) := by
  simp [ranSlot, htype]

theorem demoteProcess_qLevel (htype : x.type = .idle) (h3 : x.qLevel ≠ 3) :
    (demoteProcess (ranSlot x)).qLevel = x.qLevel + 1 := by
  have h3' : (ranSlot x).qLevel ≠ 3 := h3
  rw [demoteProcess, if_neg (not_exempt htype), if_neg h3']
  rfl

theorem demoteProcess_bottom (htype : x.type = .idle) (h3 : x.qLevel = 3) :
    demoteProcess (ranSlot x) = { ranSlot x with cpuBurst := 0 } := by
  have h3' : (ranSlot x).qLevel = 3 := h3
  rw [demoteProcess, if_neg (not_exempt htype), if_pos h3']

def nextBurst (x y : Sched) (b : Nat) : Nat :=
  if y.qLevel ≠ x.qLevel then 0
  else if x.state = .running then if BottomUsed x b then 0 else b + 1
  else b

/-- **The interrupt keeps `cpu_burst` and the count together.** -/
theorem Pass.allotted {ticks : UInt32} (hy : Pass ticks p q x y) (hx : Allotted x.toSched b)
    (hown : x.state = .running → p = q) (htype : x.type = .idle) :
    Allotted y.toSched (nextBurst x.toSched y.toSched b) := by
  by_cases hs : x.state = .running
  · obtain rfl := hown hs
    rcases hy.own hx hs with ⟨rfl, hr⟩ | ⟨rfl, hr⟩
    · have hnot : ¬ BottomUsed x.toSched b := fun hb => hr (bottomUsed_iff.mp hb).1
      have hnext : nextBurst x.toSched (ranSlot x).toSched b = b + 1 := by
        simp [nextBurst, ranSlot, hs, hnot]
      rw [hnext]
      exact hx.run hr
    · have hnext : nextBurst x.toSched (demoteProcess (ranSlot x)).toSched b = 0 := by
        by_cases h3 : x.qLevel = 3
        · simp [nextBurst, hs, bottomUsed_iff, hr, h3]
        · simp [nextBurst, demoteProcess_qLevel htype h3]
      rw [hnext]
      exact hx.demote htype
  · cases hy with
    | ran hs' => exact absurd hs' hs
    | quota _ hs' => exact absurd hs' hs
    | expired _ hs' => exact absurd hs' hs
    | waited => simpa [nextBurst, waitedSlot, hs] using ⟨hx.endTime, hx.level, hx.burst⟩
    | promoted _ hd =>
      have hnext : nextBurst x.toSched (promoteSlot ticks (waitedSlot x)).toSched b = 0 := by
        have hne : x.qLevel - 1 ≠ x.qLevel := by grind
        simp [nextBurst, promoteSlot, waitedSlot, hne]
      rw [hnext]
      exact hx.promote hd
    | slept => simpa [nextBurst, sleptSlot, hs] using ⟨hx.endTime, hx.level, hx.burst⟩
    | idle => simpa [nextBurst, hs] using hx

/-! ## Runs -/

theorem burst_of_created (hc : created k a = some p) : burst p ((k, a) :: h) k' = 0 := by
  simp [burst, hc]

theorem burst_of_interrupted (ht : interrupted k a = some q) :
    burst p ((k, a) :: h) k' =
      nextBurst (k.ptable.proc p).toSched (k'.ptable.proc p).toSched (burst p h k) := by
  simp [burst, nextBurst, RunsAt, created_of_interrupted ht, ht]

theorem burst_of_quiet (hc : created k a ≠ some p) (ht : interrupted k a = none)
    (hl : (k'.ptable.proc p).qLevel = (k.ptable.proc p).qLevel) :
    burst p ((k, a) :: h) k' = burst p h k := by
  simp [burst, RunsAt, hc, ht, hl]

theorem calledInfo_cons (hc : created k a ≠ some p) :
    calledInfo p ((k, a) :: h) = false ↔
      (∀ info, infoCall k a ≠ some (p, info)) ∧ calledInfo p h = false := by
  cases hi : infoCall k a with
  | none => simp [calledInfo, hc, hi]
  | some r =>
    obtain ⟨q, info⟩ := r
    simp [calledInfo, hc, hi]

theorem interrupted_of_running {h : List (Event 1)} {k : Kernel 1} {a : Act 1} (hr : KRun h k)
    (ht : interrupted k a = some q) (hs : (k.ptable.proc p).state = .running) : q = p := by
  obtain ⟨c, rfl, hc⟩ := interrupted_eq_some.mp ht
  obtain ⟨c', hc'⟩ := hr.good.valid.onCpu p hs
  have hcpu : k.cpus c' = some p := hc'
  rw [Subsingleton.elim c' c, hc] at hcpu
  exact Option.some.inj hcpu

theorem KRun.allotted {h : List (Event 1)} {k : Kernel 1} (hr : KRun h k) (p : PIdx)
    (hlive : (k.ptable.proc p).state ≠ .unused) (htype : (k.ptable.proc p).type = .idle)
    (hinfo : calledInfo p h = false) : Allotted (k.ptable.proc p).toSched (burst p h k) := by
  induction hr with
  | start => exact absurd rfl hlive
  | @next h k k' a hr hs ih =>
    obtain ⟨x, y, hx, hy, hc⟩ := KRun.change hr hs p
    rw [← hy] at hlive htype ⊢
    rw [← hx] at ih
    cases hc with
    | alloc hc =>
      rw [burst_of_created hc]
      exact allotted_new rfl rfl rfl
    | startInit => cases htype
    | startChild ha hp hf =>
      rw [burst_of_created (created_startChild ha hp hf)]
      exact allotted_startSlot htype
    | setInfo hi =>
      have hne := (calledInfo_cons (by simp [created_of_infoCall hi])).mp hinfo
      exact absurd hi (hne.1 _)
    | timer ht hp =>
      have hinfo := ((calledInfo_cons (by simp [created_of_interrupted ht])).mp hinfo).2
      rw [hp.state] at hlive
      rw [hp.type] at htype
      rw [burst_of_interrupted ht, ← hx, ← hy]
      refine hp.allotted (ih hlive htype hinfo) (fun hs => ?_) htype
      rw [hx] at hs
      exact interrupted_of_running hr ht hs
    | keep hc _ ht hk =>
      have hinfo := ((calledInfo_cons hc).mp hinfo).2
      have hlive' : x.state ≠ .unused := fun hun => hlive (hk.unused hun)
      obtain ⟨hend, hlevel, hburst⟩ := ih hlive' (hk.type ▸ htype) hinfo
      rw [burst_of_quiet hc ht (by rw [← hx, ← hy, hk.qLevel])]
      refine ⟨hk.endTime ▸ hend, hk.qLevel ▸ hlevel, fun hkilled => ?_⟩
      rw [hk.cpuBurst, hk.qLevel]
      exact hburst ((hk.killed hkilled).resolve_right hlive)

/-- What a step may do to the level and the count of a process. `pass` says that the step is a timer
interrupt that passes over the table; `b` and `b'` are the counts before and after. -/
structure QuantumStep (pass : Prop) (x y : Sched) (b b' : Nat) : Prop where
  /-- Demotion at the interrupt that takes the count to the quantum, and at no other step. -/
  demoted : x.qLevel < y.qLevel ↔ (pass ∧ x.state = .running) ∧ Reaches x b ∧ x.qLevel < 3
  byOne : x.qLevel < y.qLevel → y.qLevel = x.qLevel + 1
  /-- On level 3 the same interrupt only starts a new quantum. -/
  bottom : pass ∧ x.state = .running → Reaches x b → x.qLevel = 3 →
    y.cpuBurst = 0 ∧ y.qLevel = x.qLevel ∧ y.cpuWait = x.cpuWait ∧ y.ioWaitTime = x.ioWaitTime
  /-- A step that neither finds the process running at a timer interrupt nor promotes it. -/
  quiet : ¬ (pass ∧ x.state = .running) → ¬ (pass ∧ Due x) →
    y.qLevel = x.qLevel ∧ y.cpuBurst = x.cpuBurst ∧ b' = b

theorem QuantumStep.still {pass : Prop} {x y : Sched} {b' : Nat} (hl : y.qLevel = x.qLevel)
    (hr : pass ∧ x.state = .running → ¬ Reaches x b)
    (hq : ¬ (pass ∧ x.state = .running) → y.cpuBurst = x.cpuBurst ∧ b' = b) :
    QuantumStep pass x y b b' where
  demoted := by
    refine ⟨fun hlt => ?_, fun ⟨hp, hb, _⟩ => absurd hb (hr hp)⟩
    rw [hl] at hlt
    exact (Int32.lt_irrefl hlt).elim
  byOne hlt := by
    rw [hl] at hlt
    exact (Int32.lt_irrefl hlt).elim
  bottom hp hb := absurd hb (hr hp)
  quiet hp _ := ⟨hl, hq hp⟩

/-- **A timer interrupt**, on an ordinary process. -/
theorem Pass.quantumStep {ticks : UInt32} (hy : Pass ticks p q x y) (hx : Allotted x.toSched b)
    (hown : x.state = .running → p = q) (htype : x.type = .idle) :
    QuantumStep True x.toSched y.toSched b (nextBurst x.toSched y.toSched b) := by
  have hlevel := hx.level
  by_cases hs : x.state = .running
  · obtain rfl := hown hs
    rcases hy.own hx hs with ⟨rfl, hr⟩ | ⟨rfl, hr⟩
    · exact .still rfl (fun _ => hr) fun hno => absurd ⟨trivial, hs⟩ hno
    · by_cases h3 : x.qLevel = 3
      · rw [demoteProcess_bottom htype h3]
        refine ⟨?_, ?_, fun _ _ _ => ⟨rfl, rfl, rfl, rfl⟩, fun hno => absurd ⟨trivial, hs⟩ hno⟩
        · show x.qLevel < x.qLevel ↔ _
          grind
        · intro hlt
          exact (Int32.lt_irrefl hlt).elim
      · have hdown := demoteProcess_qLevel htype h3
        refine ⟨?_, fun _ => hdown, fun _ _ h3' => absurd h3' h3,
          fun hno => absurd ⟨trivial, hs⟩ hno⟩
        rw [hdown]
        grind
  · have hrun : ¬ (True ∧ x.state = .running) := fun hno => hs hno.2
    have hnext : y.qLevel = x.qLevel → nextBurst x.toSched y.toSched b = b := by
      intro hl
      simp [nextBurst, hl, hs]
    cases hy with
    | ran hs' => exact absurd hs' hs
    | quota _ hs' => exact absurd hs' hs
    | expired _ hs' => exact absurd hs' hs
    | waited => exact .still rfl (fun hno => absurd hno hrun) fun _ => ⟨rfl, hnext rfl⟩
    | promoted _ hd =>
      -- one level up
      have hup : ¬ x.qLevel < x.qLevel - 1 := by
        have := hd.2.1
        grind
      exact ⟨⟨fun hlt => absurd hlt hup, fun ⟨hno, _⟩ => absurd hno hrun⟩,
        fun hlt => absurd hlt hup, fun hno => absurd hno hrun, fun _ hno => absurd ⟨trivial, hd⟩ hno⟩
    | slept => exact .still rfl (fun hno => absurd hno hrun) fun _ => ⟨rfl, hnext rfl⟩
    | idle => exact .still rfl (fun hno => absurd hno hrun) fun _ => ⟨rfl, hnext rfl⟩

/-- **The allotment cannot be gamed.** On one CPU, while an ordinary process that does not call
`set_proc_info` is not killed, its `cpu_burst` is the count `burst` and below the quantum of its level.
Every step, of any process, that is not part of its creation moves level and count as `QuantumStep`
says. -/
theorem cpuBurst_eq_burst {h : List (Event 1)} {k : Kernel 1} (hr : KRun h k) (p : PIdx)
    (hlive : (k.ptable.proc p).state ≠ .unused) (htype : (k.ptable.proc p).type = .idle)
    (hinfo : calledInfo p h = false) :
    ((k.ptable.proc p).killed = false →
      (k.ptable.proc p).cpuBurst.toInt = burst p h k ∧
      ∃ l, levelOf (k.ptable.proc p).qLevel = some l ∧ (burst p h k : Int) < (timeQuantum l).toInt) ∧
    ∀ a k', step k a = .ok k' → created k a ≠ some p → (∀ info, infoCall k a ≠ some (p, info)) →
      QuantumStep (interrupted k a ≠ none) (k.ptable.proc p).toSched (k'.ptable.proc p).toSched
        (burst p h k) (burst p ((k, a) :: h) k') := by
  have hal := hr.allotted p hlive htype hinfo
  obtain ⟨l, hl⟩ := Option.isSome_iff_exists.mp (levelOf_isSome.mpr hal.level)
  refine ⟨fun hk => ⟨(hal.burst hk).1, l, hl, (hal.burst hk).2 l hl⟩, fun a k' hs hcr hinf => ?_⟩
  obtain ⟨x, y, hx, hy, hc⟩ := KRun.change hr hs p
  cases hc with
  | alloc hc => exact absurd hc hcr
  | startInit ha hb => exact absurd (created_startInit ha hb) hcr
  | startChild ha hp hf => exact absurd (created_startChild ha hp hf) hcr
  | setInfo hi => exact absurd hi (hinf _)
  | timer ht hp =>
    rw [burst_of_interrupted ht, ← hx, ← hy]
    rw [← hx] at hal
    have hown : x.state = .running → _ := fun hs => by
      rw [hx] at hs
      exact interrupted_of_running hr ht hs
    have hpass : (interrupted k a ≠ none) = True := by simp [ht]
    rw [hpass]
    exact hp.quantumStep hal hown (by rw [hx]; exact htype)
  | keep hc _ ht hk =>
    have hlevel : (k'.ptable.proc p).qLevel = (k.ptable.proc p).qLevel := by
      rw [← hx, ← hy, hk.qLevel]
    refine .still hlevel (fun hp => absurd ht hp.1) fun _ => ⟨?_, burst_of_quiet hc ht hlevel⟩
    rw [← hx, ← hy, hk.cpuBurst]

/-- An ordinary process that is interrupted, sleeps, is woken and interrupted again: the count is 2. -/
theorem cpuBurst_eq_burst_slept : ∃ (h : List (Event 1)) (k : Kernel 1), KRun h k ∧
    (k.ptable.proc 2).killed = false ∧ burst 2 h k = 2 ∧
    (k.ptable.proc 2).cpuBurst.toInt = burst 2 h k := by
  obtain ⟨h, k, hr, hlive, htype, hinfo, hk, hb⟩ := exists_kRun (n := 1)
    (P := fun h k => (k.ptable.proc 2).state ≠ .unused ∧ (k.ptable.proc 2).type = .idle ∧
      calledInfo 2 h = false ∧ (k.ptable.proc 2).killed = false ∧ burst 2 h k = 2)
    (List.flatten [userinitActs 1, [.scheduler 0], forkActs 0, [.wait 0, .scheduler 0], forkActs 0,
      [.sleep 0 0, .scheduler 0, .timer 0, .sleep 0 1, .wakeup 1, .scheduler 0, .timer 0]])
    (by decide +kernel)
  exact ⟨h, k, hr, hk, hb, ((cpuBurst_eq_burst hr 2 hlive htype hinfo).1 hk).1⟩

end Xv6Mlfq
