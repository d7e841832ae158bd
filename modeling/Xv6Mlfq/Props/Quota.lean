import Xv6Mlfq.Props.Accounting
import Xv6Mlfq.Props.Kill
import Xv6Mlfq.Kernel.Trap

/-!
# The quota of CPU time

`set_proc_info` gives its caller a quota `E` (`quotaSince`). The timer interrupt that brings
`total_cpu_time` to `E` marks the process killed and no earlier one does; what follows depends on where the
interrupt found the process. Anywhere but after the last test of `killed` in `trap`, the process meets
another test before it is back in user space (`Ctl.Doomed`). There it returns to user space and goes on
until its next trap (`runs_after_quota`).
-/

namespace Xv6Mlfq

open Lib

variable {n : Nat} {k k' : Kernel n} {a : Act n} {p q : PIdx} {x y : Proc} {h : List (Event n)} {E : Int32}

/-! ## The quota in force -/

/-- `p` set its quota to `E` while it had used less, and has not changed it since. -/
def quotaSince (p : PIdx) (E : Int32) : List (Event n) → Bool
  | [] => false
  | (k, a) :: h =>
    if created k a = some p then false
    else if (infoCall k a).any fun r => r.1 = p then
      (infoCall k a).any (fun r => r.2.endTime = E) && ((k.ptable.proc p).totalCpuTime < E || quotaSince p E h)
    else quotaSince p E h

/-- The interrupt brings `total_cpu_time` of the process it found to the quota. -/
def UsesUp (p : PIdx) (E : Int32) (k : Kernel n) (a : Act n) : Prop :=
  interrupted k a = some p ∧ (k.ptable.proc p).totalCpuTime + 1 = E

theorem quotaSince_of_created (hc : created k a = some p) : quotaSince p E ((k, a) :: h) = false := by
  simp [quotaSince, hc]

theorem quotaSince_of_infoCall {info : ProcInfo} (hi : infoCall k a = some (p, info))
    (hq : quotaSince p E ((k, a) :: h) = true) :
    info.endTime = E ∧ ((k.ptable.proc p).totalCpuTime < E ∨ quotaSince p E h = true) := by
  simpa [quotaSince, created_of_infoCall hi, hi] using hq

theorem quotaSince_of_quiet (hi : ∀ info, infoCall k a ≠ some (p, info))
    (hq : quotaSince p E ((k, a) :: h) = true) : quotaSince p E h = true := by
  have hno : ¬ (infoCall k a).any fun r => r.1 = p := by
    cases hr : infoCall k a with
    | none => simp
    | some r =>
      have : r.1 ≠ p := fun heq => hi r.2 (by rw [hr, ← heq])
      simpa using this
  unfold quotaSince at hq
  split_ifs at hq
  exact hq

theorem Pass.endTime {ticks : UInt32} (hy : Pass ticks p q x y) : y.endTime = x.endTime := by
  cases hy with
  | expired =>
    unfold demoteProcess
    split_ifs <;> rfl
  | _ => rfl

theorem KRun.quota_endTime (hr : KRun h k) (hq : quotaSince p E h = true) :
    (k.ptable.proc p).endTime = E := by
  induction hr with
  | start => cases hq
  | @next h k k' a hr hstep ih =>
    obtain ⟨x, y, hx, hy, hc⟩ := KRun.change hr hstep p
    rw [← hy]
    rw [← hx] at ih
    cases hc with
    | alloc hc => simp [quotaSince_of_created hc] at hq
    | startInit ha hb => simp [quotaSince_of_created (created_startInit ha hb)] at hq
    | startChild ha hp hf => simp [quotaSince_of_created (created_startChild ha hp hf)] at hq
    | setInfo hi => exact (quotaSince_of_infoCall hi hq).1
    | timer ht hp =>
      rw [hp.endTime]
      exact ih (quotaSince_of_quiet (by simp [infoCall_of_interrupted ht]) hq)
    | keep _ hi _ hk =>
      rw [hk.endTime]
      exact ih (quotaSince_of_quiet hi hq)

theorem toInt_add_one_of_lt {t : Int32} (ht : t < E) : (t + 1).toInt = t.toInt + 1 := by
  have hlt := Int32.lt_iff_toInt_lt.mp ht
  have hE := E.toInt_lt
  have hlow := t.le_toInt
  rw [Int32.toInt_add]
  apply Int.bmod_eq_of_le
  · show -2147483648 ≤ t.toInt + 1
    omega
  · show t.toInt + 1 < 2147483648
    omega

/-- Below the quota, an interrupt finds it used up exactly if it brings the time to the quota. -/
theorem quotaUsed_iff {x : Sched} (hE : 0 < E) (hend : x.endTime = E) (hlt : x.totalCpuTime < E) :
    QuotaUsed x ↔ x.totalCpuTime + 1 = E := by
  have hone := toInt_add_one_of_lt hlt
  have hlt := Int32.lt_iff_toInt_lt.mp hlt
  unfold QuotaUsed
  rw [hend]
  refine ⟨fun hu => Int32.toInt_inj.mp ?_, fun heq => ⟨hE, ?_⟩⟩
  · have hge := Int32.le_iff_toInt_le.mp hu.2
    omega
  · rw [heq]
    exact Int32.le_refl E

theorem KRun.below_quota {h : List (Event 1)} {k : Kernel 1} (hr : KRun h k)
    (hq : quotaSince p E h = true) :
    (k.ptable.proc p).totalCpuTime < E ∨ ∃ e ∈ h, UsesUp p E e.1 e.2 := by
  induction hr with
  | start => cases hq
  | @next h k k' a hr hstep ih =>
    have hearlier : (∃ e ∈ h, UsesUp p E e.1 e.2) → ∃ e ∈ (k, a) :: h, UsesUp p E e.1 e.2 :=
      fun ⟨e, he, hu⟩ => ⟨e, List.mem_cons_of_mem _ he, hu⟩
    obtain ⟨x, y, hx, hy, hc⟩ := KRun.change hr hstep p
    rw [← hy]
    cases hc with
    | alloc hc => simp [quotaSince_of_created hc] at hq
    | startInit ha hb => simp [quotaSince_of_created (created_startInit ha hb)] at hq
    | startChild ha hp hf => simp [quotaSince_of_created (created_startChild ha hp hf)] at hq
    | setInfo hi =>
      show x.totalCpuTime < E ∨ _
      rw [hx]
      rcases (quotaSince_of_infoCall hi hq).2 with hlt | hq
      · exact .inl hlt
      · exact (ih hq).imp_right hearlier
    | @timer r _ ht hp =>
      rw [hp.totalCpuTime, hx]
      rcases ih (quotaSince_of_quiet (by simp [infoCall_of_interrupted ht]) hq) with hlt | hused
      · split_ifs with hs
        · -- on one CPU the running process is the one the interrupt found
          obtain ⟨c, rfl, hc⟩ := interrupted_eq_some.mp ht
          obtain ⟨c', hc'⟩ := (KRun.good hr).valid.onCpu p hs
          have hcpu : k.cpus c = some p := (Subsingleton.elim c' c) ▸ hc'
          by_cases heq : (k.ptable.proc p).totalCpuTime + 1 = E
          · exact .inr ⟨(k, .timer c), List.mem_cons_self, hcpu, heq⟩
          · left
            have hone := toInt_add_one_of_lt hlt
            have hlt := Int32.lt_iff_toInt_lt.mp hlt
            have hne : ((k.ptable.proc p).totalCpuTime + 1).toInt ≠ E.toInt := fun h => heq (Int32.toInt_inj.mp h)
            apply Int32.lt_iff_toInt_lt.mpr
            omega
        · left
          simpa using hlt
      · exact .inr (hearlier hused)
    | keep _ hi _ hk =>
      rw [hk.totalCpuTime, hx]
      exact (ih (quotaSince_of_quiet hi hq)).imp_right hearlier

theorem Pass.killed {ticks : UInt32} (hy : Pass ticks p q x y) :
    y.killed = true ↔ x.killed = true ∨ q = p ∧ x.state = .running ∧ QuotaUsed x.toSched := by
  cases hy with
  | ran hs hq =>
    have : ¬ (q = p ∧ x.state = .running ∧ QuotaUsed x.toSched) := fun ⟨heq, _, hu⟩ => (hq heq).1 hu
    simp [ranSlot, this]
  | quota heq hs hu => simp [heq, hs, hu]
  | expired heq hs he =>
    have hk : (demoteProcess (ranSlot x)).killed = x.killed := by
      unfold demoteProcess
      split_ifs <;> rfl
    simp [hk, he.1]
  | waited hs => simp [waitedSlot, hs]
  | promoted hs => simp [promoteSlot, waitedSlot, hs]
  | slept hs => simp [sleptSlot, hs]
  | idle hs =>
    have hrun : x.state ≠ .running := fun h => hs (.inr (.inr h))
    simp [hrun]

theorem KRun.timer_pass {c : Fin n} (hr : KRun h k) (hs : step k (.timer c) = .ok k') (hp : k.cpus c = some p)
    (q : PIdx) : ∃ x y : Proc, x.toSched = (k.ptable.proc q).toSched ∧
      y.toSched = (k'.ptable.proc q).toSched ∧ Pass k.ticks p q x y := by
  obtain ⟨x, y, hx, hy, hc⟩ := KRun.change hr hs q
  refine ⟨x, y, hx, hy, ?_⟩
  cases hc with
  | alloc hc => simp [created] at hc
  | startInit ha => simp at ha
  | startChild ha => simp at ha
  | setInfo hi => simp [infoCall] at hi
  | timer ht hy =>
    obtain rfl : p = _ := Option.some.inj (hp.symm.trans ht)
    exact hy
  | keep _ _ ht => simp [interrupted, hp] at ht

theorem timer_idle {c : Fin n} (hs : step k (.timer c) = .ok k') (hc : k.cpus c = none) : k' = k := by
  simp only [step, hc] at hs
  split_ifs at hs
  cases hs
  rfl

/-- A timer interrupt marks the process it finds, if its quota is used up, and no other. -/
theorem KRun.timer_killed {c : Fin n} (hr : KRun h k) (hs : step k (.timer c) = .ok k') (q : PIdx) :
    (k'.ptable.proc q).killed = true ↔
      (k.ptable.proc q).killed = true ∨ k.cpus c = some q ∧ QuotaUsed (k.ptable.proc q).toSched := by
  cases hc : k.cpus c with
  | none => simp [timer_idle hs hc]
  | some p =>
    obtain ⟨x, y, hx, hy, hpass⟩ := hr.timer_pass hs hc q
    rw [← hy, ← hx, hpass.killed]
    refine or_congr_right ⟨fun ⟨heq, _, hu⟩ => ⟨heq ▸ rfl, hu⟩, fun ⟨heq, hu⟩ => ?_⟩
    obtain rfl : p = q := Option.some.inj heq
    refine ⟨rfl, ?_, hu⟩
    rw [hx]
    exact hr.good.valid.running c p hc

/-! ## The way out of the kernel -/

/-- A killed process that is here meets a test of `killed` before it is back in user space. -/
def Ctl.Doomed : Ctl → Prop
  | .run w => w ≠ .user ∧ w ≠ .ret
  | .ticked w => w ≠ .user ∧ w ≠ .ret
  | .counting w => w ≠ .user ∧ w ≠ .ret
  | .handled w _ => w ≠ .ret
  | .tested w _ => w ≠ .user ∧ w ≠ .ret
  | .yielded w => w ≠ .user ∧ w ≠ .ret

variable {m m' m'' : Machine n} {b : TAct n} {u v : Ctl} {w : List (TEvent n)} {pid : Int32}

theorem Goes.doomed (hg : Goes m b q u v) (hu : u.Doomed) (hk : m.killed q = true)
    (hnew : ∀ c, b.act m = some c → c.starts m.k ≠ some q) : v.Doomed := by
  cases hg with
  | stay => exact hu
  | start hb hq => exact absurd hq (hnew _ hb)
  | int => simp [Ctl.Doomed] at hu
  | iret => simp [Ctl.Doomed] at hu
  | first => simp [hk, Ctl.Doomed]
  | second => simp [hk, Ctl.Doomed]
  | sysExit => simp [Ctl.Doomed]
  | sysDone => simp [Ctl.Doomed]
  | tick => exact hu
  | timer => exact hu
  | wakeTicks => exact hu
  | count => exact hu.2
  | device => exact hu.2
  | @test w t =>
    by_cases hw : w = .user
    · simp [hk, hw, Ctl.Doomed]
    · rw [if_neg (fun h => hw h.2)]
      exact ⟨hw, hu⟩
  | yield => exact hu
  | retest =>
    rw [if_neg (fun h => hu.1 h.2)]
    exact hu

/-- The process with this pid, if it still is in slot `p`, is killed and on its way out. -/
structure Dying (p : PIdx) (pid : Int32) (m : Machine n) : Prop where
  old : pid < m.k.nextpid
  gone : (m.k.ptable.proc p).pid = pid → (m.k.ptable.proc p).state ≠ .unused →
    (m.k.ptable.proc p).state ≠ .embryo ∧ m.killed p = true ∧ (m.ctl p).Doomed

theorem Change.dying (hc : Change k a q x y) (hold : pid < k.nextpid)
    (hx : x.pid = pid → x.state ≠ .unused → x.state ≠ .embryo ∧ x.killed = true) (hpid : y.pid = pid)
    (hs : y.state ≠ .unused) :
    (x.pid = pid ∧ x.state ≠ .unused) ∧ y.state ≠ .embryo ∧ y.killed = true := by
  cases hc with
  | alloc =>
    have : k.nextpid = pid := hpid
    exact absurd hold (this ▸ Int32.lt_irrefl)
  | startInit _ _ hem => exact absurd hem (hx hpid (by simp [hem])).1
  | startChild _ _ _ hem => exact absurd hem (hx (startSlot_pid.symm.trans hpid) (by simp [hem])).1
  | setInfo _ hrun =>
    have hun : x.state ≠ .unused := by simp [hrun]
    exact ⟨⟨hpid, hun⟩, hx hpid hun⟩
  | timer _ hp =>
    rw [hp.pid] at hpid
    rw [hp.state] at hs ⊢
    obtain ⟨hem, hk⟩ := hx hpid hs
    exact ⟨⟨hpid, hs⟩, hem, hp.killed.mpr (.inl hk)⟩
  | keep _ _ _ hk =>
    have hpid' : x.pid = pid := (hk.pid hs).symm.trans hpid
    have hun : x.state ≠ .unused := fun h => hs (hk.unused h)
    obtain ⟨hem, hkilled⟩ := hx hpid' hun
    refine ⟨⟨hpid', hun⟩, fun h => hem (hk.notEmbryo h), ?_⟩
    cases hy : y.killed with
    | true => rfl
    | false =>
      rcases hk.killed hy with h | h
      · simp [hkilled] at h
      · exact absurd h hs

theorem starts_embryo (hk : Good k) {np : PIdx} (hb : a.starts k = some np) :
    (k.ptable.proc np).state = .embryo := by
  cases a with
  | userinitEnqueue => exact hk.valid.bootNp np hb
  | forkEnqueue c =>
    obtain ⟨r, _, hr⟩ := Option.bind_eq_some_iff.mp hb
    exact hk.valid.child r np hr
  | _ => cases hb

theorem nextpid_mono (ht : Trans k.view a k'.view) (h : pid < k.nextpid) : pid < k'.nextpid := by
  have hmax : Int32.maxValue = 2147483647 := rfl
  have hnext : k'.nextpid = k.nextpid ∨ k.nextpid ≠ Int32.maxValue ∧ k'.nextpid = k.nextpid + 1 := ht.nextpid
  grind

theorem Dying.step {g : List (TEvent n)} (hd : Dying p pid m) (hr : TRun g m) (hs : tstep m b = .ok m') :
    Dying p pid m' := by
  obtain ⟨hkernel, hgoes⟩ := tstep_spec hs
  have hgood := hr.kernel.good
  have hnew : (m.k.ptable.proc p).state ≠ .embryo → ∀ c, b.act m = some c → c.starts m.k ≠ some p :=
    fun hne c _ hc => hne (starts_embryo hgood hc)
  rcases hkernel with ⟨_, hk⟩ | ⟨c, hc, hk⟩
  · refine ⟨hk ▸ hd.old, ?_⟩
    unfold Machine.killed
    rw [hk]
    intro hpid hun
    obtain ⟨hem, hkilled, hdoom⟩ := hd.gone hpid hun
    exact ⟨hem, hkilled, (hgoes p).doomed hdoom hkilled (hnew hem)⟩
  · refine ⟨nextpid_mono (hr.kernel.trans hk) hd.old, fun hpid hun => ?_⟩
    obtain ⟨x, y, hx, hy, hchange⟩ := KRun.change hr.kernel hk p
    have hold : x.pid = pid → x.state ≠ .unused → x.state ≠ .embryo ∧ x.killed = true := by
      rw [hx]
      exact fun h₁ h₂ => ⟨(hd.gone h₁ h₂).1, (hd.gone h₁ h₂).2.1⟩
    obtain ⟨⟨h₁, h₂⟩, hem, hkilled⟩ := hchange.dying hd.old hold (hy ▸ hpid) (hy ▸ hun)
    rw [hx] at h₁ h₂
    obtain ⟨hem', hkilled', hdoom⟩ := hd.gone h₁ h₂
    exact ⟨hy ▸ hem, (congrArg (fun z => z.killed) hy).symm.trans hkilled, (hgoes p).doomed hdoom hkilled' (hnew hem')⟩

theorem Dying.no_instr {c : Fin n} {g : List (TEvent n)} (hd : Dying p pid m) (hr : TRun g m)
    (hs : tstep m (.instr c) = .ok m') (hpid : (m.k.ptable.proc p).pid = pid) : m.k.cpus c ≠ some p := by
  intro hc
  have hrun : (m.k.ptable.proc p).state = .running := hr.kernel.good.valid.running c p hc
  obtain ⟨_, _, hdoom⟩ := hd.gone hpid (by simp [hrun])
  simp only [tstep] at hs
  obtain ⟨r, hr', hs⟩ := onProc_ok hs
  obtain rfl : p = r := Option.some.inj (hc.symm.trans hr')
  split at hs
  · rename_i hctl
    rw [hctl] at hdoom
    exact hdoom.1 rfl
  · cases hs

theorem Dying.run {g : List (TEvent n)} (hd : Dying p pid m) (hr : TRun g m) (hw : Run tstep m w m') :
    Dying p pid m' ∧
      ∀ e ∈ w, ∀ c, e.2 = .instr c → e.1.k.cpus c = some p → (e.1.k.ptable.proc p).pid ≠ pid := by
  induction hw with
  | start => exact ⟨hd, by simp⟩
  | @next w m₁ m₂ b hw hs ih =>
    obtain ⟨hd₁, hno⟩ := ih
    have hr₁ : TRun (w ++ g) m₁ := hr.append hw
    refine ⟨hd₁.step hr₁ hs, fun e he => ?_⟩
    rcases List.mem_cons.mp he with rfl | he
    · rintro c rfl hc hpid
      exact hd₁.no_instr hr₁ hs hpid hc
    · exact hno e he

/-- The interrupt that uses the quota up leaves the process on its way out, unless it arrived between the
last test of `killed` and `iret`. -/
theorem dying_of_count {c : Fin n} {g : List (TEvent n)} (hr : TRun g m) (hs : tstep m (.count c) = .ok m')
    (hp : m.k.cpus c = some p) (hu : QuotaUsed (m.k.ptable.proc p).toSched) (hret : m.ctl p ≠ .counting .ret) :
    Dying p (m.k.ptable.proc p).pid m' := by
  obtain ⟨r, w, hr', hw, hctl, hk⟩ := count_ok hs
  obtain rfl : p = r := Option.some.inj (hp.symm.trans hr')
  obtain ⟨x, y, hx, hy, hpass⟩ := hr.kernel.timer_pass hk hp p
  refine ⟨nextpid_mono (hr.kernel.trans hk) (hr.kernel.pidsFresh.lt p), fun _ _ => ⟨?_, ?_, ?_⟩⟩
  · have hrun : (m.k.ptable.proc p).state = .running := hr.kernel.good.valid.running c p hp
    rw [← hy, hpass.state, hx, hrun]
    simp
  · exact (hr.kernel.timer_killed hk p).mpr (.inr ⟨hp, hu⟩)
  · rw [hctl]
    rintro rfl
    exact hret hw

/-! ## One CPU -/

/-- The interrupt whose section of `ptable.lock` is next found `p` after the last test of `killed`, on its
way to `iret`. -/
def Returning (m : Machine n) (p : PIdx) : Prop := m.ctl p = .counting .ret

instance (m : Machine n) (p : PIdx) : Decidable (Returning m p) := inferInstanceAs (Decidable (_ = _))

instance (p : PIdx) (E : Int32) (k : Kernel n) (a : Act n) : Decidable (UsesUp p E k a) :=
  inferInstanceAs (Decidable (_ ∧ _))

/-- **The quota.** On one CPU, `total_cpu_time` is the number of timer interrupts that found `p` running.
It stays below the quota of `p` until an interrupt brings it there; that interrupt marks `p` killed, and none
before it. Unless `p` was returning to user space, it executes no user instruction from then on. -/
theorem quota_enforced {h : List (TEvent 1)} {m : Machine 1} (hr : TRun h m) (p : PIdx) (E : Int32) (hE : 0 < E)
    (hq : quotaSince p E (kernelHist h) = true) :
    (m.k.ptable.proc p).totalCpuTime = Int32.ofNat (interruptsRunning p (kernelHist h)) ∧
    ((m.k.ptable.proc p).totalCpuTime < E ∨ ∃ e ∈ kernelHist h, UsesUp p E e.1 e.2) ∧
    (∀ c k', (m.k.ptable.proc p).totalCpuTime < E → step m.k (.timer c) = .ok k' →
      ((k'.ptable.proc p).killed = true ↔
        (m.k.ptable.proc p).killed = true ∨ UsesUp p E m.k (.timer c))) ∧
    ∀ c m', UsesUp p E m.k (.timer c) → (m.k.ptable.proc p).totalCpuTime < E → ¬ Returning m p →
      tstep m (.count c) = .ok m' → ∀ w m'', Run tstep m' w m'' → ∀ e ∈ w, ∀ c', e.2 = .instr c' →
        e.1.k.cpus c' = some p → (e.1.k.ptable.proc p).pid ≠ (m.k.ptable.proc p).pid := by
  have hend := hr.kernel.quota_endTime hq
  refine ⟨hr.kernel.totalCpuTime_interrupts p, hr.kernel.below_quota hq, fun c k' hlt hs => ?_, ?_⟩
  · rw [hr.kernel.timer_killed hs, quotaUsed_iff hE hend hlt]
    rfl
  · intro c m' hu hlt hret hs w m'' hw
    have hused := (quotaUsed_iff hE hend hlt).mpr hu.2
    exact ((dying_of_count hr hs hu.1 hused hret).run (hr.next hs) hw).2

/-- Init forks, waits, and its child, process 1, sets its quota to one interrupt. -/
def quotaActs : List (TAct 1) := List.flatten [(userinitActs 1).map .kernel,
  [.kernel (.scheduler 0), .iret 0, .int 0, .first 0], (forkActs 0).map (.sys 0),
  [.sysDone 0, .second 0, .iret 0, .int 0, .first 0, .sys 0 (.wait 0), .kernel (.scheduler 0), .iret 0,
    .int 0, .first 0, .sys 0 (.setProcInfo 0 ⟨0, 0, 0, 0, 1⟩), .sysDone 0, .second 0]]

/-- The child is back in user space when its quota is used up. -/
theorem quota_enforced_user : ∃ (h : List (TEvent 1)) (m m' : Machine 1), TRun h m ∧
    (quotaSince 1 1 (kernelHist h) = true ∧ UsesUp 1 1 m.k (.timer 0) ∧ ¬ Returning m 1) ∧
    tstep m (.count 0) = .ok m' ∧ ∀ w m'', Run tstep m' w m'' → ∀ e ∈ w, ∀ c', e.2 = .instr c' →
      e.1.k.cpus c' = some 1 → (e.1.k.ptable.proc 1).pid ≠ 2 := by
  obtain ⟨h, m, hr, hq, hu, hlt, hret, hpid, hs⟩ := exists_run_of_exec tstep (tboot 1)
    (P := fun h m => quotaSince 1 1 (kernelHist h) = true ∧ UsesUp 1 1 m.k (.timer 0) ∧
      (m.k.ptable.proc 1).totalCpuTime < 1 ∧ ¬ Returning m 1 ∧ (m.k.ptable.proc 1).pid = 2 ∧
      Sat (tstep m (.count 0)) (fun _ => True) (fun _ => False))
    (List.flatten [quotaActs, [.iret 0, .timer 0, .wakeTicks 0]]) (by decide +kernel)
  obtain ⟨m', hm', _⟩ := hs.exists_ok
  refine ⟨h, m, m', hr, ⟨hq, hu, hret⟩, hm', ?_⟩
  rw [← hpid]
  exact (quota_enforced hr 1 1 (by decide) hq).2.2.2 0 m' hu hlt hret hm'

/-- **A user instruction after the quota.** The interrupt that uses the quota up arrives after the last test
of `killed`, and process 1 goes on in user space. -/
theorem runs_after_quota : ∃ (h w : List (TEvent 1)) (m m' m'' : Machine 1), TRun h m ∧
    (m.k.initproc = some 0 ∧ quotaSince 1 1 (kernelHist h) = true ∧ UsesUp 1 1 m.k (.timer 0)) ∧
    (m.k.ptable.proc 1).pid = 2 ∧ tstep m (.count 0) = .ok m' ∧ Run tstep m' w m'' ∧
    ∃ e ∈ w, e.2 = .instr 0 ∧ e.1.k.cpus 0 = some 1 ∧ (e.1.k.ptable.proc 1).pid = 2 ∧
      (e.1.k.ptable.proc 1).killed = true := by
  obtain ⟨h, m, hr, hq, hpid, hs⟩ := exists_run_of_exec tstep (tboot 1)
    (P := fun h m => (m.k.initproc = some 0 ∧ quotaSince 1 1 (kernelHist h) = true ∧
        UsesUp 1 1 m.k (.timer 0)) ∧ (m.k.ptable.proc 1).pid = 2 ∧
      Sat (tstep m (.count 0)) (fun m' => Sat (exec tstep [] m'
        [.test 0, .yield 0, .kernel (.scheduler 0), .retest 0, .iret 0, .instr 0])
        (fun r => ∃ e ∈ r.1, e.2 = .instr 0 ∧ e.1.k.cpus 0 = some 1 ∧ (e.1.k.ptable.proc 1).pid = 2 ∧
          (e.1.k.ptable.proc 1).killed = true) (fun _ => False)) (fun _ => False))
    (List.flatten [quotaActs, [.timer 0, .wakeTicks 0]]) (by decide +kernel)
  obtain ⟨m', hm', hs⟩ := hs.exists_ok
  obtain ⟨w, m'', hw, he⟩ := exists_run_of_exec tstep m'
    (P := fun w _ => ∃ e ∈ w, e.2 = .instr 0 ∧ e.1.k.cpus 0 = some 1 ∧ (e.1.k.ptable.proc 1).pid = 2 ∧
      (e.1.k.ptable.proc 1).killed = true) _ hs
  exact ⟨h, w, m, m', m'', hr, hq, hpid, hm', hw, he⟩

end Xv6Mlfq
