import Xv6Mlfq.Sched.Refine

/-!
# The kernel refines the machine without pointers

`step_refines`: from well-formed run queues and valid owners, a step of the kernel keeps the run
queues well formed and is a step of `Trans` with the links erased, or it stops for one of the reasons
in `Halts`. By induction every reachable state has well-formed run queues and valid owners
(`Reachable.good`), and every step of a run is a step of `Trans` (`KRun.trans`).
-/

namespace Xv6Mlfq

open Lib

variable {n : Nat} {k k' : Kernel n} {c : Fin n} {p : PIdx} {a : Act n} {h : List (Event n)}

/-- Why a step may stop, from a state with the given view. -/
inductive Halts (v : View n) : Stop → Prop
  | notEnabled : Halts v .notEnabled
  | overflow (h : v.nextpid = Int32.maxValue) : Halts v .overflow
  | noMemory (h : v.boot ≠ .done) : Halts v .nullDeref
  | noPageTable (h : v.boot ≠ .done) : Halts v (.panic "userinit: out of memory?")
  | initExiting {c : Fin n} {p : PIdx} (hc : v.cpus c = some p) (hinit : v.initproc = some p) :
      Halts v (.panic "init exiting")
  | badLevel {p : PIdx} {e : Stop}
      (hp : (v.proc p).state = .sleeping ∨ (v.proc p).state = .running)
      (hl : levelOf (v.proc p).qLevel = none)
      (he : e = .panic "invalid queue level" ∨ e = .outOfRange .queues ∨
        e = .outOfRange .timeQuantum) : Halts v e

theorem Halts.levelOf_eq_none {e : Stop} (h : Halts k.view e)
    (he : e = .panic "invalid queue level" ∨ ∃ array, e = .outOfRange array) :
    ∃ p, levelOf (k.ptable.proc p).qLevel = none := by
  cases h with
  | badLevel _ hl _ => exact ⟨_, hl⟩
  | _ => simp at he

structure Good (k : Kernel n) : Prop where
  queued : WellQueued k.ptable
  valid : k.view.Valid

section steps

variable {Q : Kernel n → Prop} {f : PIdx → Except Stop (Kernel n)}

theorem onCpu_spec (hf : ∀ p, k.cpus c = some p → Sat (f p) Q (Halts k.view)) :
    Sat (onCpu k c f) Q (Halts k.view) := by
  unfold onCpu
  cases hc : k.cpus c with
  | none => exact .notEnabled
  | some p => exact hf p hc

theorem onCpuFree_spec (hf : ∀ p, k.cpus c = some p → (k.ptable.proc p).fork = .none →
      Sat (f p) Q (Halts k.view)) : Sat (onCpuFree k c f) Q (Halts k.view) := by
  refine onCpu_spec fun p hc => ?_
  exact Sat.ite (fun hfork => hf p hc hfork) fun _ => .notEnabled

end steps

/-! ## Creating processes -/

theorem local_allocSlot (pid : Int32) : Local (allocSlot pid) := fun _ => rfl

theorem allocproc_spec (hk : Good k) :
    Sat (allocproc k)
      (fun r => (k.view.first (fun x => x.state = .unused) = none ∧ r = (k, none)) ∨
        ∃ p, k.view.first (fun x => x.state = .unused) = some p ∧ k.nextpid ≠ Int32.maxValue ∧
          WellQueued (k.ptable.modify p (allocSlot k.nextpid)) ∧
          r = ({ k.modify p (allocSlot k.nextpid) with nextpid := k.nextpid + 1 }, some p))
      (Halts k.view) := by
  unfold allocproc
  rw [view_first fun _ => rfl]
  cases hfirst : k.view.first fun x => x.state = .unused with
  | none => exact .inl ⟨rfl, rfl⟩
  | some p =>
    refine Sat.ite (fun hmax => .overflow hmax) fun hmax => ?_
    have hun : (k.ptable.proc p).state = .unused := of_decide_eq_true (View.first_eq_some hfirst)
    have hq := hk.queued.modify (p := p) (by simp [hun]) (local_allocSlot k.nextpid) (by simp [allocSlot])
    exact .inr ⟨p, rfl, hmax, hq, rfl⟩

/-- A step that keeps the queues and is a step of the machine without links. -/
abbrev Refines (k : Kernel n) (a : Act n) (k' : Kernel n) : Prop :=
  WellQueued k'.ptable ∧ Trans k.view a k'.view

theorem userinitAlloc_spec (hk : Good k) :
    Sat (userinitAlloc k) (Refines k .userinitAlloc) (Halts k.view) := by
  unfold userinitAlloc
  refine Sat.ite (fun hboot => ?_) fun _ => .notEnabled
  refine Sat.bind (allocproc_spec hk) ?_
  rintro _ (⟨_, rfl⟩ | ⟨p, hfirst, hmax, hq, rfl⟩)
  · exact .noMemory (by simp [Kernel.view, hboot])
  · refine ⟨hq, ?_⟩
    have htrans := Trans.userinitAlloc (v := k.view) hboot hfirst hmax
    rw [← view_modify (local_allocSlot _)] at htrans
    exact htrans

theorem userinitKalloc_spec (hk : Good k) (ok : Bool) :
    Sat (userinitKalloc k ok) (Refines k (.userinitKalloc ok)) (Halts k.view) := by
  unfold userinitKalloc
  cases hboot : k.boot with
  | kalloc p =>
    cases ok with
    | false => exact .noMemory (by simp [Kernel.view, hboot])
    | true =>
      have hem : (k.ptable.proc p).state = .embryo :=
        hk.valid.bootNp p (by simp [Kernel.view, hboot, Boot.np])
      have hf : Local (allocStack true) := fun _ => rfl
      have htrans := Trans.userinitKalloc (v := k.view) hboot
      rw [← view_modify hf] at htrans
      exact ⟨hk.queued.modify (by simp [hem]) hf (by simp [allocStack, hem]), htrans⟩
  | _ => exact .notEnabled

theorem userinitSetupkvm_spec (hk : Good k) (ok : Bool) :
    Sat (userinitSetupkvm k ok) (Refines k (.userinitSetupkvm ok)) (Halts k.view) := by
  unfold userinitSetupkvm
  cases hboot : k.boot with
  | setupkvm p =>
    cases ok with
    | false => exact .noPageTable (by simp [Kernel.view, hboot])
    | true => exact ⟨hk.queued, .userinitSetupkvm (v := k.view) hboot⟩
  | _ => exact .notEnabled

theorem userinitEnqueue_spec (hk : Good k) :
    Sat (userinitEnqueue k) (Refines k .userinitEnqueue) (Halts k.view) := by
  unfold userinitEnqueue
  cases hboot : k.boot with
  | enqueue p =>
    have hem : (k.ptable.proc p).state = .embryo :=
      hk.valid.bootNp p (by simp [Kernel.view, hboot, Boot.np])
    have hadd := hk.queued.enqueue (p := p) (f := userinitSlot) (by simp [hem]) (fun _ => rfl) rfl
      k.ticks
    refine Sat.bind (hadd.mono (fun _ h => h) ?_) ?_
    · rintro e ⟨_, hl⟩
      cases hl
    · rintro t ⟨hqt, hbody⟩
      refine ⟨hqt, ?_⟩
      have htrans := Trans.userinitEnqueue (v := k.view) hboot
      rw [← view_set (t := t) (k := k) hbody] at htrans
      exact htrans
  | _ => exact .notEnabled

theorem local_fork (s : Fork) : Local fun x => { x with fork := s } := fun _ => rfl

theorem wellQueued_fork {t : Ptable} (hq : WellQueued t) (p : PIdx) (s : Fork) :
    WellQueued (t.modify p fun x => { x with fork := s }) :=
  hq.modify_keep (fun _ => ⟨rfl, rfl⟩) fun _ => ⟨rfl, rfl, rfl, rfl⟩

theorem forkAlloc_spec (hk : Good k) (hc : k.cpus c = some p)
    (hfork : (k.ptable.proc p).fork = .none) :
    Sat (forkAlloc k p) (Refines k (.forkAlloc c)) (Halts k.view) := by
  unfold forkAlloc
  refine Sat.bind (allocproc_spec hk) ?_
  rintro _ (⟨hfirst, rfl⟩ | ⟨np, hfirst, hmax, hq, rfl⟩)
  · exact ⟨hk.queued, .forkAllocFail hc hfork hfirst⟩
  · refine ⟨wellQueued_fork hq p _, ?_⟩
    have htrans := Trans.forkAlloc (v := k.view) hc hfork hfirst hmax
    rw [← view_modify (local_allocSlot _), ← view_modify (local_fork _)] at htrans
    exact htrans

theorem forkKalloc_spec (hk : Good k) (hc : k.cpus c = some p) (ok : Bool) :
    Sat (forkKalloc k p ok) (Refines k (.forkKalloc c ok)) (Halts k.view) := by
  unfold forkKalloc
  cases hfork : (k.ptable.proc p).fork with
  | kalloc np =>
    have hem : (k.ptable.proc np).state = .embryo :=
      hk.valid.child p np (by show (k.ptable.proc p).fork.np = _; rw [hfork]; rfl)
    have hf : Local (allocStack ok) := by
      intro x
      cases ok <;> rfl
    refine ⟨wellQueued_fork (hk.queued.modify (by simp [hem]) hf ?_) p _, ?_⟩
    · cases ok <;> simp [allocStack, hem]
    · have htrans := Trans.forkKalloc (v := k.view) ok hc hfork
      rw [← view_modify hf, ← view_modify (local_fork _)] at htrans
      exact htrans
  | _ => exact .notEnabled

theorem forkCopyuvm_spec (hk : Good k) (hc : k.cpus c = some p) (ok : Bool) :
    Sat (forkCopyuvm k p ok) (Refines k (.forkCopyuvm c ok)) (Halts k.view) := by
  unfold forkCopyuvm
  cases hfork : (k.ptable.proc p).fork with
  | copyuvm np =>
    have hem : (k.ptable.proc np).state = .embryo :=
      hk.valid.child p np (by show (k.ptable.proc p).fork.np = _; rw [hfork]; rfl)
    have hf : Local (copySlot ok p) := by
      intro x
      cases ok <;> rfl
    refine ⟨wellQueued_fork (hk.queued.modify (by simp [hem]) hf ?_) p _, ?_⟩
    · cases ok <;> simp [copySlot, hem]
    · have htrans := Trans.forkCopyuvm (v := k.view) ok hc hfork
      rw [← view_modify hf, ← view_modify (local_fork _)] at htrans
      exact htrans
  | _ => exact .notEnabled

theorem forkEnqueue_spec (hk : Good k) (hc : k.cpus c = some p) :
    Sat (forkEnqueue k p) (Refines k (.forkEnqueue c)) (Halts k.view) := by
  unfold forkEnqueue
  cases hfork : (k.ptable.proc p).fork with
  | enqueue np =>
    have hem : (k.ptable.proc np).state = .embryo :=
      hk.valid.child p np (by show (k.ptable.proc p).fork.np = _; rw [hfork]; rfl)
    have hf : Local (forkSlot (k.ptable.proc p).pid) := by
      intro x
      unfold forkSlot Proc.body
      dsimp only
      split <;> rfl
    have hstate : (forkSlot (k.ptable.proc p).pid (k.ptable.proc np)).state = .runnable := by
      unfold forkSlot
      dsimp only
      split <;> rfl
    have hlevel : levelOf (forkSlot (k.ptable.proc p).pid (k.ptable.proc np)).qLevel ≠ none := by
      unfold forkSlot
      dsimp only
      split <;> simp [levelOf]
    have hadd := hk.queued.enqueue (p := np) (by simp [hem]) hf hstate k.ticks
    refine Sat.bind (hadd.mono (fun _ h => h) ?_) fun t ⟨hqt, hbody⟩ => ⟨wellQueued_fork hqt p _, ?_⟩
    · rintro e ⟨_, hl⟩
      exact absurd hl hlevel
    · have htrans := Trans.forkEnqueue (v := k.view) hc hfork
      rw [← view_set (t := t) (k := k) hbody, ← view_modify (local_fork _)] at htrans
      exact htrans
  | _ => exact .notEnabled

/-! ## All steps -/

theorem wakeup_spec (hk : Good k) (addr : Nat) :
    Sat (step k (.wakeup addr)) (Refines k (.wakeup addr)) (Halts k.view) := by
  unfold step
  refine Sat.bind ((wakeup1_spec k.ticks (some (.obj addr)) hk.queued).mono (fun _ h => h) ?_)
    fun t ⟨hqt, hbody⟩ => ⟨hqt, ?_⟩
  · rintro e ⟨he, q, hs, hl⟩
    exact .badLevel (.inl hs) hl (.inl he)
  · rw [view_setTable hbody]
    exact .wakeup (v := k.view) addr

theorem scheduler_spec (hk : Good k) (hc : k.cpus c = none) :
    Sat (scheduler k c) (Refines k (.scheduler c)) (Halts k.view) := by
  cases hnext : getNextProc k.ptable with
  | none =>
    rw [scheduler_idle hnext]
    exact ⟨hk.queued, .schedulerIdle hc (getNextProc_none hk.queued hnext)⟩
  | some p =>
    obtain ⟨hbest, k', hk', hq', hd⟩ := scheduler_dispatch (c := c) hk.queued hk.valid hnext
    have hboot : k.view.boot = .done := by
      by_contra hb
      have := hk.valid.booting hb p
      simp [hbest.1] at this
    rw [hk']
    exact ⟨hq', .dispatch hc hboot hbest hd⟩

theorem timer_spec (hk : Good k) (c : Fin n) :
    Sat (step k (.timer c)) (Refines k (.timer c)) (Halts k.view) := by
  unfold step
  refine Sat.ite (fun _ => ?_) fun _ => .notEnabled
  cases hc : k.cpus c with
  | none => exact ⟨hk.queued, .timerIdle hc⟩
  | some p =>
    have hp : (k.ptable.proc p).state = .running := hk.valid.running c p hc
    dsimp only
    rw [if_pos hp]
    refine Sat.bind ((trapTimer_spec k.ticks hk.queued hp).mono (fun _ h => h) ?_)
      fun t ⟨hqt, hbody⟩ => ⟨hqt, ?_⟩
    · rintro e ⟨he, hl⟩
      exact .badLevel (.inr hp) hl (.inr (.inr he))
    · rw [view_setTable hbody]
      exact .timer (v := k.view) hc

/-- **The kernel refines the machine without pointers.** -/
theorem step_refines (hk : Good k) (a : Act n) : Sat (step k a) (Refines k a) (Halts k.view) := by
  have hrun : ∀ {c p}, k.cpus c = some p → (k.ptable.proc p).state = .running :=
    fun hc => hk.valid.running _ _ hc
  have hnot : ∀ {c p}, k.cpus c = some p → (k.ptable.proc p).state ≠ .runnable :=
    fun hc => by rw [hrun hc]; decide
  cases a with
  | userinitAlloc => exact userinitAlloc_spec hk
  | userinitKalloc ok => exact userinitKalloc_spec hk ok
  | userinitSetupkvm ok => exact userinitSetupkvm_spec hk ok
  | userinitEnqueue => exact userinitEnqueue_spec hk
  | forkAlloc c => exact onCpuFree_spec fun p hc hfork => forkAlloc_spec hk hc hfork
  | forkKalloc c ok => exact onCpu_spec fun p hc => forkKalloc_spec hk hc ok
  | forkCopyuvm c ok => exact onCpu_spec fun p hc => forkCopyuvm_spec hk hc ok
  | forkEnqueue c => exact onCpu_spec fun p hc => forkEnqueue_spec hk hc
  | exit c =>
    refine onCpuFree_spec fun p hc hfork => (exit_spec hk.queued (hrun hc)).mono ?_ ?_
    · rintro k' ⟨hq', hinit, hv'⟩
      exact ⟨hq', hv' ▸ .exit (v := k.view) hc hfork hinit⟩
    · rintro e (⟨rfl, hinit⟩ | ⟨he, q, hs, hl⟩)
      · exact .initExiting hc hinit
      · exact .badLevel hs hl (by tauto)
  | wait c =>
    refine onCpuFree_spec fun p hc hfork => ?_
    obtain ⟨r, hr, hq', hwait⟩ := wait_spec (c := c) hk.queued (hnot hc)
    rw [hr]
    exact ⟨hq', .wait hc hfork hwait⟩
  | yield c =>
    refine onCpu_spec fun p hc => (yield_spec hk.queued (hnot hc)).mono ?_ ?_
    · rintro k' ⟨hq', hv'⟩
      exact ⟨hq', hv' ▸ .yield (v := k.view) hc⟩
    · rintro e ⟨he, hl⟩
      exact .badLevel (.inr (hrun hc)) hl (.inl he)
  | sleep c addr =>
    refine onCpuFree_spec fun p hc hfork => ?_
    obtain ⟨k', hk', hq', hv'⟩ := sleep_spec (c := c) hk.queued (hnot hc) (.obj addr) .sleep
    rw [hk']
    exact ⟨hq', hv' ▸ .sleep (v := k.view) addr hc hfork⟩
  | wakeup addr => exact wakeup_spec hk addr
  | kill c pid =>
    refine onCpuFree_spec fun p hc hfork => ?_
    refine Sat.bind ((kill_spec hk.queued pid).mono (fun _ h => h) ?_) ?_
    · rintro e ⟨he, q, hs, -, hl⟩
      exact .badLevel (.inl hs) hl (.inl he)
    · rintro ⟨t, r⟩ ⟨hqt, ⟨hfirst, rfl⟩ | ⟨q, hfirst, hv'⟩⟩
      · exact ⟨hqt, .killFail pid hc hfork hfirst⟩
      · exact ⟨hqt, hv' ▸ .kill (v := k.view) pid hc hfork hfirst⟩
  | setProcInfo c info =>
    refine onCpuFree_spec fun p hc hfork => ?_
    have hf : Local (setProcInfo info) := fun _ => rfl
    refine ⟨hk.queued.modify (hnot hc) hf (hnot hc), ?_⟩
    rw [view_modify hf]
    exact .setProcInfo info hc hfork
  | trapKill c =>
    refine onCpuFree_spec fun p hc hfork => ?_
    have hf : Local fun x => { x with killed := true } := fun _ => rfl
    refine ⟨hk.queued.modify (hnot hc) hf (hnot hc), ?_⟩
    rw [view_modify hf]
    exact .trapKill hc hfork
  | scheduler c =>
    exact Sat.ite (fun hc => scheduler_spec hk hc.2) fun _ => .notEnabled
  | tick => exact Sat.ite (fun hboot => ⟨hk.queued, .tick hboot⟩) fun _ => .notEnabled
  | timer c => exact timer_spec hk c

/-! ## Runs -/

theorem good_boot : Good (boot n) where
  queued := ⟨fun _ => [], represents_nil,
    by simp [boot, initQeueus, Proc.zero], by simp [boot, initQeueus, Proc.zero], by simp⟩
  valid := by
    constructor <;> simp [boot, initQeueus, Kernel.view, Ptable.body, Proc.body, Proc.zero,
      ProcState.Live, Fork.np, Boot.np]

theorem Good.step (hk : Good k) (hs : step k a = .ok k') : Good k' ∧ Trans k.view a k'.view := by
  obtain ⟨hq', htrans⟩ := (step_refines hk a).of_ok hs
  exact ⟨⟨hq', htrans.valid hk.valid⟩, htrans⟩

/-- **Every state of a run has well-formed run queues and valid owners.** -/
theorem KRun.good (hr : KRun h k) : Good k :=
  hr.induct good_boot fun _ _ _ hk hs => (hk.step hs).1

theorem Reachable.good (hr : Reachable k) : Good k := by
  obtain ⟨h, hr⟩ := hr
  exact hr.good

theorem KRun.trans (hr : KRun h k) (hs : Xv6Mlfq.step k a = .ok k') : Trans k.view a k'.view :=
  (hr.good.step hs).2

end Xv6Mlfq
