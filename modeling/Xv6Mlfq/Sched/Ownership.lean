import Xv6Mlfq.Sched.Machine

/-!
# Who owns a process

`View.Valid` is what the kernel maintains about the owner of a slot: a running process is on exactly
one CPU, a process being set up belongs to one `fork` (or to `userinit`), and a process that can be
switched to has a kernel stack and a context to return to.

The steps that only touch counters or wake processes up are `Calm` and share one lemma; the others
move one process between owners and have a lemma each.
-/

namespace Xv6Mlfq

variable {n : Nat} {v v' : View n} {c : Fin n} {p q np : PIdx} {f : Proc → Proc}

/-- A process that `scheduler` could switch to, now or once it is woken up. -/
def ProcState.Live (s : ProcState) : Prop := s = .sleeping ∨ s = .runnable ∨ s = .running

structure View.Valid (v : View n) : Prop where
  running : ∀ c p, v.cpus c = some p → (v.proc p).state = .running
  onCpu : ∀ p, (v.proc p).state = .running → ∃ c, v.cpus c = some p
  once : ∀ c c' p, v.cpus c = some p → v.cpus c' = some p → c = c'
  stack : ∀ p, (v.proc p).state.Live → (v.proc p).kstack = true
  context : ∀ p, (v.proc p).state.Live → (v.proc p).context ≠ .exit
  forking : ∀ p, (v.proc p).fork ≠ .none →
    (v.proc p).state = .running ∨ ((v.proc p).state = .runnable ∧ (v.proc p).context = .yield)
  child : ∀ p np, (v.proc p).fork.np = some np → (v.proc np).state = .embryo
  childOnce : ∀ p q np, (v.proc p).fork.np = some np → (v.proc q).fork.np = some np → p = q
  childStack : ∀ p np, ((v.proc p).fork = .copyuvm np ∨ (v.proc p).fork = .enqueue np) →
    (v.proc np).kstack = true ∧ (v.proc np).context ≠ .exit
  booting : v.boot ≠ .done →
    ∀ p, (v.proc p).state = .unused ∨ ((v.proc p).state = .embryo ∧ v.boot.np = some p)
  bootNp : ∀ p, v.boot.np = some p → (v.proc p).state = .embryo
  bootStack : ∀ p, (v.boot = .setupkvm p ∨ v.boot = .enqueue p) →
    (v.proc p).kstack = true ∧ (v.proc p).context ≠ .exit

theorem not_live_unused {s : ProcState} (hs : s = .unused) : ¬ s.Live := by
  subst hs
  simp [ProcState.Live]

theorem not_live_embryo {s : ProcState} (hs : s = .embryo) : ¬ s.Live := by
  subst hs
  simp [ProcState.Live]

theorem not_live_zombie {s : ProcState} (hs : s = .zombie) : ¬ s.Live := by
  subst hs
  simp [ProcState.Live]

/-- A change that moves no process: it may wake one up, and write the counters. -/
structure Calm (x y : Proc) : Prop where
  kstack : y.kstack = x.kstack
  context : y.context = x.context
  fork : y.fork = x.fork
  state : y.state = x.state ∨ (x.state = .sleeping ∧ y.state = .runnable)

theorem Calm.refl (x : Proc) : Calm x x := ⟨rfl, rfl, rfl, .inl rfl⟩

theorem Calm.trans {x y z : Proc} (hxy : Calm x y) (hyz : Calm y z) : Calm x z := by
  obtain ⟨h1, h2, h3, h4⟩ := hxy
  obtain ⟨g1, g2, g3, g4⟩ := hyz
  exact ⟨by rw [g1, h1], by rw [g2, h2], by rw [g3, h3], by grind⟩

theorem calm_wake (ticks : UInt32) (chan : Option Chan) (x : Proc) : Calm x (wake ticks chan x) := by
  unfold wake
  split
  · rename_i h
    exact ⟨rfl, rfl, rfl, .inr ⟨h.1, rfl⟩⟩
  · exact .refl x

theorem calm_killSlot (ticks : UInt32) (x : Proc) : Calm x (killSlot ticks x) := by
  unfold killSlot
  split
  · rename_i h
    exact ⟨rfl, rfl, rfl, .inr ⟨h, rfl⟩⟩
  · exact ⟨rfl, rfl, rfl, .inl rfl⟩

theorem calm_updateProcTimers (x : Proc) : Calm x (updateProcTimers x) := by
  unfold updateProcTimers
  split
  · exact .refl x
  · split <;> exact ⟨rfl, rfl, rfl, .inl rfl⟩

theorem calm_demoteProcess (x : Proc) : Calm x (demoteProcess x) := by
  unfold demoteProcess
  split_ifs <;> exact ⟨rfl, rfl, rfl, .inl rfl⟩

theorem calm_quantumSlot (x : Proc) : Calm x (quantumSlot x) := by
  unfold quantumSlot
  split
  · split
    · exact calm_demoteProcess x
    · exact .refl x
  · exact .refl x

theorem calm_quotaSlot (x : Proc) : Calm x (quotaSlot x) := by
  unfold quotaSlot
  split
  · exact ⟨rfl, rfl, rfl, .inl rfl⟩
  · split
    · exact calm_quantumSlot x
    · exact .refl x

theorem calm_age (ticks : UInt32) (x : Proc) : Calm x (age ticks x) := by
  unfold age
  split
  · exact ⟨rfl, rfl, rfl, .inl rfl⟩
  · exact .refl x

theorem calm_timerSlot (ticks : UInt32) (p q : PIdx) (x : Proc) : Calm x (timerSlot ticks p q x) := by
  unfold timerSlot
  split
  · exact ((calm_updateProcTimers x).trans (calm_quotaSlot _)).trans (calm_age _ _)
  · exact (calm_updateProcTimers x).trans (calm_age _ _)

theorem calm_abandon (v : View n) (p q : PIdx) : Calm (v.proc q) ((v.abandon p).proc q) := by
  have hparent : ∀ x : Proc, Calm x (if x.parent = some p then { x with parent := v.initproc } else x) := by
    intro x
    split
    · exact ⟨rfl, rfl, rfl, .inl rfl⟩
    · exact .refl x
  have h := (calm_wake v.ticks ((v.proc p).parent.map .proc) (v.proc q)).trans (hparent _)
  unfold View.abandon
  dsimp only
  split
  · exact h.trans (calm_wake _ _ _)
  · exact h

namespace View.Valid

theorem calm (hv : v.Valid) (hcalm : ∀ p, Calm (v.proc p) (v'.proc p)) (hcpus : v'.cpus = v.cpus)
    (hboot : v'.boot = v.boot) : v'.Valid := by
  obtain ⟨h1, h2, h3, h4, h5, h6, h7, h8, h9, h10, h11, h12⟩ := hv
  have hk := fun p => (hcalm p).kstack
  have hx := fun p => (hcalm p).context
  have hf := fun p => (hcalm p).fork
  have hs := fun p => (hcalm p).state
  constructor <;> simp only [ProcState.Live, hcpus, hboot, hk, hx, hf] at * <;> grind

theorem calm_set (hv : v.Valid) (hcalm : Calm (v.proc p) (f (v.proc p))) : (v.set p f).Valid := by
  refine hv.calm (fun q => ?_) rfl rfl
  rw [View.set_proc]
  split
  · rename_i heq
    exact heq ▸ hcalm
  · exact .refl _

theorem leave (hv : v.Valid) (hc : v.cpus c = some p) (hne : (f (v.proc p)).state ≠ .running)
    (hstack : (f (v.proc p)).kstack = (v.proc p).kstack)
    (hctx : (f (v.proc p)).state.Live → (f (v.proc p)).context ≠ .exit)
    (hfork : (f (v.proc p)).fork = (v.proc p).fork)
    (hfree : (v.proc p).fork ≠ .none →
      (f (v.proc p)).state = .runnable ∧ (f (v.proc p)).context = .yield) :
    ((v.set p f).run c none).Valid := by
  obtain ⟨h1, h2, h3, h4, h5, h6, h7, h8, h9, h10, h11, h12⟩ := hv
  have hp := h1 c p hc
  constructor <;> simp only [ProcState.Live, View.run_proc, View.run_cpus, View.run_boot,
    View.set_proc, View.set_cpus, View.set_boot] at * <;> grind [Fork.np]

theorem dispatch (hv : v.Valid) (hc : v.cpus c = none) (hp : (v.proc p).state = .runnable)
    (hstate : (f (v.proc p)).state = .running) (hstack : (f (v.proc p)).kstack = (v.proc p).kstack)
    (hctx : (f (v.proc p)).context = (v.proc p).context)
    (hfork : (f (v.proc p)).fork = (v.proc p).fork) :
    ((v.set p f).run c (some p)).Valid := by
  obtain ⟨h1, h2, h3, h4, h5, h6, h7, h8, h9, h10, h11, h12⟩ := hv
  constructor <;> simp only [ProcState.Live, View.run_proc, View.run_cpus, View.run_boot,
    View.set_proc, View.set_cpus, View.set_boot] at * <;> grind [Fork.np]

theorem reap (hv : v.Valid) (hp : (v.proc p).state = .zombie) : (v.set p reapSlot).Valid := by
  obtain ⟨h1, h2, h3, h4, h5, h6, h7, h8, h9, h10, h11, h12⟩ := hv
  constructor <;> simp only [ProcState.Live, View.set_proc, View.set_cpus, View.set_boot,
    reapSlot] at * <;> grind [Fork.np]

theorem userinitAlloc (hv : v.Valid) (hboot : v.boot = .start) (pid : Int32) :
    View.Valid { v.set p (allocSlot pid) with nextpid := pid + 1, boot := .kalloc p } := by
  obtain ⟨h1, h2, h3, h4, h5, h6, h7, h8, h9, h10, h11, h12⟩ := hv
  constructor <;> simp only [ProcState.Live, View.set_proc, View.set_cpus, allocSlot] at * <;>
    grind [Fork.np, Boot.np]

theorem userinitKalloc (hv : v.Valid) (hboot : v.boot = .kalloc p) :
    View.Valid { v.set p (allocStack true) with boot := .setupkvm p } := by
  obtain ⟨h1, h2, h3, h4, h5, h6, h7, h8, h9, h10, h11, h12⟩ := hv
  constructor <;> simp only [ProcState.Live, View.set_proc, View.set_cpus, allocStack] at * <;>
    grind [Fork.np, Boot.np]

theorem userinitSetupkvm (hv : v.Valid) (hboot : v.boot = .setupkvm p) :
    View.Valid { v with initproc := some p, boot := .enqueue p } := by
  obtain ⟨h1, h2, h3, h4, h5, h6, h7, h8, h9, h10, h11, h12⟩ := hv
  constructor <;> simp only [ProcState.Live] at * <;> grind [Fork.np, Boot.np]

theorem userinitEnqueue (hv : v.Valid) (hboot : v.boot = .enqueue p) :
    View.Valid { v.set p (startInit v.ticks) with boot := .done } := by
  obtain ⟨h1, h2, h3, h4, h5, h6, h7, h8, h9, h10, h11, h12⟩ := hv
  constructor <;> simp only [ProcState.Live, View.set_proc, View.set_cpus, startInit,
    userinitSlot] at * <;> grind [Fork.np, Boot.np]

/-- A part of the `fork` of `p`: the child is (still) being set up, has been given back, or is let
go. -/
theorem setup {g : Proc → Proc} (hv : v.Valid) (hc : v.cpus c = some p)
    (hnp : (v.proc np).state = .unused ∧ (v.proc p).fork = .none ∨ (v.proc p).fork.np = some np)
    (hstate : ∀ x, (g x).state = x.state) (hstack : ∀ x, (g x).kstack = x.kstack)
    (hctx : ∀ x, (g x).context = x.context) (hfork : ∀ x, (f x).fork = x.fork)
    (hchild : (f (v.proc np)).state = .embryo ∧ (g (v.proc p)).fork.np = some np ∧
        ((g (v.proc p)).fork = .kalloc np ∨
          (f (v.proc np)).kstack = true ∧ (f (v.proc np)).context ≠ .exit) ∨
      (f (v.proc np)).state = .unused ∧ (g (v.proc p)).fork = .none ∨
      (f (v.proc np)).state = .runnable ∧ (g (v.proc p)).fork = .none ∧
        (f (v.proc np)).kstack = true ∧ (f (v.proc np)).context ≠ .exit) :
    ((v.set np f).set p g).Valid := by
  obtain ⟨h1, h2, h3, h4, h5, h6, h7, h8, h9, h10, h11, h12⟩ := hv
  have hp : (v.proc p).state = .running := h1 c p hc
  have hdone : v.boot = .done := by
    by_contra hb
    have := h10 hb p
    simp [hp] at this
  have hembryo : (v.proc np).state = .unused ∨ (v.proc np).state = .embryo := by
    rcases hnp with h | h
    · exact .inl h.1
    · exact .inr (h7 p np h)
  have hne : p ≠ np := by
    intro heq
    rw [← heq, hp] at hembryo
    simp at hembryo
  have hfree : (v.proc np).fork = .none := by
    by_contra hn
    have := h6 np hn
    grind
  have hothers : ∀ q, q ≠ p → (v.proc q).fork.np ≠ some np := by
    intro q hq hn
    rcases hnp with h | h
    · have := h7 q np hn
      simp [h.1] at this
    · exact hq (h8 q p np hn h)
  constructor <;> simp only [ProcState.Live, View.set_proc, View.set_cpus, View.set_boot, hdone,
    hne, if_false] at * <;> grind [Fork.np, Boot.np]

theorem waits (hv : v.Valid) (hc : v.cpus c = some p) (hfork : (v.proc p).fork = .none)
    (h : Waits v c p v') : v'.Valid := by
  cases h with
  | reap hq =>
    have := View.first_eq_some hq
    exact hv.reap (by simp_all)
  | fail => exact hv
  | sleep =>
    exact hv.leave (f := sleepSlot (.proc p) .wait) hc (by simp [sleepSlot])
      rfl (by simp [sleepSlot]) rfl (by simp [hfork])

theorem dispatches (hv : v.Valid) (hc : v.cpus c = none) (hp : (v.proc p).state = .runnable)
    (h : Dispatches v c p v') : v'.Valid := by
  cases h with
  | resume => exact hv.dispatch hc hp rfl rfl rfl rfl
  | sleep => exact hv.dispatch hc hp rfl rfl rfl rfl
  | wait hctx hwait =>
    have hfork : (v.proc p).fork = .none := by
      by_contra hne
      have := hv.forking p hne
      simp [hp, hctx] at this
    exact (hv.dispatch hc hp rfl rfl rfl rfl).waits (by simp) (by simpa using hfork) hwait

end View.Valid

/-- **Every step keeps the owners.** -/
theorem Trans.valid {a : Act n} (h : Trans v a v') (hv : v.Valid) : v'.Valid := by
  cases h with
  | userinitAlloc hboot => exact hv.userinitAlloc hboot v.nextpid
  | userinitKalloc hboot => exact hv.userinitKalloc hboot
  | userinitSetupkvm hboot => exact hv.userinitSetupkvm hboot
  | userinitEnqueue hboot => exact hv.userinitEnqueue hboot
  | forkAlloc hc hfork hnp hmax =>
    have hun := View.first_eq_some hnp
    have := hv.setup (f := allocSlot v.nextpid) (g := fun x => { x with fork := .kalloc _ }) hc
      (.inl ⟨by simpa using hun, hfork⟩) (fun _ => rfl) (fun _ => rfl) (fun _ => rfl) (fun _ => rfl)
      (.inl ⟨rfl, rfl, .inl rfl⟩)
    exact this.calm (fun q => .refl _) rfl rfl
  | forkAllocFail hc hfork hnp => exact hv
  | forkKalloc ok hc hfork =>
    refine hv.setup hc (.inr (by rw [hfork]; rfl)) (fun _ => rfl) (fun _ => rfl) (fun _ => rfl)
      (fun x => by cases ok <;> rfl) ?_
    have := hv.child _ _ (by rw [hfork]; rfl)
    cases ok <;> simp [allocStack, Fork.np, this]
  | forkCopyuvm ok hc hfork =>
    refine hv.setup hc (.inr (by rw [hfork]; rfl)) (fun _ => rfl) (fun _ => rfl) (fun _ => rfl)
      (fun x => by cases ok <;> rfl) ?_
    have := hv.child _ _ (by rw [hfork]; rfl)
    have hstack := hv.childStack _ _ (.inl hfork)
    cases ok <;> simp [copySlot, Fork.np, this, hstack]
  | forkEnqueue hc hfork =>
    refine hv.setup hc (.inr (by rw [hfork]; rfl)) (fun _ => rfl) (fun _ => rfl) (fun _ => rfl)
      (fun x => by simp only [startSlot, forkSlot]; split <;> rfl) ?_
    have hstack := hv.childStack _ _ (.inr hfork)
    right; right
    simp only [startSlot, forkSlot]
    split <;> simp [hstack]
  | @exit _ p hc hfork hinit =>
    have hw : (v.abandon p).Valid := hv.calm (calm_abandon v p) rfl rfl
    have hwfork : ((v.abandon p).proc p).fork = .none := (calm_abandon v p p).fork.trans hfork
    exact hw.leave (f := exitSlot) hc (by simp [exitSlot])
      rfl (by simp [exitSlot, ProcState.Live]) rfl (by simp [hwfork])
  | wait hc hfork hwait => exact hv.waits hc hfork hwait
  | yield hc =>
    exact hv.leave (f := yieldSlot v.ticks) hc (by simp [yieldSlot])
      rfl (by simp [yieldSlot]) rfl (fun _ => ⟨rfl, rfl⟩)
  | sleep addr hc hfork =>
    exact hv.leave (f := sleepSlot (.obj addr) .sleep) hc (by simp [sleepSlot])
      rfl (by simp [sleepSlot]) rfl (by simp [hfork])
  | wakeup addr => exact hv.calm (fun q => calm_wake _ _ _) rfl rfl
  | kill pid hc hfork hq => exact hv.calm_set (calm_killSlot _ _)
  | killFail => exact hv
  | setProcInfo info hc hfork => exact hv.calm_set ⟨rfl, rfl, rfl, .inl rfl⟩
  | trapKill hc hfork => exact hv.calm_set ⟨rfl, rfl, rfl, .inl rfl⟩
  | schedulerIdle => exact hv
  | dispatch hc hboot hbest hd => exact hv.dispatches hc hbest.1 hd
  | tick hboot => exact hv.calm (fun q => .refl _) rfl rfl
  | timerIdle hc => exact hv
  | timer hc => exact hv.calm (fun q => calm_timerSlot _ _ _ _) rfl rfl

end Xv6Mlfq
