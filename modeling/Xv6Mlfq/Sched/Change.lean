import Xv6Mlfq.Sched.Simulation
import Xv6Mlfq.Sched.Timer

/-!
# What a step does to one process

`created`, `infoCall` and `interrupted` read off the state before a step which process it creates, who
calls `set_proc_info` in it, and which process a timer interrupt finds on its CPU. `KRun.change`: a
step of a run does one of six things to a process. The step may create it (in two parts), write its
counters through `set_proc_info`, or take it through a timer interrupt; every other step keeps its
counters (`Keeps`). The results about counters, levels and types are inductions over runs with these
six cases; for a property of a slot by itself the induction is `KRun.slot_induct`.
-/

namespace Xv6Mlfq

open Lib

variable {n : Nat} {k k' : Kernel n} {a : Act n} {p q : PIdx} {x y : Proc} {h : List (Event n)}

/-- The process that a step creates: `allocproc` finds its slot, and the last part of `fork` or
`userinit` makes it runnable. -/
def created (k : Kernel n) : Act n → Option PIdx
  | .userinitAlloc => k.ptable.first fun x => x.state = .unused
  | .forkAlloc _ => k.ptable.first fun x => x.state = .unused
  | .userinitEnqueue => k.boot.np
  | .forkEnqueue c => (k.cpus c).bind fun p => (k.ptable.proc p).fork.np
  | _ => none

/-- The caller of `set_proc_info`, and its arguments. -/
def infoCall (k : Kernel n) : Act n → Option (PIdx × ProcInfo)
  | .setProcInfo c info => (k.cpus c).map fun p => (p, info)
  | _ => none

/-- The process that a timer interrupt finds running on its CPU. If there is one, the step passes over
the whole table. -/
def interrupted (k : Kernel n) : Act n → Option PIdx
  | .timer c => k.cpus c
  | _ => none

/-- A timer interrupt that passes over the table while `p` is running. -/
def RunsAt (k : Kernel n) (a : Act n) (p : PIdx) : Prop :=
  interrupted k a ≠ none ∧ (k.ptable.proc p).state = .running

instance (k : Kernel n) (a : Act n) (p : PIdx) : Decidable (RunsAt k a p) :=
  inferInstanceAs (Decidable (_ ∧ _))

theorem infoCall_eq_some {info : ProcInfo} :
    infoCall k a = some (q, info) ↔ ∃ c, a = .setProcInfo c info ∧ k.cpus c = some q := by
  cases a <;> simp [infoCall, and_comm, eq_comm]

theorem interrupted_eq_some :
    interrupted k a = some p ↔ ∃ c, a = .timer c ∧ k.cpus c = some p := by
  cases a <;> simp [interrupted, eq_comm]

theorem created_of_infoCall {r : PIdx × ProcInfo} (hi : infoCall k a = some r) :
    created k a = none := by
  cases a <;> first | rfl | simp [infoCall] at hi

theorem created_of_interrupted (ht : interrupted k a = some p) : created k a = none := by
  cases a <;> first | rfl | simp [interrupted] at ht

theorem infoCall_of_interrupted (ht : interrupted k a = some p) : infoCall k a = none := by
  cases a <;> first | rfl | simp [interrupted] at ht

theorem infoCall_of_created (hc : created k a = some p) : infoCall k a = none := by
  cases a <;> first | rfl | simp [created] at hc

theorem created_startInit (ha : a = .userinitEnqueue) (hb : k.boot = .enqueue q) :
    created k a = some q := by
  subst ha
  simp [created, hb, Boot.np]

theorem created_startChild {c : Fin n} (ha : a = .forkEnqueue c) (hp : k.cpus c = some p)
    (hf : (k.ptable.proc p).fork = .enqueue q) : created k a = some q := by
  subst ha
  simp [created, hp, hf, Fork.np]

/-- A step that keeps the counters of a process. -/
structure Keeps (ticks : UInt32) (x y : Proc) : Prop where
  qLevel : y.qLevel = x.qLevel
  cpuBurst : y.cpuBurst = x.cpuBurst
  cpuWait : y.cpuWait = x.cpuWait
  ioWaitTime : y.ioWaitTime = x.ioWaitTime
  endTime : y.endTime = x.endTime
  totalCpuTime : y.totalCpuTime = x.totalCpuTime
  type : y.type = x.type
  /-- The flag is cleared only by `wait`, which frees the slot. -/
  killed : y.killed = false → x.killed = false ∨ y.state = .unused
  pid : y.state ≠ .unused → y.pid = x.pid
  unused : x.state = .unused → y.state = .unused
  embryo : x.state = .embryo → y.state = .embryo ∨ y.state = .unused
  notEmbryo : y.state = .embryo → x.state = .embryo
  /-- A process that becomes runnable enters its queue now. -/
  entry : y.state = .runnable →
    x.state = .runnable ∧ y.queueEntryTime = x.queueEntryTime ∨
      x.state ≠ .runnable ∧ y.queueEntryTime = ticks

theorem Keeps.refl (ticks : UInt32) (x : Proc) : Keeps ticks x x :=
  ⟨rfl, rfl, rfl, rfl, rfl, rfl, rfl, .inl, fun _ => rfl, id, .inl, id, fun h => .inl ⟨h, rfl⟩⟩

theorem Keeps.trans {ticks : UInt32} {z : Proc} (hxy : Keeps ticks x y) (hyz : Keeps ticks y z)
    (hr : (x.state = .runnable → y.state = .runnable) ∨ z.state ≠ .runnable) : Keeps ticks x z := by
  obtain ⟨h1, h2, h3, h4, h5, h6, h7, h8, h9, h10, h11, h12, h13⟩ := hxy
  obtain ⟨g1, g2, g3, g4, g5, g6, g7, g8, g9, g10, g11, g12, g13⟩ := hyz
  constructor <;> grind

/-- What the step `a` from `k` makes of process `q`, if it was `x`. -/
inductive Change (k : Kernel n) (a : Act n) (q : PIdx) (x : Proc) : Proc → Prop
  | alloc (hc : created k a = some q) (hs : x.state = .unused) (hmax : k.nextpid ≠ Int32.maxValue) :
      Change k a q x (allocSlot k.nextpid x)
  | startInit (ha : a = .userinitEnqueue) (hb : k.boot = .enqueue q) (hs : x.state = .embryo) :
      Change k a q x (startInit k.ticks x)
  | startChild {c : Fin n} {p : PIdx} (ha : a = .forkEnqueue c) (hp : k.cpus c = some p)
      (hf : (k.ptable.proc p).fork = .enqueue q) (hs : x.state = .embryo) :
      Change k a q x (startSlot k.ticks (k.ptable.proc p).pid x)
  | setInfo {info : ProcInfo} (hi : infoCall k a = some (q, info)) (hs : x.state = .running) :
      Change k a q x (setProcInfo info x)
  | timer {p : PIdx} {y : Proc} (hp : interrupted k a = some p) (hy : Pass k.ticks p q x y) :
      Change k a q x y
  | keep {y : Proc} (hc : created k a ≠ some q) (hi : ∀ info, infoCall k a ≠ some (q, info))
      (ht : interrupted k a = none) (hk : Keeps k.ticks x y) : Change k a q x y

/-! ## The writes that keep the counters -/

section keeps

variable {ticks : UInt32}

theorem keeps_wake (chan : Option Chan) (x : Proc) : Keeps ticks x (wake ticks chan x) := by
  unfold wake
  split
  · rename_i h
    constructor <;> simp_all
  · exact .refl ticks x

theorem wake_runnable {chan : Option Chan} (h : x.state = .runnable) :
    (wake ticks chan x).state = .runnable := by
  unfold wake
  split
  · rfl
  · exact h

theorem keeps_killSlot (x : Proc) : Keeps ticks x (killSlot ticks x) := by
  unfold killSlot
  split
  · rename_i h
    constructor <;> simp_all
  · constructor <;> simp_all

theorem keeps_yieldSlot (h : x.state = .running) : Keeps ticks x (yieldSlot ticks x) := by
  constructor <;> simp_all [yieldSlot]

theorem keeps_sleepSlot (chan : Chan) (ctx : Context) (h : x.state = .running) :
    Keeps ticks x (sleepSlot chan ctx x) := by
  constructor <;> simp_all [sleepSlot]

theorem keeps_exitSlot (h : x.state = .running) : Keeps ticks x (exitSlot x) := by
  constructor <;> simp_all [exitSlot]

theorem keeps_reapSlot (h : x.state = .zombie) : Keeps ticks x (reapSlot x) := by
  constructor <;> simp_all [reapSlot]

theorem keeps_allocStack (ok : Bool) (h : x.state = .embryo) : Keeps ticks x (allocStack ok x) := by
  cases ok <;> constructor <;> simp_all [allocStack]

theorem keeps_copySlot (ok : Bool) (h : x.state = .embryo) : Keeps ticks x (copySlot ok p x) := by
  cases ok <;> constructor <;> simp_all [copySlot]

theorem keeps_dispatch (h : x.state = .runnable)
    (hy : y.toSched = { x.toSched with state := .running }) : Keeps ticks x y := by
  constructor <;> simp_all

theorem keeps_killed (x : Proc) : Keeps ticks x { x with killed := true } := by
  constructor <;> simp_all

theorem keeps_other (hs : y.toSched = x.toSched) : Keeps ticks x y := by
  constructor <;> simp_all

theorem Keeps.other {z : Proc} (hxy : Keeps ticks x y) (hz : z.toSched = y.toSched) :
    Keeps ticks x z := by
  refine hxy.trans (keeps_other hz) ?_
  rw [hz]
  by_cases hy : y.state = .runnable
  · exact .inl fun _ => hy
  · exact .inr hy

theorem keeps_set {v : View n} {f : Proc → Proc} (hf : Keeps ticks (v.proc p) (f (v.proc p)))
    (q : PIdx) : Keeps ticks (v.proc q) ((v.set p f).proc q) := by
  rw [View.set_proc]
  split
  · rename_i heq
    exact heq ▸ hf
  · exact .refl ticks _

theorem keeps_dispatched {v : View n} {f : Proc → Proc} {c : Fin n}
    (hp : (v.proc p).state = .runnable)
    (hf : (f (v.proc p)).toSched = { (v.proc p).toSched with state := .running }) (q : PIdx) :
    Keeps ticks (v.proc q) (((v.set p f).run c (some p)).proc q) :=
  keeps_set (keeps_dispatch hp hf) q

theorem keeps_fork {v : View n} {f : Proc → Proc} {np : PIdx} {s : Fork}
    (hf : Keeps ticks (v.proc np) (f (v.proc np))) (q : PIdx) :
    Keeps ticks (v.proc q) (((v.set np f).set p fun x => { x with fork := s }).proc q) := by
  refine (keeps_set hf q).other ?_
  rw [View.set_proc]
  split
  · rename_i heq
    rw [heq]
  · rfl

theorem keeps_abandon (v : View n) (p q : PIdx) :
    Keeps v.ticks (v.proc q) ((v.abandon p).proc q) := by
  have hparent : ∀ x : Proc,
      Keeps v.ticks x (if x.parent = some p then { x with parent := v.initproc } else x) := by
    intro x
    split
    · exact keeps_other rfl
    · exact .refl _ x
  have hstate : ∀ x : Proc, x.state = .runnable →
      (if x.parent = some p then { x with parent := v.initproc } else x).state = .runnable := by
    intro x hx
    split <;> exact hx
  have h := (keeps_wake ((v.proc p).parent.map .proc) (v.proc q)).trans (hparent _)
    (.inl wake_runnable)
  unfold View.abandon
  dsimp only
  split
  · exact h.trans (keeps_wake _ _) (.inl fun hx => hstate _ (wake_runnable hx))
  · exact h

theorem keeps_waits {v v' : View n} {c : Fin n} (hp : (v.proc p).state = .running)
    (h : Waits v c p v') (q : PIdx) : Keeps ticks (v.proc q) (v'.proc q) := by
  cases h with
  | reap hr =>
    have hz := View.first_eq_some hr
    exact keeps_set (keeps_reapSlot (by simp_all)) q
  | fail => exact .refl ticks _
  | sleep => exact keeps_set (keeps_sleepSlot _ _ hp) q

theorem waits_not_runnable {v v' : View n} {c : Fin n} (hp : (v.proc p).state = .running)
    (h : Waits v c p v') : (v'.proc p).state ≠ .runnable := by
  cases h with
  | reap hr =>
    rw [View.set_proc]
    split <;> simp [reapSlot, hp]
  | fail => simp [hp]
  | sleep => simp [sleepSlot]

theorem keeps_dispatches {v v' : View n} {c : Fin n} (hp : (v.proc p).state = .runnable)
    (h : Dispatches v c p v') (q : PIdx) : Keeps ticks (v.proc q) (v'.proc q) := by
  cases h with
  | resume => exact keeps_dispatched hp rfl q
  | sleep => exact keeps_dispatched hp rfl q
  | wait hctx hwait =>
    have hrun : (((v.set p fun x => { x with state := .running, chan := none }).run c
        (some p)).proc p).state = .running := by simp
    refine Keeps.trans (keeps_dispatched hp rfl q) (keeps_waits hrun hwait q) ?_
    by_cases hqp : q = p
    · subst hqp
      exact .inr (waits_not_runnable hrun hwait)
    · left
      intro hx
      simpa [hqp] using hx

end keeps

/-! ## One step -/

theorem Change.quiet (hc : created k a = none) (hi : infoCall k a = none)
    (ht : interrupted k a = none) (hk : Keeps k.ticks x y) : Change k a q x y :=
  .keep (by simp [hc]) (by simp [hi]) ht hk

structure PidsPos (k : Kernel n) : Prop where
  next : 1 ≤ k.nextpid
  pos : ∀ p, (k.ptable.proc p).state ≠ .unused → 1 ≤ (k.ptable.proc p).pid

/-- **What a step does to one process.** -/
theorem step_change (hk : Good k) (hpids : PidsPos k) (hs : step k a = .ok k') (q : PIdx) :
    Change k a q (k.ptable.body q) (k'.ptable.body q) := by
  have htrans := (hk.step hs).2
  have hrun : ∀ {c p}, k.view.cpus c = some p → (k.view.proc p).state = .running :=
    fun hc => hk.valid.running _ _ hc
  have hchild : ∀ {p np}, (k.view.proc p).fork.np = some np → (k.view.proc np).state = .embryo :=
    fun hnp => hk.valid.child _ _ hnp
  show Change k a q (k.view.proc q) (k'.view.proc q)
  generalize k'.view = v' at htrans ⊢
  cases htrans with
  | @userinitAlloc p hboot hp hmax =>
    have hc : created k .userinitAlloc = some p := (view_first fun _ => rfl).trans hp
    by_cases hqp : q = p
    · subst hqp
      simp only [View.set_proc, if_true]
      exact .alloc hc (of_decide_eq_true (View.first_eq_some hp)) hmax
    · simp only [View.set_proc, if_neg hqp]
      exact .keep (by simp [hc, Ne.symm hqp]) (by simp [infoCall]) rfl (.refl _ _)
  | userinitKalloc hboot =>
    have hem := hk.valid.bootNp _ (by rw [hboot]; rfl)
    exact .quiet rfl rfl rfl (keeps_set (keeps_allocStack true hem) q)
  | userinitSetupkvm hboot => exact .quiet rfl rfl rfl (.refl _ _)
  | @userinitEnqueue p hboot =>
    have hc : created k .userinitEnqueue = some p := by
      show k.view.boot.np = some p
      rw [hboot]
      rfl
    by_cases hqp : q = p
    · subst hqp
      simp only [View.set_proc, if_true]
      exact .startInit rfl hboot (hk.valid.bootNp q (by rw [hboot]; rfl))
    · simp only [View.set_proc, if_neg hqp]
      exact .keep (by simp [hc, Ne.symm hqp]) (by simp [infoCall]) rfl (.refl _ _)
  | @forkAlloc c p np hc hfork hnp hmax =>
    have hcr : created k (.forkAlloc c) = some np := (view_first fun _ => rfl).trans hnp
    have hun : (k.view.proc np).state = .unused := of_decide_eq_true (View.first_eq_some hnp)
    have hne : np ≠ p := by
      rintro rfl
      simp [hrun hc] at hun
    by_cases hqp : q = np
    · subst hqp
      simp only [View.set_proc, if_true, if_neg hne]
      exact .alloc hcr hun hmax
    · refine .keep (by simp [hcr, Ne.symm hqp]) (by simp [infoCall]) rfl ?_
      simp only [View.set_proc, if_neg hqp]
      split
      · rename_i heq
        subst heq
        exact keeps_other (by simp [hqp])
      · exact .refl _ _
  | forkAllocFail hc hfork hnp =>
    exact .quiet ((view_first fun _ => rfl).trans hnp) rfl rfl (.refl _ _)
  | forkKalloc ok hc hfork =>
    have hem := hchild (by rw [hfork]; rfl)
    exact .quiet rfl rfl rfl (keeps_fork (keeps_allocStack ok hem) q)
  | forkCopyuvm ok hc hfork =>
    have hem := hchild (by rw [hfork]; rfl)
    exact .quiet rfl rfl rfl (keeps_fork (keeps_copySlot ok hem) q)
  | @forkEnqueue c p np hc hfork =>
    have hem := hchild (by rw [hfork]; rfl)
    have hcr : created k (.forkEnqueue c) = some np := by
      show (k.view.cpus c).bind (fun p => (k.view.proc p).fork.np) = some np
      rw [hc, Option.bind_some, hfork]
      rfl
    have hne : np ≠ p := by
      rintro rfl
      simp [hrun hc] at hem
    by_cases hqp : q = np
    · subst hqp
      simp only [View.set_proc, if_true, if_neg hne]
      exact .startChild rfl hc hfork hem
    · refine .keep (by simp [hcr, Ne.symm hqp]) (by simp [infoCall]) rfl ?_
      simp only [View.set_proc, if_neg hqp]
      split
      · rename_i heq
        subst heq
        exact keeps_other (by simp [hqp])
      · exact .refl _ _
  | @exit c p hc hfork hinit =>
    refine .quiet rfl rfl rfl ?_
    have hab := keeps_abandon k.view p q
    show Keeps k.view.ticks _ (((k.view.abandon p).set p exitSlot).proc q)
    rw [View.set_proc]
    split
    · rename_i heq
      subst heq
      have hp : ((k.view.abandon q).proc q).state = .running := by
        have := (calm_abandon k.view q q).state
        simpa [hrun hc] using this
      exact hab.trans (keeps_exitSlot hp) (.inr (by simp [exitSlot]))
    · exact hab
  | wait hc hfork hwait => exact .quiet rfl rfl rfl (keeps_waits (hrun hc) hwait q)
  | yield hc => exact .quiet rfl rfl rfl (keeps_set (keeps_yieldSlot (hrun hc)) q)
  | sleep addr hc hfork => exact .quiet rfl rfl rfl (keeps_set (keeps_sleepSlot _ _ (hrun hc)) q)
  | wakeup addr => exact .quiet rfl rfl rfl (keeps_wake _ _)
  | kill pid hc hfork hq => exact .quiet rfl rfl rfl (keeps_set (keeps_killSlot _) q)
  | killFail => exact .quiet rfl rfl rfl (.refl _ _)
  | @setProcInfo c p info hc hfork =>
    have hi : infoCall k (.setProcInfo c info) = some (p, info) := by
      show (k.view.cpus c).map _ = _
      rw [hc]
      rfl
    by_cases hqp : q = p
    · subst hqp
      simp only [View.set_proc, if_true]
      exact .setInfo hi (hrun hc)
    · simp only [View.set_proc, if_neg hqp]
      exact .keep (by simp [created]) (by simp [hi, Ne.symm hqp]) rfl (.refl _ _)
  | trapKill hc hfork => exact .quiet rfl rfl rfl (keeps_set (keeps_killed _) q)
  | schedulerIdle => exact .quiet rfl rfl rfl (.refl _ _)
  | dispatch hc hboot hbest hd => exact .quiet rfl rfl rfl (keeps_dispatches hbest.1 hd q)
  | tick hboot => exact .quiet rfl rfl rfl (.refl _ _)
  | timerIdle hc => exact .quiet rfl rfl hc (.refl _ _)
  | timer hc =>
    refine .timer hc (timerSlot_pass (fun hlive hzero => ?_) fun heq => heq ▸ hrun hc)
    have hpos : 1 ≤ (k.view.proc q).pid := hpids.pos q fun hun => by
      have hun' : (k.view.proc q).state = .unused := hun
      simp [ProcState.Live, hun'] at hlive
    rw [hzero] at hpos
    exact absurd hpos (by decide)

theorem Change.live_cases (hc : Change k a q x y) (hlive : x.state.Live) :
    (∃ info, infoCall k a = some (q, info) ∧ y = setProcInfo info x) ∨
      (∃ p, interrupted k a = some p ∧ Pass k.ticks p q x y) ∨
      (interrupted k a = none ∧ Keeps k.ticks x y) := by
  cases hc with
  | alloc _ hs => exact absurd hlive (not_live_unused hs)
  | startInit _ _ hs => exact absurd hlive (not_live_embryo hs)
  | startChild _ _ _ hs => exact absurd hlive (not_live_embryo hs)
  | setInfo hi => exact .inl ⟨_, hi, rfl⟩
  | timer ht hp => exact .inr (.inl ⟨_, ht, hp⟩)
  | keep _ _ ht hk => exact .inr (.inr ⟨ht, hk⟩)

/-! ## Runs -/

theorem Trans.nextpid {v v' : View n} (ht : Trans v a v') :
    v'.nextpid = v.nextpid ∨ v.nextpid ≠ Int32.maxValue ∧ v'.nextpid = v.nextpid + 1 := by
  have hwaits : ∀ {v v' : View n} {c p}, Waits v c p v' → v'.nextpid = v.nextpid := by
    rintro v v' c p (_ | _ | _) <;> rfl
  cases ht with
  | userinitAlloc _ _ hmax => exact .inr ⟨hmax, rfl⟩
  | forkAlloc _ _ _ hmax => exact .inr ⟨hmax, rfl⟩
  | wait _ _ hw => exact .inl (hwaits hw)
  | dispatch _ _ _ hd =>
    cases hd with
    | resume => exact .inl rfl
    | sleep => exact .inl rfl
    | wait _ hw =>
      left
      rw [hwaits hw]
      rfl
  | _ => exact .inl rfl

theorem Pass.fixed {ticks : UInt32} (hy : Pass ticks p q x y) :
    y.pid = x.pid ∧ y.state = x.state ∧ y.type = x.type := by
  cases hy with
  | expired =>
    unfold demoteProcess
    split_ifs <;> exact ⟨rfl, rfl, rfl⟩
  | _ => exact ⟨rfl, rfl, rfl⟩

theorem Pass.pid {ticks : UInt32} (hy : Pass ticks p q x y) : y.pid = x.pid := hy.fixed.1

theorem Pass.state {ticks : UInt32} (hy : Pass ticks p q x y) : y.state = x.state := hy.fixed.2.1

theorem Pass.type {ticks : UInt32} (hy : Pass ticks p q x y) : y.type = x.type := hy.fixed.2.2

theorem startSlot_pid {ticks : UInt32} {pid : Int32} : (startSlot ticks pid x).pid = x.pid := by
  unfold startSlot forkSlot
  dsimp only
  split <;> rfl

theorem PidsPos.step (hp : PidsPos k) (hk : Good k) (hs : step k a = .ok k') : PidsPos k' := by
  refine ⟨?_, fun q => ?_⟩
  · have hnext : k'.nextpid = k.nextpid ∨ k.nextpid ≠ Int32.maxValue ∧ k'.nextpid = k.nextpid + 1 :=
      (hk.step hs).2.nextpid
    have := hp.next
    have hmax : Int32.maxValue = 2147483647 := rfl
    grind
  · have hc := step_change hk hp hs q
    have hold := hp.pos q
    rw [← Ptable.body_toSched] at hold ⊢
    generalize k'.ptable.body q = y at hc ⊢
    generalize k.ptable.body q = x at hc hold
    intro hq
    cases hc with
    | alloc _ _ _ => exact hp.next
    | startInit _ _ hs => exact hold (by simp [hs])
    | startChild _ _ _ hs =>
      rw [startSlot_pid]
      exact hold (by simp [hs])
    | setInfo _ hs => exact hold (by simp [hs])
    | timer _ hy =>
      rw [hy.pid]
      exact hold (hy.state ▸ hq)
    | keep _ _ _ hk =>
      rw [hk.pid hq]
      exact hold fun hun => hq (hk.unused hun)

theorem pidsPos_boot : PidsPos (boot n) := by
  constructor <;> simp [boot, initQeueus, Proc.zero]

theorem KRun.pidsPos (hr : KRun h k) : PidsPos k :=
  (hr.induct (I := fun k => Good k ∧ PidsPos k) ⟨good_boot, pidsPos_boot⟩
    fun _ _ _ hI hs => ⟨(hI.1.step hs).1, hI.2.step hI.1 hs⟩).2

/-- **What a step of a run does to one process**, links aside. -/
theorem KRun.change (hr : KRun h k) (hs : Xv6Mlfq.step k a = .ok k') (q : PIdx) :
    ∃ x y : Proc, x.toSched = (k.ptable.proc q).toSched ∧ y.toSched = (k'.ptable.proc q).toSched ∧
      Change k a q x y :=
  ⟨k.ptable.body q, k'.ptable.body q, rfl, rfl, step_change hr.good hr.pidsPos hs q⟩

/-- **Invariants of single processes.** What a zeroed slot has and every `Change` keeps, in steps that
meet `C`, every slot has along a run whose steps all meet `C`. -/
theorem KRun.slot_induct {C : Kernel n → Act n → Prop} {I : Sched → Prop} (hr : KRun h k)
    (hC : Always C h) (h₀ : I Proc.zero.toSched)
    (hstep : ∀ k a q x y, C k a → Change k a q x y → I x.toSched → I y.toSched) (q : PIdx) :
    I (k.ptable.proc q).toSched := by
  have hall := hr.induct_of (I := fun k => (Good k ∧ PidsPos k) ∧ I (k.ptable.proc q).toSched) hC
    ⟨⟨good_boot, pidsPos_boot⟩, h₀⟩ ?_
  · exact hall.2
  · rintro k a k' ⟨⟨hgood, hpids⟩, hI⟩ hc hs
    have hkept : I (k'.ptable.body q).toSched :=
      hstep k a q (k.ptable.body q) _ hc (step_change hgood hpids hs q) hI
    exact ⟨⟨(hgood.step hs).1, hpids.step hgood hs⟩, hkept⟩

end Xv6Mlfq
