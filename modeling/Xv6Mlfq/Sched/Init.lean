import Xv6Mlfq.Sched.Simulation

/-!
# The first process

`userinit` makes one process and keeps it in `initproc`. A process leaves the live states only through
its own `exit` (`Trans.live`), and `exit` panics for `initproc`, so from the end of `userinit` on there is
a live first process (`View.InitReady`).
-/

namespace Xv6Mlfq

open Lib

variable {n : Nat} {v v' : View n} {a : Act n} {p q : PIdx} {c : Fin n} {f : Proc → Proc} {x y : Proc}

/-! ## Live processes -/

theorem Calm.live (h : Calm x y) (hx : x.state.Live) : y.state.Live := by
  rcases h.state with hs | ⟨_, hs⟩
  · rw [hs]
    exact hx
  · exact .inr (.inl hs)

theorem live_set (hp : (v.proc p).state.Live)
    (hf : (v.proc q).state.Live → (f (v.proc q)).state.Live) : ((v.set q f).proc p).state.Live := by
  rw [View.set_proc]
  split
  · rename_i heq
    exact hf (heq ▸ hp)
  · exact hp

theorem live_fork {np : PIdx} {s : Fork} (hp : (v.proc p).state.Live)
    (hf : (v.proc np).state.Live → (f (v.proc np)).state.Live) :
    (((v.set np f).set q fun x => { x with fork := s }).proc p).state.Live :=
  live_set (live_set hp hf) id

theorem live_waits (hp : (v.proc p).state.Live) (h : Waits v c q v') : (v'.proc p).state.Live := by
  cases h with
  | reap hz =>
    have hz := View.first_eq_some hz
    exact live_set hp fun hl => absurd hl (not_live_zombie (by simp_all))
  | fail => exact hp
  | sleep => exact live_set hp fun _ => .inl rfl

theorem live_run (hp : (v.proc p).state.Live) (hf : ∀ x, (f x).state = .running) :
    (((v.set q f).run c (some q)).proc p).state.Live :=
  live_set hp fun _ => .inr (.inr (hf _))

theorem live_dispatches (hp : (v.proc p).state.Live) (h : Dispatches v c q v') :
    (v'.proc p).state.Live := by
  cases h with
  | resume => exact live_run hp fun _ => rfl
  | sleep => exact live_run hp fun _ => rfl
  | wait _ hwait => exact live_waits (live_run hp fun _ => rfl) hwait

/-- **A live process stays live until its own exit.** -/
theorem Trans.live (ht : Trans v a v') (hv : v.Valid) (hp : (v.proc p).state.Live)
    (hexit : ∀ c, a = .exit c → v.cpus c ≠ some p) : (v'.proc p).state.Live := by
  have hchild : ∀ {q np}, (v.proc q).fork.np = some np → ¬ (v.proc np).state.Live :=
    fun hnp => not_live_embryo (hv.child _ _ hnp)
  have hboot : ∀ {np}, v.boot.np = some np → ¬ (v.proc np).state.Live :=
    fun hnp => not_live_embryo (hv.bootNp _ hnp)
  have hfree : ∀ {np}, v.first (fun x => x.state = .unused) = some np → ¬ (v.proc np).state.Live :=
    fun hnp => not_live_unused (of_decide_eq_true (View.first_eq_some hnp))
  cases ht with
  | userinitAlloc _ hnp => exact live_set hp fun hl => absurd hl (hfree hnp)
  | userinitKalloc hb => exact live_set hp fun hl => absurd hl (hboot (by rw [hb]; rfl))
  | userinitSetupkvm => exact hp
  | userinitEnqueue => exact live_set hp fun _ => .inr (.inl rfl)
  | forkAlloc _ _ hnp => exact live_fork hp fun hl => absurd hl (hfree hnp)
  | forkAllocFail => exact hp
  | forkKalloc ok _ hf => exact live_fork hp fun hl => absurd hl (hchild (by rw [hf]; rfl))
  | forkCopyuvm ok _ hf => exact live_fork hp fun hl => absurd hl (hchild (by rw [hf]; rfl))
  | forkEnqueue _ hf => exact live_fork hp fun hl => absurd hl (hchild (by rw [hf]; rfl))
  | @exit c q hc =>
    have hne : p ≠ q := fun heq => hexit c rfl (heq ▸ hc)
    have hab := (calm_abandon v q p).live hp
    show (((v.abandon q).set q exitSlot).proc p).state.Live
    rw [View.set_proc, if_neg hne]
    exact hab
  | wait _ _ hwait => exact live_waits hp hwait
  | yield => exact live_set hp fun _ => .inr (.inl rfl)
  | sleep => exact live_set hp fun _ => .inl rfl
  | wakeup addr => exact (calm_wake _ _ _).live hp
  | kill => exact live_set hp (calm_killSlot _ _).live
  | killFail => exact hp
  | setProcInfo => exact live_set hp id
  | trapKill => exact live_set hp id
  | schedulerIdle => exact hp
  | dispatch _ _ _ hd => exact live_dispatches hp hd
  | tick => exact hp
  | timerIdle => exact hp
  | timer => exact (calm_timerSlot _ _ _ _).live hp

/-! ## initproc -/

/-- `initproc` while `userinit` runs, and after it. -/
structure View.InitReady (v : View n) : Prop where
  set : ∀ p, v.initproc = some p → v.boot = .enqueue p ∨ v.boot = .done
  enqueue : ∀ p, v.boot = .enqueue p → v.initproc = some p
  done : v.boot = .done → ∃ p, v.initproc = some p ∧ (v.proc p).state.Live

theorem waits_boot (h : Waits v c p v') : v'.boot = v.boot ∧ v'.initproc = v.initproc := by
  cases h <;> exact ⟨rfl, rfl⟩

theorem dispatches_boot (h : Dispatches v c p v') : v'.boot = v.boot ∧ v'.initproc = v.initproc := by
  cases h with
  | resume => exact ⟨rfl, rfl⟩
  | sleep => exact ⟨rfl, rfl⟩
  | wait _ hwait =>
    have hboot := waits_boot hwait
    exact hboot

theorem View.InitReady.keep (hi : v.InitReady) (hb : v'.boot = v.boot ∧ v'.initproc = v.initproc)
    (hlive : ∀ p, v.initproc = some p → (v.proc p).state.Live → (v'.proc p).state.Live) :
    v'.InitReady := by
  obtain ⟨hb, hp⟩ := hb
  refine ⟨?_, ?_, ?_⟩
  · rw [hb, hp]
    exact hi.set
  · rw [hb, hp]
    exact hi.enqueue
  · rw [hb, hp]
    intro hdone
    obtain ⟨p, hip, hl⟩ := hi.done hdone
    exact ⟨p, hip, hlive p hip hl⟩

theorem View.InitReady.early (hi : v.InitReady) (hb : v.boot ≠ .done)
    (hne : ∀ p, v.boot ≠ .enqueue p) (hb' : v'.boot ≠ .done) (hne' : ∀ p, v'.boot ≠ .enqueue p)
    (hp : v'.initproc = v.initproc) : v'.InitReady := by
  refine ⟨fun p hip => ?_, fun p hbp => absurd hbp (hne' p), fun hd => absurd hd hb'⟩
  rw [hp] at hip
  rcases hi.set p hip with h | h
  · exact absurd h (hne p)
  · exact absurd h hb

theorem Trans.initReady (ht : Trans v a v') (hv : v.Valid) (hi : v.InitReady) : v'.InitReady := by
  have hexit : ∀ p, v.initproc = some p → ∀ c, a = .exit c → v.cpus c ≠ some p := by
    rintro p hip c rfl hc
    cases ht with
    | exit hc' _ hinit =>
      rw [hc] at hc'
      exact hinit (Option.some.inj hc' ▸ hip)
  have hlive : ∀ p, v.initproc = some p → (v.proc p).state.Live → (v'.proc p).state.Live :=
    fun p hip hl => ht.live hv hl (hexit p hip)
  cases ht with
  | userinitAlloc hb =>
    exact hi.early (by simp [hb]) (by simp [hb]) (by simp) (by simp) rfl
  | userinitKalloc hb =>
    exact hi.early (by simp [hb]) (by simp [hb]) (by simp) (by simp) rfl
  | userinitSetupkvm hb =>
    refine ⟨fun q hq => .inl ?_, fun q hq => ?_, fun hd => (nomatch hd)⟩
    · exact congrArg _ (Option.some.inj hq)
    · exact congrArg some (Boot.enqueue.inj hq)
  | @userinitEnqueue p hb =>
    refine ⟨fun _ _ => .inr rfl, fun q hq => (nomatch hq), fun _ => ⟨p, hi.enqueue p hb, ?_⟩⟩
    show ((v.set p (startInit v.ticks)).proc p).state.Live
    rw [View.set_proc, if_pos rfl]
    exact .inr (.inl rfl)
  | wait _ _ hwait => exact hi.keep (waits_boot hwait) hlive
  | dispatch _ _ _ hd => exact hi.keep (dispatches_boot hd) hlive
  | _ => exact hi.keep ⟨rfl, rfl⟩ hlive

/-- **There is a live first process** in every run, once `userinit` is done. -/
theorem KRun.initReady {h : List (Event n)} {k : Kernel n} (hr : KRun h k) : k.view.InitReady := by
  induction hr with
  | start =>
    refine ⟨fun p hp => ?_, fun p hp => ?_, fun hd => ?_⟩
    · cases hp
    · cases hp
    · cases hd
  | next hr hs ih => exact (KRun.trans hr hs).initReady (KRun.good hr).valid ih

end Xv6Mlfq
