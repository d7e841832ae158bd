import Xv6Mlfq.Sched.Init

/-!
# Parents and children

`wait` looks for a zombie child and goes to sleep on its own `struct proc` in one critical section, and
`exit` wakes the parent, passes the children on to init and becomes a zombie in one. So no process sleeps
in `wait` while it has a zombie child, and whoever is alive or a zombie has a parent that can still wait
for it. `View.Family` is the invariant; most steps touch nothing that it reads (`Kin`).
-/

namespace Xv6Mlfq

open Lib

variable {n : Nat} {v v' : View n} {a : Act n} {p q np : PIdx} {c : Fin n} {f : Proc → Proc} {x y z : Proc}

/-- A process that its parent still has to wait for. -/
def ProcState.Member (s : ProcState) : Prop := s.Live ∨ s = .zombie

def InWait (p : PIdx) (x : Proc) : Prop := x.state = .sleeping ∧ x.chan = some (.proc p)

structure View.Family (v : View n) : Prop where
  parent : ∀ p, (v.proc p).state.Member → v.initproc ≠ some p →
    ∃ q, (v.proc p).parent = some q ∧ (v.proc q).state.Live
  asleep : ∀ p q, InWait p (v.proc p) → (v.proc q).parent = some p → (v.proc q).state ≠ .zombie
  child : ∀ p np, (v.proc p).fork = .enqueue np → (v.proc np).parent = some p
  notSelf : ∀ p, (v.proc p).parent ≠ some p
  first : ∀ p, v.initproc = some p → (v.proc p).parent = none
  early : v.boot ≠ .done → ∀ p, (v.proc p).parent = none

/-- A change to a process that its parent and its children do not notice. -/
structure Kin (x y : Proc) : Prop where
  parent : y.parent = x.parent
  fork : ∀ np, y.fork = .enqueue np → x.fork = .enqueue np
  member : y.state.Member → x.state.Member
  live : x.state.Live → y.state.Live
  zombie : y.state = .zombie → x.state = .zombie
  inWait : ∀ p, InWait p y → InWait p x

/-! ## Steps that the family does not notice -/

theorem Kin.refl (x : Proc) : Kin x x := ⟨rfl, fun _ => id, id, id, id, fun _ => id⟩

theorem Kin.trans (hxy : Kin x y) (hyz : Kin y z) : Kin x z where
  parent := hyz.parent.trans hxy.parent
  fork := fun np h => hxy.fork np (hyz.fork np h)
  member := hxy.member ∘ hyz.member
  live := hyz.live ∘ hxy.live
  zombie := hxy.zombie ∘ hyz.zombie
  inWait := fun p h => hxy.inWait p (hyz.inWait p h)

/-- A live process that goes from one live state to another, and not to sleep in `wait`. -/
theorem kin_live (hx : x.state.Live) (hy : y.state.Live) (hparent : y.parent = x.parent)
    (hfork : y.fork = x.fork) (hwait : ∀ p, InWait p y → InWait p x) : Kin x y where
  parent := hparent
  fork := fun _ h => hfork ▸ h
  member := fun _ => .inl hx
  live := fun _ => hy
  zombie := fun hz => absurd hy (not_live_zombie hz)
  inWait := hwait

theorem kin_idle (hx : ¬ x.state.Live) (hy : ¬ y.state.Member) (hparent : y.parent = x.parent)
    (hfork : y.fork = x.fork) : Kin x y where
  parent := hparent
  fork := fun _ h => hfork ▸ h
  member := fun h => absurd h hy
  live := fun h => absurd h hx
  zombie := fun h => absurd (.inr h) hy
  inWait := fun _ h => absurd (.inl (.inl h.1)) hy

theorem kin_of_calm (hc : Calm x y) (hparent : y.parent = x.parent) (hchan : y.chan = x.chan) :
    Kin x y where
  parent := hparent
  fork := fun np h => hc.fork ▸ h
  member := by
    rcases hc.state with hs | ⟨hs, hs'⟩
    · rw [hs]
      exact id
    · exact fun _ => .inl (.inl hs)
  live := hc.live
  zombie := by
    rcases hc.state with hs | ⟨hs, hs'⟩
    · rw [hs]
      exact id
    · rw [hs']
      exact nofun
  inWait := by
    rintro p ⟨hs, hw⟩
    rcases hc.state with hs' | ⟨hs', hr⟩
    · exact ⟨hs' ▸ hs, hchan ▸ hw⟩
    · rw [hr] at hs
      cases hs

theorem kin_wake (ticks : UInt32) (chan : Option Chan) (x : Proc) : Kin x (wake ticks chan x) := by
  refine kin_of_calm (calm_wake ticks chan x) ?_ ?_ <;> unfold wake <;> split <;> rfl

theorem kin_killSlot (ticks : UInt32) (x : Proc) : Kin x (killSlot ticks x) := by
  refine kin_of_calm (calm_killSlot ticks x) ?_ ?_ <;> unfold killSlot <;> split <;> rfl

theorem timerSlot_links (ticks : UInt32) (p q : PIdx) (x : Proc) :
    (timerSlot ticks p q x).parent = x.parent ∧ (timerSlot ticks p q x).chan = x.chan := by
  have hage : ∀ x : Proc, (age ticks x).parent = x.parent ∧ (age ticks x).chan = x.chan := by
    intro x
    unfold age
    split <;> exact ⟨rfl, rfl⟩
  have hupd : ∀ x : Proc, (updateProcTimers x).parent = x.parent ∧
      (updateProcTimers x).chan = x.chan := by
    intro x
    unfold updateProcTimers
    split
    · exact ⟨rfl, rfl⟩
    · split <;> exact ⟨rfl, rfl⟩
  have hquantum : ∀ x : Proc, (quantumSlot x).parent = x.parent ∧ (quantumSlot x).chan = x.chan := by
    intro x
    unfold quantumSlot demoteProcess
    split
    · split_ifs <;> exact ⟨rfl, rfl⟩
    · exact ⟨rfl, rfl⟩
  have hquota : ∀ x : Proc, (quotaSlot x).parent = x.parent ∧ (quotaSlot x).chan = x.chan := by
    intro x
    unfold quotaSlot
    split_ifs
    · exact ⟨rfl, rfl⟩
    · exact hquantum x
    · exact ⟨rfl, rfl⟩
  unfold timerSlot
  rw [(hage _).1, (hage _).2]
  split
  · rw [(hquota _).1, (hquota _).2]
    exact hupd x
  · exact hupd x

theorem kin_set (hf : Kin (v.proc p) (f (v.proc p))) (q : PIdx) :
    Kin (v.proc q) ((v.set p f).proc q) := by
  rw [View.set_proc]
  split
  · rename_i heq
    exact heq ▸ hf
  · exact .refl _

theorem kin_fork {s : Fork} (hs : ∀ np, s ≠ .enqueue np) (x : Proc) : Kin x { x with fork := s } :=
  ⟨rfl, fun np h => absurd h (hs np), id, id, id, fun _ => id⟩

theorem kin_child {s : Fork} (hs : ∀ np, s ≠ .enqueue np) (hf : Kin (v.proc np) (f (v.proc np)))
    (q : PIdx) : Kin (v.proc q) (((v.set np f).set p fun x => { x with fork := s }).proc q) :=
  (kin_set hf q).trans (kin_set (kin_fork hs _) q)

namespace View.Family

theorem keep (hv : v.Family) (hk : ∀ p, Kin (v.proc p) (v'.proc p)) (hinit : v'.initproc = v.initproc)
    (hboot : v'.boot ≠ .done → v.boot ≠ .done) : v'.Family where
  parent := by
    intro p hm hne
    obtain ⟨q, hq, hl⟩ := hv.parent p ((hk p).member hm) (hinit ▸ hne)
    exact ⟨q, (hk p).parent.trans hq, (hk q).live hl⟩
  asleep := by
    intro p q hw hp hz
    exact hv.asleep p q ((hk p).inWait p hw) ((hk q).parent ▸ hp) ((hk q).zombie hz)
  child := fun p np h => (hk np).parent.trans (hv.child p np ((hk p).fork np h))
  notSelf := fun p h => hv.notSelf p ((hk p).parent ▸ h)
  first := fun p h => (hk p).parent.trans (hv.first p (hinit ▸ h))
  early := fun h p => (hk p).parent.trans (hv.early (hboot h) p)

/-! ## Birth -/

theorem setInit (hv : v.Family) (hval : v.Valid) (hb : v.boot ≠ .done) (p : PIdx) {b : Boot} :
    View.Family { v with initproc := some p, boot := b } := by
  have hnone := hv.early hb
  have hout : ∀ q, ¬ (v.proc q).state.Member := by
    intro q hm
    rcases hval.booting hb q with hs | ⟨hs, _⟩ <;> rw [hs] at hm <;>
      simp [ProcState.Member, ProcState.Live] at hm
  refine ⟨fun q hm _ => absurd hm (hout q), fun q r hw _ _ => hout q (.inl (.inl hw.1)),
    hv.child, hv.notSelf, fun q _ => hnone q, fun _ => hnone⟩

theorem start (hv : v.Family) (hstate : (f (v.proc p)).state = .runnable)
    (hparent : (f (v.proc p)).parent = (v.proc p).parent)
    (hfork : (f (v.proc p)).fork = (v.proc p).fork)
    (hp : v.initproc ≠ some p → ∃ q, (v.proc p).parent = some q ∧ (v.proc q).state.Live) :
    (v.set p f).Family := by
  have hlive : ∀ q, (v.proc q).state.Live → ((v.set p f).proc q).state.Live :=
    fun q hq => live_set hq fun _ => .inr (.inl hstate)
  have hpar : ∀ q, ((v.set p f).proc q).parent = (v.proc q).parent := by
    intro q
    rw [View.set_proc]
    split
    · rename_i heq
      rw [heq, hparent]
    · rfl
  refine ⟨fun q hm hne => ?_, fun q r hw hpr hz => ?_, fun q np hf => ?_,
    fun q h => hv.notSelf q (hpar q ▸ h), fun q h => (hpar q).trans (hv.first q h),
    fun h q => (hpar q).trans (hv.early h q)⟩
  · rw [hpar]
    by_cases hqp : q = p
    · obtain ⟨r, hr, hl⟩ := hp (hqp ▸ hne)
      exact ⟨r, hqp ▸ hr, hlive r hl⟩
    · obtain ⟨r, hr, hl⟩ := hv.parent q (by simpa [hqp] using hm) hne
      exact ⟨r, hr, hlive r hl⟩
  · have hqp : q ≠ p := by
      rintro rfl
      simpa [hstate] using hw.1
    have hrp : r ≠ p := by
      rintro rfl
      simp [hstate] at hz
    exact hv.asleep q r (by simpa [hqp] using hw) (hpar r ▸ hpr) (by simpa [hrp] using hz)
  · refine (hpar np).trans (hv.child q np ?_)
    by_cases hqp : q = p
    · subst hqp
      simpa [hfork] using hf
    · simpa [hqp] using hf

/-- `copyuvm` succeeds: the child gets its parent, which goes on to the last part of `fork`. -/
theorem adopt (hv : v.Family) (hval : v.Valid) (hi : v.InitReady) (hc : v.cpus c = some p)
    (hfork : (v.proc p).fork = .copyuvm np) :
    ((v.set np (copySlot true p)).set p fun x => { x with fork := .enqueue np }).Family := by
  have hrun := hval.running c p hc
  have hem : (v.proc np).state = .embryo := hval.child p np (by rw [hfork]; rfl)
  have hdone : v.boot = .done := by
    by_contra hb
    rcases hval.booting hb p with hs | hs <;> simp [hrun] at hs
  have hne : np ≠ p := by
    rintro rfl
    simp [hrun] at hem
  have hstate : ∀ q, ((((v.set np (copySlot true p)).set p
      fun x => { x with fork := .enqueue np }).proc q).state = (v.proc q).state) ∧
      (((v.set np (copySlot true p)).set p fun x => { x with fork := .enqueue np }).proc q).chan =
        (v.proc q).chan := by
    intro q
    simp only [View.set_proc, copySlot]
    split_ifs with h₁ h₂ h₃ <;> simp_all
  have hpar : ∀ q, q ≠ np → ((((v.set np (copySlot true p)).set p
      fun x => { x with fork := .enqueue np }).proc q).parent = (v.proc q).parent) := by
    intro q hq
    simp only [View.set_proc]
    split_ifs with h₁ h₂ <;> simp_all
  have hnp : (((v.set np (copySlot true p)).set p
      fun x => { x with fork := .enqueue np }).proc np).parent = some p := by
    simp [View.set_proc, copySlot, hne]
  generalize hv' : ((v.set np (copySlot true p)).set p fun x => { x with fork := .enqueue np }) = v'
    at hstate hpar hnp ⊢
  have hinit : v'.initproc = v.initproc := by
    rw [← hv']
    rfl
  refine ⟨fun q hm hq => ?_, fun q r hw hr hz => ?_, fun q r hf => ?_, fun q hq => ?_, fun q hq => ?_,
    fun hb => absurd (by rw [← hv']; exact hdone) hb⟩
  · rw [(hstate q).1] at hm
    have hqnp : q ≠ np := by
      rintro rfl
      simp [ProcState.Member, ProcState.Live, hem] at hm
    obtain ⟨r, hr, hl⟩ := hv.parent q hm (hinit ▸ hq)
    exact ⟨r, (hpar q hqnp).trans hr, (hstate r).1 ▸ hl⟩
  · rw [(hstate r).1] at hz
    have hrnp : r ≠ np := by
      rintro rfl
      simp [hem] at hz
    rw [InWait, (hstate q).1, (hstate q).2] at hw
    exact hv.asleep q r hw (hpar r hrnp ▸ hr) hz
  · have hq : q = p ∧ r = np ∨ (v.proc q).fork = .enqueue r := by
      rw [← hv'] at hf
      simp only [View.set_proc, copySlot] at hf
      split_ifs at hf with h₁ h₂ <;> simp_all
    rcases hq with ⟨rfl, rfl⟩ | hq
    · exact hnp
    · have hrnp : r ≠ np := by
        rintro rfl
        have := hval.childOnce q p r (by rw [hq]; rfl) (by rw [hfork]; rfl)
        subst this
        simp [hfork] at hq
      exact (hpar r hrnp).trans (hv.child q r hq)
  · by_cases hqnp : q = np
    · subst hqnp
      exact hne (Option.some.inj (hnp.symm.trans hq)).symm
    · exact hv.notSelf q (hpar q hqnp ▸ hq)
  · have hqnp : q ≠ np := by
      rintro rfl
      obtain ⟨r, hr, hl⟩ := hi.done hdone
      have hrq : r = q := Option.some.inj (hr.symm.trans (hinit ▸ hq))
      exact not_live_embryo (hrq ▸ hem) hl
    exact (hpar q hqnp).trans (hv.first q (hinit ▸ hq))

/-! ## Exit and wait -/

theorem abandon_chan (v : View n) (p q : PIdx) : ((v.abandon p).proc q).chan = (v.proc q).chan := by
  simp only [View.abandon, wake]
  split_ifs <;> rfl

theorem abandon_parent (v : View n) (p q : PIdx) : ((v.abandon p).proc q).parent =
    if (v.proc q).parent = some p then v.initproc else (v.proc q).parent := by
  have hwake : ∀ (ticks : UInt32) (chan : Option Chan) (x : Proc),
      (wake ticks chan x).parent = x.parent := fun ticks chan x => (kin_wake ticks chan x).parent
  simp only [View.abandon]
  split_ifs <;> simp_all

theorem abandon_zombie (h : ((v.abandon p).proc q).state = .zombie) : (v.proc q).state = .zombie := by
  rcases (calm_abandon v p q).state with hs | ⟨_, hs⟩
  · exact hs ▸ h
  · rw [hs] at h
    cases h

theorem abandon_inWait (h : InWait q ((v.abandon p).proc q)) : InWait q (v.proc q) := by
  obtain ⟨hs, hchan⟩ := h
  refine ⟨?_, abandon_chan v p q ▸ hchan⟩
  rcases (calm_abandon v p q).state with hs' | ⟨hs', _⟩
  · exact hs' ▸ hs
  · exact hs'

theorem not_inWait_wake (ticks : UInt32) (x : Proc) : ¬ InWait p (wake ticks (some (.proc p)) x) := by
  rintro ⟨hs, hchan⟩
  unfold wake at hs hchan
  split_ifs at hs hchan with h
  exact h ⟨hs, hchan⟩

theorem not_inWait_abandon (hq : (v.proc p).parent = some q ∨ v.Orphaned p ∧ v.initproc = some q) :
    ¬ InWait q ((v.abandon p).proc q) := by
  have hsteps : ∀ x : Proc, Kin x (if v.Orphaned p then wake v.ticks (v.initproc.map .proc) x else x) := by
    intro x
    split
    · exact kin_wake _ _ _
    · exact .refl x
  rcases hq with hpq | ⟨ho, hi⟩
  · intro h
    have h' := (hsteps _).inWait q h
    rw [hpq] at h'
    refine not_inWait_wake v.ticks (v.proc q) (p := q) ?_
    split_ifs at h' <;> exact h'
  · simp only [View.abandon, if_pos ho, hi, Option.map_some]
    exact not_inWait_wake _ _

theorem exit (hv : v.Family) (hval : v.Valid) (hi : v.InitReady) (hc : v.cpus c = some p)
    (hfork : (v.proc p).fork = .none) (hinit : v.initproc ≠ some p) :
    (((v.abandon p).set p exitSlot).run c none).Family := by
  have hrun := hval.running c p hc
  have hdone : v.boot = .done := by
    by_contra hb
    rcases hval.booting hb p with hs | hs <;> simp [hrun] at hs
  obtain ⟨r₀, hr₀, hl₀⟩ := hi.done hdone
  have hother : ∀ q, q ≠ p →
      (((v.abandon p).set p exitSlot).run c none).proc q = (v.abandon p).proc q := by
    intro q hq
    simp [hq]
  have hself : (((v.abandon p).set p exitSlot).run c none).proc p =
      exitSlot ((v.abandon p).proc p) := by simp
  have hlive : ∀ q, q ≠ p → (v.proc q).state.Live →
      ((((v.abandon p).set p exitSlot).run c none).proc q).state.Live := by
    intro q hq hl
    rw [hother q hq]
    exact (calm_abandon v p q).live hl
  have hpar : ∀ q, ((((v.abandon p).set p exitSlot).run c none).proc q).parent =
      if (v.proc q).parent = some p then v.initproc else (v.proc q).parent := by
    intro q
    rw [← abandon_parent]
    by_cases hq : q = p
    · rw [hq, hself]
      rfl
    · rw [hother q hq]
  refine ⟨fun q hm hne => ?_, fun q r hw hr hz => ?_, fun q np hf => ?_, fun q => ?_, fun q hq => ?_,
    fun hb => absurd hdone hb⟩
  · have hmem : (v.proc q).state.Member := by
      by_cases hq : q = p
      · rw [hq, hrun]
        exact .inl (.inr (.inr rfl))
      · rw [hother q hq] at hm
        rcases (calm_abandon v p q).state with hs | ⟨hs, _⟩
        · exact hs ▸ hm
        · exact .inl (.inl hs)
    obtain ⟨r, hr, hl⟩ := hv.parent q hmem hne
    rw [hpar q]
    split_ifs with hqp
    · exact ⟨r₀, hr₀, hlive r₀ (fun heq => hinit (heq ▸ hr₀)) hl₀⟩
    · exact ⟨r, hr, hlive r (fun heq => hqp (heq ▸ hr)) hl⟩
  · have hqp : q ≠ p := by
      rintro rfl
      rw [hself] at hw
      cases hw.1
    rw [hother q hqp] at hw
    have hzombie : r = p ∨ (v.proc r).state = .zombie := by
      by_cases hrp : r = p
      · exact .inl hrp
      · rw [hother r hrp] at hz
        exact .inr (abandon_zombie hz)
    rw [hpar r] at hr
    split_ifs at hr with hrp
    · rcases hzombie with rfl | hz'
      · exact hv.notSelf r hrp
      · exact not_inWait_abandon (.inr ⟨⟨r, hrp, hz'⟩, hr⟩) hw
    · rcases hzombie with rfl | hz'
      · exact not_inWait_abandon (.inl hr) hw
      · exact hv.asleep q r (abandon_inWait hw) hr hz'
  · have hfq : ((v.abandon p).proc q).fork = .enqueue np := by
      by_cases hq : q = p
      · rw [hq, hself] at hf
        exact hq ▸ hf
      · rwa [hother q hq] at hf
    rw [(calm_abandon v p q).fork] at hfq
    have hnp := hv.child q np hfq
    have hqp : q ≠ p := by
      rintro rfl
      rw [hfork] at hfq
      cases hfq
    rw [hpar np, if_neg (by rw [hnp]; exact fun h => hqp (Option.some.inj h)), hnp]
  · rw [hpar q]
    split_ifs with hqp
    · intro hq
      rw [hv.first q hq] at hqp
      cases hqp
    · exact hv.notSelf q
  · have hnone := hv.first q hq
    rw [hpar q, hnone, if_neg nofun]

theorem reap (hv : v.Family) (hval : v.Valid) (hz : (v.proc q).state = .zombie) :
    (v.set q reapSlot).Family := by
  have hlive : ∀ r, (v.proc r).state.Live → ((v.set q reapSlot).proc r).state.Live :=
    fun r hr => live_set hr fun hl => absurd hl (not_live_zombie hz)
  have hother : ∀ r, r ≠ q → (v.set q reapSlot).proc r = v.proc r := fun r hr => by simp [hr]
  have hself : (v.set q reapSlot).proc q = reapSlot (v.proc q) := by simp
  refine ⟨fun r hm hne => ?_, fun r s hw hs hzs => ?_, fun r np hf => ?_, fun r => ?_, fun r hr => ?_,
    fun hb r => ?_⟩
  · have hrq : r ≠ q := by
      rintro rfl
      rw [hself] at hm
      simp [ProcState.Member, ProcState.Live, reapSlot] at hm
    rw [hother r hrq] at hm ⊢
    obtain ⟨s, hs, hl⟩ := hv.parent r hm hne
    exact ⟨s, hs, hlive s hl⟩
  · have hrq : r ≠ q := by
      rintro rfl
      rw [hself] at hw
      cases hw.1
    have hsq : s ≠ q := by
      rintro rfl
      rw [hself] at hzs
      cases hzs
    rw [hother r hrq] at hw
    rw [hother s hsq] at hs hzs
    exact hv.asleep r s hw hs hzs
  · have hf' : (v.proc r).fork = .enqueue np := by
      by_cases hrq : r = q
      · rw [hrq, hself] at hf
        exact hrq ▸ hf
      · rwa [hother r hrq] at hf
    have hem := hval.child r np (by rw [hf']; rfl)
    have hnq : np ≠ q := by
      rintro rfl
      simp [hem] at hz
    rw [hother np hnq]
    exact hv.child r np hf'
  · by_cases hrq : r = q
    · rw [hrq, hself]
      exact fun h => by cases h
    · rw [hother r hrq]
      exact hv.notSelf r
  · by_cases hrq : r = q
    · rw [hrq, hself]
      rfl
    · rw [hother r hrq]
      exact hv.first r hr
  · by_cases hrq : r = q
    · rw [hrq, hself]
      rfl
    · rw [hother r hrq]
      exact hv.early hb r

theorem sleepWait (hv : v.Family) (hp : (v.proc p).state.Live)
    (hz : ∀ q, (v.proc q).parent = some p → (v.proc q).state ≠ .zombie) :
    ((v.set p (sleepSlot (.proc p) .wait)).run c none).Family := by
  have hlive : ∀ q, (v.proc q).state.Live →
      ((v.set p (sleepSlot (.proc p) .wait)).proc q).state.Live :=
    fun q hq => live_set hq fun _ => .inl rfl
  have hpar : ∀ q, ((v.set p (sleepSlot (.proc p) .wait)).proc q).parent = (v.proc q).parent := by
    intro q
    rw [View.set_proc]
    split
    · rename_i heq
      rw [heq]
      rfl
    · rfl
  have hother : ∀ q, q ≠ p → (v.set p (sleepSlot (.proc p) .wait)).proc q = v.proc q :=
    fun q hq => by simp [hq]
  refine ⟨fun q hm hne => ?_, fun q r hw hr hzr => ?_, fun q np hf => ?_,
    fun q h => hv.notSelf q (hpar q ▸ h), fun q h => (hpar q).trans (hv.first q h),
    fun h q => (hpar q).trans (hv.early h q)⟩
  · have hmem : (v.proc q).state.Member := by
      by_cases hq : q = p
      · exact .inl (hq ▸ hp)
      · rwa [View.run_proc, hother q hq] at hm
    obtain ⟨r, hr, hl⟩ := hv.parent q hmem hne
    exact ⟨r, (hpar q).trans hr, hlive r hl⟩
  · rw [View.run_proc] at hw hr hzr
    rw [hpar r] at hr
    have hrp : r ≠ p := by
      rintro rfl
      simp [sleepSlot] at hzr
    rw [hother r hrp] at hzr
    by_cases hq : q = p
    · exact hz r (hq ▸ hr) hzr
    · rw [hother q hq] at hw
      exact hv.asleep q r hw hr hzr
  · refine (hpar np).trans (hv.child q np ?_)
    by_cases hq : q = p
    · rw [hq] at hf ⊢
      simpa [sleepSlot] using hf
    · rwa [View.run_proc, hother q hq] at hf

theorem waits (hv : v.Family) (hval : v.Valid) (hp : (v.proc p).state.Live) (h : Waits v c p v') :
    v'.Family := by
  cases h with
  | reap hq =>
    have hz := View.first_eq_some hq
    exact hv.reap hval (by simp_all)
  | fail => exact hv
  | sleep hz =>
    refine hv.sleepWait hp fun q hq hzq => ?_
    have hnone := List.find?_eq_none.mp hz q (List.mem_finRange q)
    simp [hq, hzq] at hnone

theorem run (hv : v.Family) (hp : (v.proc p).state = .runnable) (hstate : ∀ x, (f x).state = .running)
    (hparent : ∀ x, (f x).parent = x.parent) (hfork : ∀ x, (f x).fork = x.fork) :
    ((v.set p f).run c (some p)).Family := by
  have hkin : Kin (v.proc p) (f (v.proc p)) :=
    kin_live (.inr (.inl hp)) (.inr (.inr (hstate _))) (hparent _) (hfork _) fun q hw => by
      rw [InWait, hstate] at hw
      cases hw.1
  exact hv.keep (kin_set hkin) rfl id

theorem dispatches (hv : v.Family) (hval : v.Valid) (hc : v.cpus c = none)
    (hp : (v.proc p).state = .runnable) (h : Dispatches v c p v') : v'.Family := by
  cases h with
  | resume => exact hv.run hp (fun _ => rfl) (fun _ => rfl) fun _ => rfl
  | sleep => exact hv.run hp (fun _ => rfl) (fun _ => rfl) fun _ => rfl
  | wait hctx hwait =>
    have hrun := hv.run (c := c) (f := fun x => { x with state := .running, chan := none }) hp
      (fun _ => rfl) (fun _ => rfl) fun _ => rfl
    exact hrun.waits (hval.dispatch hc hp rfl rfl rfl rfl) (.inr (.inr (by simp))) hwait

end View.Family

/-- **Every step keeps the family.** -/
theorem Trans.family (ht : Trans v a v') (hv : v.Family) (hval : v.Valid) (hi : v.InitReady) :
    v'.Family := by
  have hlive : ∀ {c p}, v.cpus c = some p → (v.proc p).state.Live :=
    fun hc => .inr (.inr (hval.running _ _ hc))
  have hfree : ∀ {q} (pid : Int32), v.first (fun x => x.state = .unused) = some q →
      Kin (v.proc q) (allocSlot pid (v.proc q)) := by
    intro q pid hq
    have hun : (v.proc q).state = .unused := of_decide_eq_true (View.first_eq_some hq)
    exact kin_idle (not_live_unused hun) (by simp [ProcState.Member, ProcState.Live, allocSlot]) rfl rfl
  have hstack : ∀ (ok : Bool) {q}, (v.proc q).state = .embryo →
      Kin (v.proc q) (allocStack ok (v.proc q)) := by
    intro ok q hq
    cases ok <;> exact kin_idle (not_live_embryo hq)
      (by simp [ProcState.Member, ProcState.Live, allocStack, hq]) rfl rfl
  cases ht with
  | userinitAlloc hb hp =>
    exact hv.keep (kin_set (hfree _ hp)) rfl fun _ => by simp [hb]
  | userinitKalloc hb =>
    exact hv.keep (kin_set (hstack true (hval.bootNp _ (by rw [hb]; rfl)))) rfl fun _ => by simp [hb]
  | userinitSetupkvm hb => exact hv.setInit hval (by simp [hb]) _
  | @userinitEnqueue p hb =>
    have hs := hv.start (f := startInit v.ticks) (p := p) rfl rfl rfl
      fun hne => absurd (hi.enqueue p hb) hne
    exact hs.keep (fun q => .refl _) rfl fun h => absurd rfl h
  | forkAlloc hc hf hnp => exact hv.keep (kin_child (fun _ h => by cases h) (hfree _ hnp)) rfl id
  | forkAllocFail => exact hv
  | forkKalloc ok hc hf =>
    refine hv.keep (kin_child ?_ (hstack ok (hval.child _ _ (by rw [hf]; rfl)))) rfl id
    intro np
    cases ok <;> simp
  | @forkCopyuvm c p np ok hc hf =>
    cases ok with
    | true => exact hv.adopt hval hi hc hf
    | false =>
      have hem := hval.child p np (by rw [hf]; rfl)
      refine hv.keep (kin_child (fun _ h => by cases h) ?_) rfl id
      exact kin_idle (not_live_embryo hem) (by simp [ProcState.Member, ProcState.Live, copySlot]) rfl rfl
  | @forkEnqueue c p np hc hf =>
    have hslot : ∀ x : Proc, (startSlot v.ticks (v.proc p).pid x).state = .runnable ∧
        (startSlot v.ticks (v.proc p).pid x).parent = x.parent ∧
        (startSlot v.ticks (v.proc p).pid x).fork = x.fork := by
      intro x
      simp only [startSlot, forkSlot]
      split <;> exact ⟨rfl, rfl, rfl⟩
    have hs := hv.start (p := np) (hslot _).1 (hslot _).2.1 (hslot _).2.2
      fun _ => ⟨p, hv.child p np hf, hlive hc⟩
    exact hs.keep (kin_set (kin_fork (s := .none) (fun _ h => by cases h) _)) rfl id
  | exit hc hf hinit => exact hv.exit hval hi hc hf hinit
  | wait hc _ hwait => exact hv.waits hval (hlive hc) hwait
  | yield hc =>
    refine hv.keep (kin_set (kin_live (hlive hc) (.inr (.inl rfl)) rfl rfl ?_)) rfl id
    rintro q ⟨hs, _⟩
    cases hs
  | sleep addr hc =>
    refine hv.keep (kin_set (kin_live (hlive hc) (.inl rfl) rfl rfl ?_)) rfl id
    rintro q ⟨_, hchan⟩
    cases hchan
  | wakeup addr => exact hv.keep (fun q => kin_wake _ _ _) rfl id
  | kill => exact hv.keep (kin_set (kin_killSlot _ _)) rfl id
  | killFail => exact hv
  | setProcInfo => exact hv.keep (kin_set (kin_of_calm ⟨rfl, rfl, rfl, .inl rfl⟩ rfl rfl)) rfl id
  | trapKill => exact hv.keep (kin_set (kin_of_calm ⟨rfl, rfl, rfl, .inl rfl⟩ rfl rfl)) rfl id
  | schedulerIdle => exact hv
  | dispatch hc _ hbest hd => exact hv.dispatches hval hc hbest.1 hd
  | tick => exact hv.keep (fun q => .refl _) rfl id
  | timerIdle => exact hv
  | timer =>
    refine hv.keep (fun q => ?_) rfl id
    obtain ⟨hparent, hchan⟩ := timerSlot_links v.ticks _ q (v.proc q)
    exact kin_of_calm (calm_timerSlot _ _ _ _) hparent hchan

theorem KRun.family {h : List (Event n)} {k : Kernel n} (hr : KRun h k) : k.view.Family := by
  induction hr with
  | start =>
    refine ⟨fun p hm => ?_, fun p q _ hq => ?_, fun p np hf => ?_, fun p hp => ?_, fun p hp => ?_,
      fun _ p => rfl⟩
    · rcases hm with (hm | hm | hm) | hm <;> cases hm
    · cases hq
    · cases hf
    · cases hp
    · cases hp
  | next hr hs ih =>
    exact (KRun.trans hr hs).family ih (KRun.good hr).valid (KRun.initReady hr)

/-- **No child exit is lost**: in every run, a process asleep in `wait` has no zombie child, and every
process that is alive or a zombie, other than init, has a parent that can still wait for it. -/
theorem exits_reapable {h : List (Event n)} {k : Kernel n} (hr : KRun h k) :
    (∀ p q, (k.ptable.proc p).state = .sleeping → (k.ptable.proc p).chan = some (.proc p) →
      (k.ptable.proc q).parent = some p → (k.ptable.proc q).state ≠ .zombie) ∧
    ∀ p, (k.ptable.proc p).state = .sleeping ∨ (k.ptable.proc p).state = .runnable ∨
        (k.ptable.proc p).state = .running ∨ (k.ptable.proc p).state = .zombie →
      k.initproc ≠ some p →
      ∃ q, (k.ptable.proc p).parent = some q ∧ (k.ptable.proc q).state ≠ .unused ∧
        (k.ptable.proc q).state ≠ .zombie := by
  have hf := hr.family
  refine ⟨fun p q hs hchan hq => hf.asleep p q ⟨hs, hchan⟩ hq, fun p hp hne => ?_⟩
  have hmem : (k.view.proc p).state.Member := by
    rcases hp with hs | hs | hs | hs
    · exact .inl (.inl hs)
    · exact .inl (.inr (.inl hs))
    · exact .inl (.inr (.inr hs))
    · exact .inr hs
  obtain ⟨q, hq, hl⟩ := hf.parent p hmem hne
  exact ⟨q, hq, fun hs => not_live_unused hs hl, fun hs => not_live_zombie hs hl⟩

/-- init sleeps in `wait` while its child runs and has a zombie of its own. -/
theorem exits_reapable_zombie : ∃ (h : List (Event 2)) (k : Kernel 2), KRun h k ∧
    (k.ptable.proc 0).state = .sleeping ∧ (k.ptable.proc 0).chan = some (.proc 0) ∧
    (k.ptable.proc 1).parent = some 0 ∧ (k.ptable.proc 1).state ≠ .zombie ∧
    (k.ptable.proc 2).state = .zombie ∧ ∃ q, (k.ptable.proc 2).parent = some q ∧
      (k.ptable.proc q).state ≠ .unused ∧ (k.ptable.proc q).state ≠ .zombie := by
  obtain ⟨h, k, hr, hs, hchan, hpar, hz, hi⟩ := exists_kRun (n := 2)
    (P := fun _ k => (k.ptable.proc 0).state = .sleeping ∧ (k.ptable.proc 0).chan = some (.proc 0) ∧
      (k.ptable.proc 1).parent = some 0 ∧ (k.ptable.proc 2).state = .zombie ∧ k.initproc = some 0)
    (List.flatten [userinitActs 2, [.scheduler 0], forkActs 0, [.wait 0, .scheduler 0], forkActs 0,
      [.scheduler 1, .exit 1]])
    (by decide +kernel)
  obtain ⟨hasleep, hparent⟩ := exits_reapable hr
  exact ⟨h, k, hr, hs, hchan, hpar, hasleep 0 1 hs hchan hpar, hz,
    hparent 2 (.inr (.inr (.inr hz))) (by simp [hi])⟩

end Xv6Mlfq
