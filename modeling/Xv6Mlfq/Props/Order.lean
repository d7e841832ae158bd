import Xv6Mlfq.Props.RunQueue
import Xv6Mlfq.Sched.Change

/-!
# The order of a queue

The README asks for first in, first out among processes with equal `io_wait_time`. `add_to_queue`
compares the entry ticks the other way round, so a queue is in that order only as long as processes
that tie on `io_wait_time` also tie on the entry tick (`fifoOrdered_of_noLateTie`). `fifo_violated` is
the shortest run in which they do not: init forks, a tick passes, and init yields.

`enqueued` says, from the state before a step, which processes the step puts on a queue.
-/

namespace Xv6Mlfq

open Lib

variable {n : Nat} {k k' : Kernel n} {a : Act n} {p q : PIdx} {h : List (Event n)}

/-- The order of the README: the larger `io_wait_time` first, and among equals the smaller
`queue_entry_time`. -/
def FifoBefore (x y : Sched) : Prop :=
  y.ioWaitTime < x.ioWaitTime ∨
    y.ioWaitTime = x.ioWaitTime ∧ x.queueEntryTime ≤ y.queueEntryTime

instance (x y : Sched) : Decidable (FifoBefore x y) := inferInstanceAs (Decidable (_ ∨ _))

/-- Every queue, from head to tail, is in the order of the README. -/
def FifoOrdered (t : Ptable) : Prop :=
  ∀ l chain, Walk (fun p => (t.proc p).next) (t.queues l).head chain →
    chain.Pairwise fun p q => FifoBefore (t.proc p).toSched (t.proc q).toSched

/-- The level and the `io_wait_time` with which a step puts `p` on a queue, if it does. -/
def enqueued (k : Kernel n) (a : Act n) (p : PIdx) : Option (Int32 × Int32) :=
  let x := k.ptable.proc p
  match a with
  | .userinitEnqueue => if k.boot = .enqueue p then some (3, 0) else none
  | .forkEnqueue c =>
    match k.cpus c with
    | some q =>
      if (k.ptable.proc q).fork = .enqueue p then
        some (if (k.ptable.proc q).pid = 1 then 3 else 0, 0)
      else none
    | none => none
  | .yield c => if k.cpus c = some p then some (x.qLevel, x.ioWaitTime) else none
  | .wakeup addr =>
    if x.state = .sleeping ∧ x.chan = some (.obj addr) then some (x.qLevel, x.ioWaitTime) else none
  | .kill _ pid =>
    if x.state = .sleeping ∧ (k.ptable.first fun x => x.pid = pid) = some p then
      some (x.qLevel, x.ioWaitTime)
    else none
  | .exit c =>
    match k.cpus c with
    | some q =>
      if x.state = .sleeping ∧ (x.chan = (k.ptable.proc q).parent.map .proc ∨
          x.chan = k.initproc.map .proc ∧
            ∃ r, (k.ptable.proc r).parent = some q ∧ (k.ptable.proc r).state = .zombie) then
        some (x.qLevel, x.ioWaitTime)
      else none
    | none => none
  | .timer c =>
    if k.cpus c ≠ none ∧ Due x.toSched then some (x.qLevel - 1, x.ioWaitTime) else none
  | _ => none

/-- A process that the step puts on a queue finds no process there, except those moved with it, that
has the same `io_wait_time` and came at an earlier tick. -/
def NoLateTie (k : Kernel n) (a : Act n) : Prop :=
  ∀ p, match enqueued k a p with
    | none => True
    | some (level, io) => ∀ q, (k.ptable.proc q).state = .runnable → enqueued k a q = none →
        (k.ptable.proc q).qLevel = level → (k.ptable.proc q).ioWaitTime = io →
        (k.ptable.proc q).queueEntryTime = k.ticks

instance (k : Kernel n) (a : Act n) : Decidable (NoLateTie k a) := by
  unfold NoLateTie
  have : ∀ p, Decidable (match enqueued k a p with
    | none => True
    | some (level, io) => ∀ q, (k.ptable.proc q).state = .runnable → enqueued k a q = none →
        (k.ptable.proc q).qLevel = level → (k.ptable.proc q).ioWaitTime = io →
        (k.ptable.proc q).queueEntryTime = k.ticks) := fun p => by
    split <;> infer_instance
  infer_instance

/-! ## Who enters a queue -/

theorem not_runnable_set {v : View n} {f : Proc → Proc} (hp : (v.proc p).state ≠ .runnable)
    (hf : (f (v.proc q)).state ≠ .runnable) : ((v.set q f).proc p).state ≠ .runnable := by
  rw [View.set_proc]
  split
  · exact hf
  · exact hp

theorem not_runnable_fork {v : View n} {f : Proc → Proc} {np : PIdx} {s : Fork}
    (hp : (v.proc p).state ≠ .runnable) (hq : (v.proc q).state ≠ .runnable)
    (hf : (f (v.proc np)).state ≠ .runnable) :
    (((v.set np f).set q fun x => { x with fork := s }).proc p).state ≠ .runnable :=
  not_runnable_set (not_runnable_set hp hf) (not_runnable_set hq hf)

theorem not_runnable_waits {v v' : View n} {c : Fin n} (hp : (v.proc p).state ≠ .runnable)
    (h : Waits v c q v') : (v'.proc p).state ≠ .runnable := by
  cases h with
  | reap => exact not_runnable_set hp (by simp [reapSlot])
  | fail => exact hp
  | sleep => exact not_runnable_set hp (by simp [sleepSlot])

theorem not_runnable_dispatches {v v' : View n} {c : Fin n} (hp : (v.proc p).state ≠ .runnable)
    (h : Dispatches v c q v') : (v'.proc p).state ≠ .runnable := by
  have hset : ∀ {f : Proc → Proc}, (f (v.proc q)).state = .running →
      (((v.set q f).run c (some q)).proc p).state ≠ .runnable := by
    intro f hf
    exact not_runnable_set hp (by simp [hf])
  cases h with
  | resume => exact hset rfl
  | sleep => exact hset rfl
  | wait _ hwait => exact not_runnable_waits (hset rfl) hwait

theorem wake_enters {ticks : UInt32} {chan : Option Chan} {x : Proc} (hx : x.state ≠ .runnable)
    (hy : (wake ticks chan x).state = .runnable) : x.state = .sleeping ∧ x.chan = chan := by
  unfold wake at hy
  split_ifs at hy with hc
  · exact hc
  · exact absurd hy hx

theorem abandon_enters {v : View n} (hx : (v.proc p).state ≠ .runnable)
    (hy : ((v.abandon q).proc p).state = .runnable) :
    (v.proc p).state = .sleeping ∧ ((v.proc p).chan = (v.proc q).parent.map .proc ∨
      (v.proc p).chan = v.initproc.map .proc ∧
        ∃ r, (v.proc r).parent = some q ∧ (v.proc r).state = .zombie) := by
  by_cases hw : (v.proc p).state = .sleeping ∧ (v.proc p).chan = (v.proc q).parent.map .proc
  · exact ⟨hw.1, .inl hw.2⟩
  · have hwake : wake v.ticks ((v.proc q).parent.map .proc) (v.proc p) = v.proc p := if_neg hw
    unfold View.abandon at hy
    simp only [hwake] at hy
    split_ifs at hy with horphan hparent hparent
    · have := wake_enters (by exact hx) hy
      exact ⟨this.1, .inr ⟨this.2, horphan⟩⟩
    · have := wake_enters (by exact hx) hy
      exact ⟨this.1, .inr ⟨this.2, horphan⟩⟩
    · exact absurd hy hx
    · exact absurd hy hx

theorem enqueued_of_trans {v' : View n} (ht : Trans k.view a v') (hv : k.view.Valid)
    (hnt : interrupted k a = none) (hx : (k.view.proc p).state ≠ .runnable)
    (hy : (v'.proc p).state = .runnable) :
    enqueued k a p = some ((v'.proc p).qLevel, (v'.proc p).ioWaitTime) := by
  have hrun : ∀ {c p}, k.view.cpus c = some p → (k.view.proc p).state ≠ .runnable :=
    fun hc => by simp [hv.running _ _ hc]
  have hset : ∀ {q : PIdx} {f : Proc → Proc}, ((k.view.set q f).proc p).state = .runnable →
      (f (k.view.proc q)).state = .runnable := by
    intro q f hy
    by_contra hf
    exact not_runnable_set hx hf hy
  have hchild : ∀ {p np}, (k.view.proc p).fork.np = some np → (k.view.proc np).state = .embryo :=
    fun hnp => hv.child _ _ hnp
  cases ht with
  | userinitAlloc => exact absurd (hset hy) (by simp [allocSlot])
  | userinitKalloc hboot =>
    exact absurd (hset hy) (by simp [allocStack, hv.bootNp _ (by rw [hboot]; rfl)])
  | userinitSetupkvm => exact absurd hy hx
  | @userinitEnqueue q hboot =>
    have hboot' : k.boot = .enqueue q := hboot
    have hqp : p = q := by
      by_contra hne
      simp [hne, hx] at hy
    subst hqp
    simp [enqueued, hboot', startInit, userinitSlot]
  | forkAlloc hc => exact absurd hy (not_runnable_fork hx (hrun hc) (by simp [allocSlot]))
  | forkAllocFail => exact absurd hy hx
  | forkKalloc ok hc hfork =>
    have hem := hchild (by rw [hfork]; rfl)
    exact absurd hy (not_runnable_fork hx (hrun hc) (by cases ok <;> simp [allocStack, hem]))
  | forkCopyuvm ok hc hfork =>
    have hem := hchild (by rw [hfork]; rfl)
    exact absurd hy (not_runnable_fork hx (hrun hc) (by cases ok <;> simp [copySlot, hem]))
  | @forkEnqueue c q np hc hfork =>
    have hc' : k.cpus c = some q := hc
    have hfork' : (k.ptable.proc q).fork = .enqueue np := hfork
    have hem := hchild (by rw [hfork]; rfl)
    have hne : np ≠ q := by
      rintro rfl
      simp [hv.running _ _ hc] at hem
    have hpnp : p = np := by
      by_contra hpnp
      by_cases hpq : p = q
      · subst hpq
        exact hrun hc (by simpa [hpnp] using hy)
      · exact hx (by simpa [hpnp, hpq] using hy)
    subst hpnp
    simp only [enqueued, hc', hfork', if_true, View.set_proc, if_neg hne, startSlot, forkSlot]
    show some (if (k.ptable.proc q).pid = 1 then 3 else 0, 0) = some (Sched.qLevel (Proc.toSched
      (if (k.ptable.proc q).pid = 1 then _ else _)), 0)
    split <;> rfl
  | @exit c q hc hfork hinit =>
    have hc' : k.cpus c = some q := hc
    have hpq : p ≠ q := by
      rintro rfl
      simp [exitSlot] at hy
    have hy' : ((k.view.abandon q).proc p).state = .runnable := by simpa [hpq] using hy
    have henters := abandon_enters hx hy'
    have hk := keeps_abandon k.view q p
    simp only [enqueued, hc', View.run_proc, View.set_proc, if_neg hpq, hk.qLevel, hk.ioWaitTime]
    exact if_pos henters
  | wait hc hfork hwait => exact absurd hy (not_runnable_waits hx hwait)
  | @yield c q hc =>
    have hc' : k.cpus c = some q := hc
    have hqp : p = q := by
      by_contra hne
      exact hx (by simpa [hne] using hy)
    subst hqp
    simp [enqueued, hc', yieldSlot, Kernel.view]
  | sleep addr => exact absurd (hset hy) (by simp [sleepSlot])
  | wakeup addr =>
    obtain ⟨hs, hchan⟩ := wake_enters hx hy
    have hk : Keeps k.view.ticks _ _ := keeps_wake (some (.obj addr)) (k.view.proc p)
    rw [hk.qLevel, hk.ioWaitTime]
    exact if_pos ⟨hs, hchan⟩
  | @kill c _ q pid hc hfork hq =>
    have hpq : p = q := by
      by_contra hne
      exact hx (by simpa [hne] using hy)
    subst hpq
    have hs : (k.view.proc p).state = .sleeping := by
      by_contra hs
      simp [killSlot, hs, hx] at hy
    have hk : Keeps k.view.ticks _ _ := keeps_killSlot (k.view.proc p)
    simp only [View.set_proc, if_true]
    rw [hk.qLevel, hk.ioWaitTime]
    exact if_pos ⟨hs, (view_first fun _ => rfl).trans hq⟩
  | killFail => exact absurd hy hx
  | setProcInfo info hc => exact absurd (hset hy) (by simp [setProcInfo, hv.running _ _ hc])
  | trapKill hc => exact absurd (hset hy) (by simp [hv.running _ _ hc])
  | schedulerIdle => exact absurd hy hx
  | dispatch hc hboot hbest hd => exact absurd hy (not_runnable_dispatches hx hd)
  | tick => exact absurd hy hx
  | timerIdle => exact absurd hy hx
  | timer hc =>
    have hc' : interrupted k (.timer _) = some _ := hc
    rw [hnt] at hc'
    cases hc'

theorem enqueued_eq_none (hv : k.view.Valid) (hnt : interrupted k a = none)
    (hx : (k.ptable.proc p).state = .runnable) : enqueued k a p = none := by
  have hembryo : ¬ (k.view.proc p).state = .embryo := by
    show ¬ (k.ptable.proc p).state = .embryo
    simp [hx]
  cases a with
  | userinitEnqueue =>
    refine if_neg fun hb => hembryo (hv.bootNp p ?_)
    show k.boot.np = some p
    rw [hb]
    rfl
  | forkEnqueue c =>
    unfold enqueued
    dsimp only
    cases hc : k.cpus c with
    | none => rfl
    | some q =>
      refine if_neg fun hf => hembryo (hv.child q p ?_)
      show (k.ptable.proc q).fork.np = some p
      rw [hf]
      rfl
  | yield c =>
    refine if_neg fun hc => ?_
    have hrun : (k.ptable.proc p).state = .running := hv.running c p hc
    simp [hx] at hrun
  | wakeup addr => exact if_neg (by simp [hx])
  | kill c pid => exact if_neg (by simp [hx])
  | exit c =>
    unfold enqueued
    dsimp only
    cases hc : k.cpus c with
    | none => rfl
    | some q => exact if_neg (by simp [hx])
  | timer c =>
    have hc : k.cpus c = none := hnt
    exact if_neg (by simp [hc])
  | _ => rfl

/-- A process that is runnable after a step stayed where it was, or was put on a queue now. -/
theorem stays_or_enters (hr : KRun h k) (hs : step k a = .ok k')
    (hp : (k'.ptable.proc p).state = .runnable) :
    (enqueued k a p = none ∧ (k.ptable.proc p).state = .runnable ∧
      (k'.ptable.proc p).qLevel = (k.ptable.proc p).qLevel ∧
      (k'.ptable.proc p).ioWaitTime = (k.ptable.proc p).ioWaitTime ∧
      (k'.ptable.proc p).queueEntryTime = (k.ptable.proc p).queueEntryTime) ∨
    (enqueued k a p = some ((k'.ptable.proc p).qLevel, (k'.ptable.proc p).ioWaitTime) ∧
      (k'.ptable.proc p).queueEntryTime = k.ticks) := by
  have hv := hr.good.valid
  have henters : interrupted k a = none → (k.ptable.proc p).state ≠ .runnable →
      enqueued k a p = some ((k'.ptable.proc p).qLevel, (k'.ptable.proc p).ioWaitTime) :=
    fun hnt hx => enqueued_of_trans (hr.trans hs) hv hnt hx hp
  have hstays := fun hnt => enqueued_eq_none (p := p) (a := a) hv hnt
  obtain ⟨x, y, hx, hy, hc⟩ := hr.change hs p
  rw [← hx] at henters hstays ⊢
  rw [← hy] at hp henters ⊢
  cases hc with
  | alloc => cases hp
  | startInit ha _ hem =>
    subst ha
    exact .inr ⟨henters rfl (by simp [hem]), rfl⟩
  | startChild ha _ _ hem =>
    subst ha
    exact .inr ⟨henters rfl (by simp [hem]), rfl⟩
  | setInfo _ hrun =>
    have : x.state = .runnable := hp
    simp [hrun] at this
  | timer ht hpass =>
    obtain ⟨c, rfl, hc⟩ := interrupted_eq_some.mp ht
    have hcond : enqueued k (.timer c) p =
        if Due x.toSched then some (x.qLevel - 1, x.ioWaitTime) else none := by
      rw [hx]
      simp [enqueued, hc]
    rw [hpass.state] at hp
    rw [hcond]
    cases hpass with
    | waited _ hd => exact .inl ⟨if_neg hd, hp, rfl, rfl, rfl⟩
    | promoted _ hd => exact .inr ⟨if_pos hd, rfl⟩
    | ran hs => simp [hp] at hs
    | quota _ hs => simp [hp] at hs
    | expired _ hs => simp [hp] at hs
    | slept hs => simp [hp] at hs
    | idle hs => exact absurd (.inr (.inl hp)) hs
  | keep _ _ hnt hk =>
    rcases hk.entry hp with ⟨hsx, hentry⟩ | ⟨hsx, hentry⟩
    · exact .inl ⟨hstays hnt hsx, hsx, hk.qLevel, hk.ioWaitTime, hentry⟩
    · exact .inr ⟨henters hnt hsx, hentry⟩

/-! ## The order -/

/-- Processes of one level that tie on `io_wait_time` came at one tick. -/
def TiesTogether (k : Kernel n) : Prop :=
  ∀ p q, (k.ptable.proc p).state = .runnable → (k.ptable.proc q).state = .runnable →
    (k.ptable.proc p).qLevel = (k.ptable.proc q).qLevel →
    (k.ptable.proc p).ioWaitTime = (k.ptable.proc q).ioWaitTime →
    (k.ptable.proc p).queueEntryTime = (k.ptable.proc q).queueEntryTime

theorem NoLateTie.entry (hno : NoLateTie k a) {level io : Int32}
    (hp : enqueued k a p = some (level, io)) (hq : (k.ptable.proc q).state = .runnable)
    (hstay : enqueued k a q = none) (hlevel : (k.ptable.proc q).qLevel = level)
    (hio : (k.ptable.proc q).ioWaitTime = io) : (k.ptable.proc q).queueEntryTime = k.ticks := by
  have := hno p
  rw [hp] at this
  exact this q hq hstay hlevel hio

theorem TiesTogether.step (hties : TiesTogether k) (hr : KRun h k) (hno : NoLateTie k a)
    (hs : step k a = .ok k') : TiesTogether k' := by
  intro p q hp hq hlevel hio
  rcases stays_or_enters hr hs hp with ⟨hpn, hps, hpl, hpi, hpe⟩ | ⟨hpn, hpe⟩ <;>
    rcases stays_or_enters hr hs hq with ⟨hqn, hqs, hql, hqi, hqe⟩ | ⟨hqn, hqe⟩
  · rw [hpe, hqe]
    exact hties p q hps hqs (by rw [← hpl, ← hql, hlevel]) (by rw [← hpi, ← hqi, hio])
  · rw [hpe, hqe]
    exact hno.entry hqn hps hpn (by rw [← hpl, hlevel]) (by rw [← hpi, hio])
  · rw [hpe, hqe]
    exact (hno.entry hpn hqs hqn (by rw [← hql, hlevel]) (by rw [← hqi, hio])).symm
  · rw [hpe, hqe]

theorem KRun.tiesTogether (hr : KRun h k) (hC : Always NoLateTie h) : TiesTogether k := by
  induction hr with
  | start =>
    intro p q hp
    cases hp
  | next hr hs ih =>
    obtain ⟨hno, hC⟩ := always_cons.mp hC
    exact (ih hC).step hr hno hs

/-- **First in, first out among equals**, in every run in which nobody is put on a queue where an
earlier process has the same `io_wait_time`. -/
theorem fifoOrdered_of_noLateTie (hr : KRun h k) (hC : Always NoLateTie h) :
    FifoOrdered k.ptable ∧
      ∀ p q, getNextProc k.ptable = some p → (k.ptable.proc q).state = .runnable →
        (k.ptable.proc q).qLevel = (k.ptable.proc p).qLevel →
        (k.ptable.proc q).ioWaitTime = (k.ptable.proc p).ioWaitTime →
        (k.ptable.proc p).queueEntryTime ≤ (k.ptable.proc q).queueEntryTime := by
  have hties := hr.tiesTogether hC
  obtain ⟨qs, hq⟩ := hr.good.queued
  constructor
  · intro l chain hwalk
    obtain rfl : chain = qs l := hwalk.unique (hq.repr.walk l)
    refine (hq.sorted l).imp_of_mem fun {p q} hp hq' hprec => ?_
    obtain ⟨_, hps, hpl⟩ := (hq.mem l p).mp hp
    obtain ⟨_, hqs, hql⟩ := (hq.mem l q).mp hq'
    rw [levelOf_eq_some] at hpl hql
    rcases hprec with hlt | ⟨hio, _⟩
    · exact .inl hlt
    · have := hties p q hps hqs (by rw [hpl, hql]) hio.symm
      exact .inr ⟨hio, UInt32.le_of_eq this⟩
  · intro p q hnext hqs hlevel hio
    obtain ⟨hbest, _⟩ := getNextProc_best hq hnext
    exact UInt32.le_of_eq (hties p q hbest.1 hqs hlevel.symm hio.symm)

/-- init and its child on level 3, both of tick 0. -/
theorem fifoOrdered_of_noLateTie_fork : ∃ (h : List (Event 1)) (k : Kernel 1), KRun h k ∧
    Always NoLateTie h ∧ Walk (fun p => (k.ptable.proc p).next) (k.ptable.queues 3).head [1, 0] ∧
    FifoOrdered k.ptable := by
  obtain ⟨h, k, hr, hC, hk⟩ := exists_kRun (n := 1)
    (P := fun h k => (∀ x ∈ h, NoLateTie x.1 x.2) ∧
      Walk (fun p => (k.ptable.proc p).next) (k.ptable.queues 3).head [1, 0])
    (List.flatten [userinitActs 1, [.scheduler 0], forkActs 0, [.yield 0]]) (by decide +kernel)
  exact ⟨h, k, hr, hC, hk, (fifoOrdered_of_noLateTie hr hC).1⟩

/-- **Last in, first out**: init forks at tick 0 and yields at tick 1. It is queued, and dispatched,
before its child. -/
theorem fifo_violated : ∃ (h : List (Event 1)) (k : Kernel 1), KRun h k ∧
    ¬ FifoOrdered k.ptable ∧ getNextProc k.ptable = some 0 ∧
    (k.ptable.proc 0).queueEntryTime = 1 ∧ (k.ptable.proc 1).queueEntryTime = 0 := by
  obtain ⟨h, k, hr, hwalk, hbad, hk⟩ := exists_kRun (n := 1)
    (P := fun _ k => Walk (fun p => (k.ptable.proc p).next) (k.ptable.queues 3).head [0, 1] ∧
      ¬ FifoBefore (k.ptable.proc 0).toSched (k.ptable.proc 1).toSched ∧
      getNextProc k.ptable = some 0 ∧
      (k.ptable.proc 0).queueEntryTime = 1 ∧ (k.ptable.proc 1).queueEntryTime = 0)
    (List.flatten [userinitActs 1, [.scheduler 0], forkActs 0, [.tick, .yield 0]]) (by decide +kernel)
  refine ⟨h, k, hr, fun hfifo => hbad ?_, hk⟩
  have := hfifo 3 [0, 1] hwalk
  simpa using this

end Xv6Mlfq
