import Xv6Mlfq.Sched.Simulation

/-!
# Run queues, dispatch and CPUs

What holds in every reachable state about who is where. `RunQueues` spells out what the four run queues
are in terms of the pointers alone; `dispatch_optimal` says what the scheduler makes of them, and
`running_iff_one_cpu` ties the running processes to the CPUs.
-/

namespace Xv6Mlfq

open Lib

variable {n : Nat} {k k' : Kernel n} {c : Fin n} {p : PIdx}

/-- The pointers of the run queues, read as the lists `chain`. -/
structure RunQueues (t : Ptable) (chain : Level → List PIdx) : Prop where
  /-- The chain from `head` through `next` ends. -/
  walk : ∀ l, Walk (fun p => (t.proc p).next) (t.queues l).head (chain l)
  nodup : ∀ l, (chain l).Nodup
  tail : ∀ l, (t.queues l).tail = (chain l).getLast?
  last : ∀ l p, (t.queues l).tail = some p → (t.proc p).next = none
  inverse : ∀ p q, (t.proc p).next = some q ↔ (t.proc q).prev = some p
  empty : ∀ l, (t.queues l).head = none ↔ (t.queues l).tail = none
  disjoint : ∀ l l', l ≠ l' → (chain l).Disjoint (chain l')
  mem : ∀ l p, p ∈ chain l ↔ (t.proc p).state = .runnable ∧ (t.proc p).qLevel = l.toInt32
  off : ∀ p, (∀ l, p ∉ chain l) → (t.proc p).next = none ∧ (t.proc p).prev = none

theorem Queued.runQueues {t : Ptable} {qs : Level → List PIdx} (hq : Queued none t qs) :
    RunQueues t qs where
  walk := hq.repr.walk
  nodup := hq.repr.nodup
  tail := hq.repr.tail
  last l p hp := by
    obtain ⟨A, hA⟩ := List.getLast?_eq_some_iff.mp ((hq.repr.tail l).symm.trans hp)
    exact hq.repr.next l A p [] hA
  inverse p q := hq.repr.next_iff_prev
  empty l := by
    have hhead : (t.queues l).head = (qs l).head? := hq.repr.head l
    have htail : (t.queues l).tail = (qs l).getLast? := hq.repr.tail l
    rw [hhead, htail, List.head?_eq_none_iff, List.getLast?_eq_none_iff]
  disjoint l l' hne p hp hp' := hne (hq.repr.disjoint l l' p hp hp')
  mem l p := by
    rw [hq.mem, levelOf_eq_some]
    simp
  off := hq.repr.free

/-- **In every reachable state the pointers are four well-formed run queues**, and a process is on the
queue of a level exactly when it is runnable and has that level. -/
theorem runQueues_wellFormed (hr : Reachable k) : ∃ chain, RunQueues k.ptable chain := by
  obtain ⟨qs, hq⟩ := hr.good.queued
  exact ⟨qs, hq.runQueues⟩

/-- A state with two processes on the queue of level 3. -/
theorem runQueues_wellFormed_fork : ∃ k : Kernel 1, Reachable k ∧
    ((k.ptable.queues 3).head = some 1 ∧ (k.ptable.queues 3).tail = some 0) ∧
    ∃ chain, RunQueues k.ptable chain := by
  obtain ⟨h, k, hr, hk⟩ := exists_kRun (n := 1)
    (P := fun _ k => (k.ptable.queues 3).head = some 1 ∧ (k.ptable.queues 3).tail = some 0)
    (List.flatten [userinitActs 1, [.scheduler 0], forkActs 0, [.yield 0]]) (by decide +kernel)
  exact ⟨k, ⟨h, hr⟩, hk, runQueues_wellFormed ⟨h, hr⟩⟩

/-! ## Dispatch -/

/-- What the step of the scheduler on CPU `c` did with `p`: it runs there, or it was in `wait` and went
back to sleep. -/
def Dispatched (k k' : Kernel n) (c : Fin n) (p : PIdx) : Prop :=
  (k'.cpus c = some p ∧ (k'.ptable.proc p).state = .running) ∨
    (k.ptable.proc p).context = .wait ∧ k'.cpus c = none ∧ (k'.ptable.proc p).state = .sleeping

theorem dispatched_of_dispatches (h : Dispatches k.view c p k'.view) : Dispatched k k' c p := by
  show (k'.view.cpus c = some p ∧ (k'.view.proc p).state = .running) ∨
    (k.view.proc p).context = .wait ∧ k'.view.cpus c = none ∧ (k'.view.proc p).state = .sleeping
  generalize k'.view = v' at h ⊢
  cases h with
  | resume => simp
  | sleep => simp
  | wait hctx hwait =>
    cases hwait with
    | reap hq =>
      have hz := of_decide_eq_true (View.first_eq_some hq)
      left
      rename_i q
      have hne : p ≠ q := by
        rintro rfl
        simp at hz
      simp [hne]
    | fail => simp
    | sleep => simp [hctx, sleepSlot]

/-- **The scheduler dispatches whenever something is runnable**, and what it dispatches has the least
level of all runnable processes and the greatest `io_wait_time` on that level. -/
theorem dispatch_optimal (hr : Reachable k) (hc : k.started c ∧ k.cpus c = none) :
    ((∃ q, (k.ptable.proc q).state = .runnable) →
      ∃ p k', getNextProc k.ptable = some p ∧
        ((k.ptable.proc p).state = .runnable ∧ (k.ptable.proc p).kstack = true) ∧
        step k (.scheduler c) = .ok k' ∧ Dispatched k k' c p ∧
        ∀ q, (k.ptable.proc q).state = .runnable →
          (k.ptable.proc p).qLevel ≤ (k.ptable.proc q).qLevel ∧
          ((k.ptable.proc q).qLevel = (k.ptable.proc p).qLevel →
            (k.ptable.proc q).ioWaitTime ≤ (k.ptable.proc p).ioWaitTime)) ∧
    ((∀ q, (k.ptable.proc q).state ≠ .runnable) →
      getNextProc k.ptable = none ∧ step k (.scheduler c) = .ok k) := by
  have hk := hr.good
  have hstep : step k (.scheduler c) = scheduler k c := if_pos hc
  rw [hstep]
  constructor
  · rintro ⟨q, hq⟩
    cases hnext : getNextProc k.ptable with
    | none => exact absurd hq (getNextProc_none hk.queued hnext q)
    | some p =>
      obtain ⟨hbest, k', hk', _, hd⟩ := scheduler_dispatch (c := c) hk.queued hk.valid hnext
      refine ⟨p, k', rfl, ⟨hbest.1, hk.valid.stack p (.inr (.inl hbest.1))⟩, hk',
        dispatched_of_dispatches hd, fun q hq => ?_⟩
      obtain ⟨hle, hprec⟩ := hbest.2 q hq
      refine ⟨hle, fun heq => ?_⟩
      have := hprec heq.symm
      unfold Precedes at this
      have hio : (k.view.proc q).ioWaitTime ≤ (k.view.proc p).ioWaitTime := by grind
      exact hio
  · intro hidle
    cases hnext : getNextProc k.ptable with
    | none => exact ⟨rfl, scheduler_idle hnext⟩
    | some p =>
      obtain ⟨hbest, _⟩ := scheduler_dispatch (c := c) hk.queued hk.valid hnext
      exact absurd hbest.1 (hidle p)

/-- A child of init on level 3 and its own child on level 0: the scheduler takes the one on level 0. -/
theorem dispatch_optimal_levels : ∃ k : Kernel 1, Reachable k ∧
    (k.started 0 ∧ k.cpus 0 = none) ∧
    ((k.ptable.proc 1).state = .runnable ∧ (k.ptable.proc 1).qLevel = 3) ∧
    ∃ k', step k (.scheduler 0) = .ok k' ∧ Dispatched k k' 0 2 := by
  obtain ⟨h, k, hr, hc, hstate, hnext⟩ := exists_kRun (n := 1)
    (P := fun _ k => (k.started 0 ∧ k.cpus 0 = none) ∧
      ((k.ptable.proc 1).state = .runnable ∧ (k.ptable.proc 1).qLevel = 3) ∧
      getNextProc k.ptable = some 2)
    (List.flatten [userinitActs 1, [.scheduler 0], forkActs 0, [.wait 0, .scheduler 0], forkActs 0,
      [.yield 0]]) (by decide +kernel)
  obtain ⟨p, k', hp, _, hk', hd, _⟩ := (dispatch_optimal ⟨h, hr⟩ hc).1 ⟨1, hstate.1⟩
  obtain rfl : 2 = p := Option.some.inj (hnext.symm.trans hp)
  exact ⟨k, ⟨h, hr⟩, hc, hstate, k', hk', hd⟩

/-! ## CPUs -/

/-- **A process is running exactly when one CPU has it, and then only one.** -/
theorem running_iff_one_cpu (hr : Reachable k) :
    (∀ p, (k.ptable.proc p).state = .running ↔ ∃! c, k.cpus c = some p) ∧
      ∀ c p, k.cpus c = some p → (k.ptable.proc p).state = .running := by
  have hv := hr.good.valid
  refine ⟨fun p => ⟨fun hp => ?_, ?_⟩, hv.running⟩
  · obtain ⟨c, hc⟩ := hv.onCpu p hp
    exact ⟨c, hc, fun c' hc' => hv.once c' c p hc' hc⟩
  · rintro ⟨c, hc, _⟩
    exact hv.running c p hc

/-- Two processes on two CPUs. -/
theorem running_iff_one_cpu_two : ∃ k : Kernel 2, Reachable k ∧
    (k.cpus 0 = some 0 ∧ k.cpus 1 = some 1) ∧ ∃! c, k.cpus c = some 1 := by
  obtain ⟨h, k, hr, hk⟩ := exists_kRun (n := 2)
    (P := fun _ k => k.cpus 0 = some 0 ∧ k.cpus 1 = some 1)
    (List.flatten [userinitActs 2, [.scheduler 0], forkActs 0, [.scheduler 1]]) (by decide +kernel)
  have hrun := running_iff_one_cpu ⟨h, hr⟩
  exact ⟨k, ⟨h, hr⟩, hk, (hrun.1 1).mp (hrun.2 1 1 hk.2)⟩

end Xv6Mlfq
