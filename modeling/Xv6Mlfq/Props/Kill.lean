import Xv6Mlfq.Props.RunQueue
import Xv6Mlfq.Sched.Change

/-!
# kill

`kill` takes the first slot that has the pid, whatever its state. The pid of a free slot is 0, or the one
that a failed `fork` left there, so `kill(0)` and the pid of a failed child mark a free slot as killed;
`allocproc` does not clear the mark, and the next process in that slot is born dead (`killed_at_birth`).
A process that sleeps with a level out of range cannot be queued, and `kill` stops the kernel. For every
other pid `kill` marks the process, queues it if it sleeps, and touches nobody else (`KRun.killExact_iff`).
-/

namespace Xv6Mlfq

open Lib

variable {n : Nat} {k k' : Kernel n} {v v' : View n} {a : Act n} {p q : PIdx} {c : Fin n} {x y : Proc}
  {h : List (Event n)}

/-- What `kill(pid)` is to do: return 0 if a process has the pid, mark that process and make it runnable on
its queue if it sleeps; otherwise return -1 and change nothing. No other process changes, apart from the
links of the queue, and no free slot changes at all. -/
structure Kills (k : Kernel n) (pid : Int32) (t : Ptable) (r : Int32) : Prop where
  found : r = 0 ↔ ∃ p, (k.ptable.proc p).state ≠ .unused ∧ (k.ptable.proc p).pid = pid
  failed : r ≠ 0 → r = -1 ∧ t = k.ptable
  named : ∀ p, (k.ptable.proc p).state ≠ .unused → (k.ptable.proc p).pid = pid →
    t.body p = killSlot k.ticks (k.ptable.body p)
  others : ∀ p, (k.ptable.proc p).pid ≠ pid → t.body p = k.ptable.body p
  free : ∀ p, (k.ptable.proc p).state = .unused → t.proc p = k.ptable.proc p
  queues : ∃ chain, RunQueues t chain

/-- `kill(pid)` returns, and does what it is to do. -/
def KillExact (k : Kernel n) (pid : Int32) : Prop :=
  Sat (kill k.ticks k.ptable pid) (fun r => Kills k pid r.1 r.2) fun _ => False

def StalePid (k : Kernel n) (pid : Int32) : Prop :=
  ∃ p, (k.ptable.proc p).state = .unused ∧ (k.ptable.proc p).pid = pid

instance (k : Kernel n) (pid : Int32) : Decidable (StalePid k pid) :=
  inferInstanceAs (Decidable (∃ _, _ ∧ _))

/-- The process with the pid sleeps, and its level is none of the queues. -/
def SleepsOutside (k : Kernel n) (pid : Int32) : Prop :=
  ∃ p, (k.ptable.proc p).state = .sleeping ∧ (k.ptable.proc p).pid = pid ∧
    levelOf (k.ptable.proc p).qLevel = none

instance (k : Kernel n) (pid : Int32) : Decidable (SleepsOutside k pid) :=
  inferInstanceAs (Decidable (∃ _, _ ∧ _ ∧ _))

/-- The slot that `allocproc` takes in a step. -/
def allocated (k : Kernel n) : Act n → Option PIdx
  | .userinitAlloc => k.ptable.first fun x => x.state = .unused
  | .forkAlloc _ => k.ptable.first fun x => x.state = .unused
  | _ => none

/-- The child that a step gives up because the `fork` fails. -/
def failedFork (k : Kernel n) : Act n → Option PIdx
  | .forkKalloc c ok => if ok then none else (k.cpus c).bind fun p => (k.ptable.proc p).fork.np
  | .forkCopyuvm c ok => if ok then none else (k.cpus c).bind fun p => (k.ptable.proc p).fork.np
  | _ => none

def killedPid : Act n → Option Int32
  | .kill _ pid => some pid
  | _ => none

/-- A `kill` of the process in slot `q`, by its pid, since `allocproc` took the slot. -/
def killedSince (q : PIdx) : List (Event n) → Bool
  | [] => false
  | (k, a) :: h =>
    if allocated k a = some q then false
    else killedPid a = some (k.ptable.proc q).pid || killedSince q h

/-- The step kills a pid that a free slot has. -/
def staleKill (k : Kernel n) (a : Act n) : Bool :=
  match killedPid a with
  | some pid => decide (StalePid k pid)
  | none => false

/-- The step gives up a child that has been killed. -/
def killedChild (k : Kernel n) (a : Act n) : Bool :=
  match failedFork k a with
  | some q => (k.ptable.proc q).killed
  | none => false

/-- No `kill` of a pid that a free slot has, and no failed `fork` whose child has been killed. -/
def NoStaleKill (k : Kernel n) (a : Act n) : Prop := staleKill k a = false ∧ killedChild k a = false

instance (k : Kernel n) (a : Act n) : Decidable (NoStaleKill k a) :=
  inferInstanceAs (Decidable (_ ∧ _))

theorem NoStaleKill.kill {pid : Int32} (hC : NoStaleKill k (.kill c pid)) : ¬ StalePid k pid := by
  simpa [staleKill, killedPid] using hC.1

theorem NoStaleKill.fails (hC : NoStaleKill k a) (hq : failedFork k a = some q) :
    (k.ptable.proc q).killed = false := by
  simpa [killedChild, hq] using hC.2

/-! ## The pid and the mark of one slot -/

/-- What a step does to the pid and the mark of slot `q`. -/
inductive Marks (v v' : View n) (a : Act n) (q : PIdx) (x y : Proc) : Prop
  | keep (hpid : y.pid = x.pid) (hkilled : y.killed = x.killed)
      (hunused : y.state = .unused → x.state = .unused)
      (hembryo : y.state = .embryo → x.state = .embryo)
  | owner (hold : x.state ≠ .embryo) (hpid : y.pid = x.pid) (hunused : y.state ≠ .unused)
      (hembryo : y.state ≠ .embryo)
  | alloc (hq : v.first (fun x => x.state = .unused) = some q) (ha : a = .userinitAlloc ∨ ∃ c, a = .forkAlloc c)
      (hpid : y.pid = v.nextpid) (hnext : v.nextpid ≠ Int32.maxValue ∧ v'.nextpid = v.nextpid + 1)
      (hkilled : y.killed = x.killed) (hembryo : y.state = .embryo)
  | reap (hpid : y.pid = 0) (hkilled : y.killed = false) (hunused : y.state = .unused)
  | kill {c : Fin n} (ha : a = .kill c x.pid) (hpid : y.pid = x.pid)
      (hunused : y.state = .unused → x.state = .unused)
      (hembryo : y.state = .embryo → x.state = .embryo)
  | fail (hq : ∃ c p, (a = .forkKalloc c false ∨ a = .forkCopyuvm c false) ∧ v.cpus c = some p ∧
        (v.proc p).fork.np = some q)
      (hpid : y.pid = x.pid) (hkilled : y.killed = x.killed) (hunused : y.state = .unused)

namespace Marks

theorem refl (x : Proc) : Marks v v' a q x x := .keep rfl rfl id id

theorem other {z : Proc} (hm : Marks v v' a q x y) (hz : z.toSched = y.toSched) : Marks v v' a q x z := by
  have hs : z.state = y.state := congrArg Sched.state hz
  have hp : z.pid = y.pid := congrArg Sched.pid hz
  have hk : z.killed = y.killed := congrArg Sched.killed hz
  cases hm with
  | keep h₁ h₂ h₃ h₄ => exact .keep (hp.trans h₁) (hk.trans h₂) (hs ▸ h₃) (hs ▸ h₄)
  | owner h₁ h₂ h₃ h₄ => exact .owner h₁ (hp.trans h₂) (hs ▸ h₃) (hs ▸ h₄)
  | alloc h₁ h₂ h₃ h₄ h₅ h₆ => exact .alloc h₁ h₂ (hp.trans h₃) h₄ (hk.trans h₅) (hs.trans h₆)
  | reap h₁ h₂ h₃ => exact .reap (hp.trans h₁) (hk.trans h₂) (hs.trans h₃)
  | kill h₁ h₂ h₃ h₄ => exact .kill h₁ (hp.trans h₂) (hs ▸ h₃) (hs ▸ h₄)
  | fail h₁ h₂ h₃ h₄ => exact .fail h₁ (hp.trans h₂) (hk.trans h₃) (hs.trans h₄)

/-- A change before the step that neither the pid nor the mark nor a free slot notices. -/
theorem pre {z : Proc} (hm : Marks v v' a q y z) (hpid : y.pid = x.pid) (hkilled : y.killed = x.killed)
    (hun : y.state = .unused → x.state = .unused) (hem : y.state = .embryo ↔ x.state = .embryo) :
    Marks v v' a q x z := by
  cases hm with
  | keep h₁ h₂ h₃ h₄ => exact .keep (h₁.trans hpid) (h₂.trans hkilled) (hun ∘ h₃) (hem.mp ∘ h₄)
  | owner h₁ h₂ h₃ h₄ => exact .owner (h₁ ∘ hem.mpr) (h₂.trans hpid) h₃ h₄
  | alloc h₁ h₂ h₃ h₄ h₅ h₆ => exact .alloc h₁ h₂ h₃ h₄ (h₅.trans hkilled) h₆
  | reap h₁ h₂ h₃ => exact .reap h₁ h₂ h₃
  | kill h₁ h₂ h₃ h₄ => exact .kill (hpid ▸ h₁) (h₂.trans hpid) (hun ∘ h₃) (hem.mp ∘ h₄)
  | fail h₁ h₂ h₃ h₄ => exact .fail h₁ (h₂.trans hpid) (h₃.trans hkilled) h₄

theorem set {w : View n} {f : Proc → Proc} (hf : Marks v v' a p (w.proc p) (f (w.proc p))) (q : PIdx) :
    Marks v v' a q (w.proc q) ((w.set p f).proc q) := by
  rw [View.set_proc]
  split
  · rename_i heq
    exact heq ▸ hf
  · exact .refl _

theorem moved (hpid : y.pid = x.pid) (hkilled : y.killed = x.killed) (hy : y.state ≠ .unused)
    (hem : y.state ≠ .embryo) : Marks v v' a q x y :=
  .keep hpid hkilled (fun h => absurd h hy) fun h => absurd h hem

theorem of_calm (hc : Calm x y) (hpid : y.pid = x.pid) (hkilled : y.killed = x.killed) :
    Marks v v' a q x y := by
  rcases hc.state with hs | ⟨_, hs⟩
  · exact .keep hpid hkilled (hs ▸ id) (hs ▸ id)
  · exact .moved hpid hkilled (by simp [hs]) (by simp [hs])

theorem wake (ticks : UInt32) (chan : Option Chan) (x : Proc) :
    Marks v v' a q x (wake ticks chan x) := by
  refine .of_calm (calm_wake ticks chan x) ?_ ?_ <;> unfold Xv6Mlfq.wake <;> split <;> rfl

theorem waits {w w' : View n} (hw : Waits w c p w') (q : PIdx) :
    Marks v v' a q (w.proc q) (w'.proc q) := by
  cases hw with
  | reap => exact .set (.reap rfl rfl rfl) q
  | fail => exact .refl _
  | sleep => exact .set (.moved rfl rfl (by simp [sleepSlot]) (by simp [sleepSlot])) q

end Marks

/-- The timer interrupt writes no pid, and marks no process but the one it interrupts. -/
theorem timerSlot_marks (ticks : UInt32) (p q : PIdx) (x : Proc) :
    (timerSlot ticks p q x).pid = x.pid ∧ (q ≠ p → (timerSlot ticks p q x).killed = x.killed) := by
  have hage : ∀ x : Proc, (age ticks x).pid = x.pid ∧ (age ticks x).killed = x.killed := by
    intro x
    unfold age
    split <;> exact ⟨rfl, rfl⟩
  have hupd : ∀ x : Proc, (updateProcTimers x).pid = x.pid ∧
      (updateProcTimers x).killed = x.killed := by
    intro x
    unfold updateProcTimers
    split
    · exact ⟨rfl, rfl⟩
    · split <;> exact ⟨rfl, rfl⟩
  have hquota : ∀ x : Proc, (quotaSlot x).pid = x.pid := by
    intro x
    unfold quotaSlot quantumSlot demoteProcess
    split
    · rfl
    · split
      · split
        · split_ifs <;> rfl
        · rfl
      · rfl
  unfold timerSlot
  refine ⟨?_, fun hne => ?_⟩
  · rw [(hage _).1]
    split
    · rw [hquota, (hupd x).1]
    · exact (hupd x).1
  · rw [if_neg hne, (hage _).2, (hupd x).2]

theorem startSlot_marks (ticks : UInt32) (pid : Int32) (x : Proc) :
    (startSlot ticks pid x).pid = x.pid ∧ (startSlot ticks pid x).killed = x.killed ∧
      (startSlot ticks pid x).state = .runnable := by
  simp only [startSlot, forkSlot]
  split <;> exact ⟨rfl, rfl, rfl⟩

theorem abandon_marks (v : View n) (p q : PIdx) :
    ((v.abandon p).proc q).pid = (v.proc q).pid ∧ ((v.abandon p).proc q).killed = (v.proc q).killed := by
  simp only [View.abandon, wake]
  split_ifs <;> exact ⟨rfl, rfl⟩

/-- **What a step does to the pid and the mark of a slot.** -/
theorem Trans.marks (ht : Trans v a v') (hv : v.Valid) (q : PIdx) :
    Marks v v' a q (v.proc q) (v'.proc q) := by
  have hstack : ∀ {np}, (v.proc np).state = .embryo →
      Marks v v' a np (v.proc np) (allocStack true (v.proc np)) := fun _ => .keep rfl rfl id id
  -- the parent's own slot changes in `fork` only
  have hparent : ∀ {w : View n} {p s} (q), Marks v v' a q (v.proc q) (w.proc q) →
      Marks v v' a q (v.proc q) ((w.set p fun x => { x with fork := s }).proc q) := by
    intro w p s q hm
    refine hm.other ?_
    rw [View.set_proc]
    split
    · rename_i heq
      rw [heq]
    · rfl
  cases ht with
  | userinitAlloc _ hp hmax => exact .set (.alloc hp (.inl rfl) rfl ⟨hmax, rfl⟩ rfl rfl) q
  | userinitKalloc hb => exact .set (hstack (hv.bootNp _ (by rw [hb]; rfl))) q
  | userinitSetupkvm => exact .refl _
  | userinitEnqueue => exact .set (.moved rfl rfl (by simp [startInit, userinitSlot])
      (by simp [startInit, userinitSlot])) q
  | forkAlloc _ _ hnp hmax =>
    exact hparent q (.set (.alloc hnp (.inr ⟨_, rfl⟩) rfl ⟨hmax, rfl⟩ rfl rfl) q)
  | forkAllocFail => exact .refl _
  | @forkKalloc c p np ok hc hf =>
    refine hparent q (.set ?_ q)
    cases ok with
    | true => exact hstack (hv.child p np (by rw [hf]; rfl))
    | false => exact .fail ⟨c, p, .inl rfl, hc, by rw [hf]; rfl⟩ rfl rfl rfl
  | @forkCopyuvm c p np ok hc hf =>
    refine hparent q (.set ?_ q)
    cases ok with
    | true => exact .keep rfl rfl id id
    | false => exact .fail ⟨c, p, .inr rfl, hc, by rw [hf]; rfl⟩ rfl rfl rfl
  | @forkEnqueue c p np =>
    obtain ⟨hpid, hkilled, hs⟩ := startSlot_marks v.ticks (v.proc p).pid (v.proc np)
    exact hparent q (.set (.moved hpid hkilled (by simp [hs]) (by simp [hs])) q)
  | @exit c p hc =>
    obtain ⟨hpid, hkilled⟩ := abandon_marks v p q
    show Marks v _ _ q _ (((v.abandon p).set p exitSlot).proc q)
    rw [View.set_proc]
    split
    · rename_i heq
      subst heq
      exact .moved hpid hkilled (by simp [exitSlot]) (by simp [exitSlot])
    · exact .of_calm (calm_abandon v p q) hpid hkilled
  | wait _ _ hw => exact .waits hw q
  | yield => exact .set (.moved rfl rfl (by simp [yieldSlot]) (by simp [yieldSlot])) q
  | sleep => exact .set (.moved rfl rfl (by simp [sleepSlot]) (by simp [sleepSlot])) q
  | wakeup => exact .wake _ _ _
  | @kill c p r pid _ _ hr =>
    have hpid : (v.proc r).pid = pid := of_decide_eq_true (View.first_eq_some hr)
    refine .set ?_ q
    rcases (calm_killSlot v.ticks (v.proc r)).state with hs | ⟨_, hs⟩
    · refine .kill (c := c) (by rw [hpid]) ?_ (hs ▸ id) (hs ▸ id)
      unfold killSlot
      split <;> rfl
    · refine .kill (c := c) (by rw [hpid]) ?_ (by simp [hs]) (by simp [hs])
      unfold killSlot
      split <;> rfl
  | killFail => exact .refl _
  | setProcInfo => exact .set (.keep rfl rfl id id) q
  | trapKill hc =>
    have hrun := hv.running _ _ hc
    exact .set (.owner (by simp [hrun]) rfl (by simp [hrun]) (by simp [hrun])) q
  | schedulerIdle => exact .refl _
  | @dispatch c p v' _ _ hbest hd =>
    cases hd with
    | resume =>
      exact .set (f := fun x => { x with state := .running }) (.moved rfl rfl (by simp) (by simp)) q
    | sleep =>
      exact .set (f := fun x => { x with state := .running, chan := none })
        (.moved rfl rfl (by simp) (by simp)) q
    | wait _ hw =>
      have hrunnable := hbest.1
      refine (Marks.waits hw q).pre ?_ ?_ ?_ ?_ <;> rw [View.run_proc, View.set_proc] <;> split <;>
        simp_all
  | tick => exact .refl _
  | timerIdle => exact .refl _
  | @timer c p hc =>
    obtain ⟨hpid, hkilled⟩ := timerSlot_marks v.ticks p q (v.proc q)
    by_cases hqp : q = p
    · subst hqp
      have hrun := hv.running c q hc
      have hs := (calm_timerSlot v.ticks q q (v.proc q)).state
      refine .owner (by simp [hrun]) hpid ?_ ?_
      · rcases hs with hs | ⟨_, hs⟩ <;> simp [hs, hrun]
      · rcases hs with hs | ⟨_, hs⟩ <;> simp [hs, hrun]
    · exact .of_calm (calm_timerSlot _ _ _ _) hpid (hkilled hqp)

/-! ## Pids are handed out once -/

/-- No two processes have the same pid, and free slots share none but 0. -/
structure View.PidsFresh (v : View n) : Prop where
  next : 1 ≤ v.nextpid
  lt : ∀ p, (v.proc p).pid < v.nextpid
  once : ∀ p q, (v.proc p).pid = (v.proc q).pid → p = q ∨ (v.proc p).pid = 0

theorem Marks.pid_cases (hm : Marks v v' a q x y) :
    y.pid = x.pid ∨ y.pid = 0 ∨ v.first (fun x => x.state = .unused) = some q ∧ y.pid = v.nextpid ∧
      v.nextpid ≠ Int32.maxValue ∧ v'.nextpid = v.nextpid + 1 := by
  cases hm with
  | keep hpid => exact .inl hpid
  | owner _ hpid => exact .inl hpid
  | alloc hq _ hpid hnext => exact .inr (.inr ⟨hq, hpid, hnext⟩)
  | reap hpid => exact .inr (.inl hpid)
  | kill _ hpid => exact .inl hpid
  | fail _ hpid => exact .inl hpid

theorem Trans.pidsFresh (ht : Trans v a v') (hv : v.Valid) (hp : v.PidsFresh) : v'.PidsFresh := by
  obtain ⟨hone, hlt, honce⟩ := hp
  have hmax : Int32.maxValue = 2147483647 := rfl
  have hpid := fun q => (ht.marks hv q).pid_cases
  have hnext := ht.nextpid
  refine ⟨by grind, fun q => ?_, fun q r heq => ?_⟩
  · have hq := hlt q
    rcases hpid q with h | h | ⟨_, h, _⟩ <;> rw [h] <;> grind
  · have hq := hlt q
    have hr := hlt r
    rcases hpid q with h | h | ⟨hfq, h, _⟩
    · rcases hpid r with h' | h' | ⟨_, h', _⟩
      · rw [h] at heq ⊢
        exact honce q r (heq.trans h')
      · exact .inr (heq.trans h')
      · rw [h, h'] at heq
        exact absurd hq (heq ▸ Int32.lt_irrefl)
    · exact .inr h
    · rcases hpid r with h' | h' | ⟨hfr, _, _⟩
      · rw [h, h'] at heq
        exact absurd hr (heq ▸ Int32.lt_irrefl)
      · exact .inr (heq.trans h')
      · exact .inl (Option.some.inj (hfq.symm.trans hfr))

theorem KRun.pidsFresh (hr : KRun h k) : k.view.PidsFresh := by
  induction hr with
  | start =>
    have hone : (1 : Int32) ≤ 1 := by decide
    have hpos : (0 : Int32) < 1 := by decide
    exact ⟨hone, fun p => hpos, fun p q _ => .inr rfl⟩
  | next hr hs ih => exact (KRun.trans hr hs).pidsFresh (KRun.good hr).valid ih

theorem KRun.stalePid (hr : KRun h k) {pid : Int32} (hstale : StalePid k pid)
    (hq : (k.ptable.proc q).pid = pid) : (k.ptable.proc q).state = .unused := by
  obtain ⟨p, hp, hpid⟩ := hstale
  by_contra hun
  have hpos := hr.pidsPos.pos q hun
  rcases hr.pidsFresh.once q p (hq.trans hpid.symm) with heq | hzero
  · exact hun (heq ▸ hp)
  · have hz : (k.ptable.proc q).pid = 0 := hzero
    rw [hz] at hpos
    exact absurd hpos (by decide)

/-! ## The mark of a new process -/

/-- Free slots are unmarked, and a process that is being set up is marked only by its own pid. -/
def Unmarked (h : List (Event n)) (k : Kernel n) : Prop :=
  ∀ q, ((k.ptable.proc q).state = .unused → (k.ptable.proc q).killed = false) ∧
    ((k.ptable.proc q).state = .embryo → (k.ptable.proc q).killed = true → killedSince q h = true)

theorem failedFork_of_fail (hq : ∃ c p, (a = .forkKalloc c false ∨ a = .forkCopyuvm c false) ∧
    k.view.cpus c = some p ∧ (k.view.proc p).fork.np = some q) : failedFork k a = some q := by
  obtain ⟨c, p, ha | ha, hc, hf⟩ := hq
  all_goals
    subst ha
    have hc' : k.cpus c = some p := hc
    have hf' : (k.ptable.proc p).fork.np = some q := hf
    simp [failedFork, hc', hf']

theorem killedSince_mono (hne : allocated k a ≠ some q) (hk : killedSince q h = true) :
    killedSince q ((k, a) :: h) = true := by
  simp [killedSince, hne, hk]

theorem KRun.unmarked (hr : KRun h k) (hC : Always NoStaleKill h) : Unmarked h k := by
  induction hr with
  | start => exact fun q => ⟨fun _ => rfl, fun hs => by cases hs⟩
  | @next h k k' a hr hs ih =>
    obtain ⟨hstep, hC⟩ := always_cons.mp hC
    have ih := ih hC
    intro q
    obtain ⟨hfree, hnew⟩ := ih q
    have hval := (KRun.good hr).valid
    -- only `allocproc` forgets who has been killed
    have hforget : allocated k a = some q → (k.ptable.proc q).state = .unused := by
      intro hq
      have hfirst : k.ptable.first (fun x => x.state = .unused) = some q := by
        cases a <;> simp_all [allocated]
      simpa using List.find?_some hfirst
    have hm := (KRun.trans hr hs).marks hval q
    cases hm with
    | keep hpid hkilled hun hem =>
      refine ⟨fun hy => hkilled.trans (hfree (hun hy)), fun hy hk => ?_⟩
      have hx : (k.ptable.proc q).state = .embryo := hem hy
      refine killedSince_mono (fun hq => ?_) (hnew hx (hkilled.symm.trans hk))
      simp [hforget hq] at hx
    | owner _ _ hun hem => exact ⟨fun hy => absurd hy hun, fun hy => absurd hy hem⟩
    | alloc hq ha hpid hnext hkilled hem =>
      have hun : (k.ptable.proc q).state = .unused := of_decide_eq_true (View.first_eq_some hq)
      refine ⟨fun hy => ?_, fun _ hk => ?_⟩
      · exact absurd (hem.symm.trans hy) nofun
      · have := hfree hun
        have hk' : (k.ptable.proc q).killed = true := hkilled.symm.trans hk
        simp [this] at hk'
    | reap _ hkilled hun =>
      refine ⟨fun _ => hkilled, fun hy => ?_⟩
      exact absurd (hun.symm.trans hy) nofun
    | @kill c ha hpid hun hem =>
      have hnostale : ¬ StalePid k (k.ptable.proc q).pid := by
        subst ha
        exact NoStaleKill.kill hstep
      refine ⟨fun hy => absurd ⟨q, hun hy, rfl⟩ hnostale, fun _ _ => ?_⟩
      subst ha
      have hpid : killedPid (.kill c (k.view.proc q).pid) = some (k.ptable.proc q).pid := rfl
      simp [killedSince, allocated, hpid]
    | fail hq hpid hkilled hun =>
      refine ⟨fun _ => hkilled.trans (NoStaleKill.fails hstep (failedFork_of_fail hq)), fun hy => ?_⟩
      exact absurd (hun.symm.trans hy) nofun

/-! ## What kill returns -/

theorem kill_value (ticks : UInt32) (t : Ptable) (pid : Int32) :
    Sat (kill ticks t pid)
      (fun r => r.2 = if t.first (fun x => x.pid = pid) = none then -1 else 0) (fun _ => True) := by
  unfold kill
  cases t.first fun x => x.pid = pid with
  | none => rfl
  | some p =>
    exact Sat.ite (fun _ => Sat.bind (Sat.of_true _) fun _ _ => rfl) fun _ => rfl

theorem proc_eq_of_body {t t' : Ptable} (hq : WellQueued t) (hq' : WellQueued t')
    (hbody : t'.body p = t.body p) (hp : (t.proc p).state ≠ .runnable) : t'.proc p = t.proc p := by
  have hs : (t'.body p).state = (t.body p).state := by rw [hbody]
  obtain ⟨hnext, hprev⟩ := hq.free hp
  obtain ⟨hnext', hprev'⟩ := hq'.free (hs ▸ hp)
  have hfree : ∀ x : Proc, x.next = none → x.prev = none → x.body = x := by
    rintro x h₁ h₂
    simp [Proc.ext_iff, Proc.body, h₁, h₂]
  rw [← hfree _ hnext hprev, ← hfree _ hnext' hprev']
  exact hbody

theorem first_pid_none {t : Ptable} {pid : Int32} (h : t.first (fun x => x.pid = pid) = none)
    (p : PIdx) : (t.proc p).pid ≠ pid := by
  simpa using List.find?_eq_none.mp h p (List.mem_finRange p)

theorem KRun.pid_unique (hr : KRun h k) (hp : (k.ptable.proc p).state ≠ .unused)
    (hpq : (k.ptable.proc p).pid = (k.ptable.proc q).pid) : p = q := by
  have hpos := hr.pidsPos.pos p hp
  rcases hr.pidsFresh.once p q hpq with heq | hzero
  · exact heq
  · have hz : (k.ptable.proc p).pid = 0 := hzero
    rw [hz] at hpos
    exact absurd hpos (by decide)

theorem KRun.not_killExact_of_stale (hr : KRun h k) {pid : Int32} (hstale : StalePid k pid) : ¬ KillExact k pid := by
  have hall : ∀ q, (k.ptable.proc q).pid = pid → (k.ptable.proc q).state = .unused :=
    fun q => hr.stalePid hstale
  obtain ⟨p₀, _, hp₀⟩ := hstale
  intro hexact
  unfold KillExact kill at hexact
  cases hfirst : k.ptable.first fun x => x.pid = pid with
  | none => exact first_pid_none hfirst p₀ hp₀
  | some q =>
    have hpid : (k.ptable.proc q).pid = pid := by simpa using List.find?_some hfirst
    have hun := hall q hpid
    simp only [hfirst, Ptable.modify_proc, Function.update_self, hun, reduceCtorEq, if_false,
      sat_pure] at hexact
    obtain ⟨p, hp, hpp⟩ := hexact.found.mp rfl
    exact hp (hall p hpp)

theorem KRun.not_killExact_of_outside (hr : KRun h k) {pid : Int32} (hout : SleepsOutside k pid) :
    ¬ KillExact k pid := by
  obtain ⟨p, hs, hpid, hlevel⟩ := hout
  intro hexact
  unfold KillExact kill at hexact
  cases hfirst : k.ptable.first fun x => x.pid = pid with
  | none => exact first_pid_none hfirst p hpid
  | some q =>
    have hq : (k.ptable.proc q).pid = pid := by simpa using List.find?_some hfirst
    obtain rfl : p = q := hr.pid_unique (by simp [hs]) (hpid.trans hq.symm)
    simp [hfirst, hs, addToQueue, hlevel] at hexact

/-- **kill is exact for the pids that no free slot has**, unless it has to queue a process whose level is
out of range, and for no other pid. -/
theorem KRun.killExact_iff (hr : KRun h k) (pid : Int32) :
    KillExact k pid ↔ ¬ StalePid k pid ∧ ¬ SleepsOutside k pid := by
  have hval := kill_value k.ticks k.ptable pid
  have hq := hr.good.queued
  constructor
  · exact fun hexact => ⟨fun hs => hr.not_killExact_of_stale hs hexact,
      fun ho => hr.not_killExact_of_outside ho hexact⟩
  · rintro ⟨hstale, hout⟩
    refine ((kill_spec hq pid).and hval).mono ?_ fun e he => hout he.1.2
    rintro ⟨t, r⟩ ⟨⟨⟨qs, hqt⟩, hcases⟩, hr₀⟩
    rcases hcases with ⟨hnone, rfl⟩ | ⟨q, hsome, hview⟩
    · rw [← view_first fun _ => rfl] at hnone
      rw [if_pos hnone] at hr₀
      obtain rfl : r = -1 := hr₀
      have hno := first_pid_none hnone
      refine ⟨⟨(fun h => by cases h), ?_⟩, fun _ => ⟨rfl, rfl⟩, ?_, fun _ _ => rfl, fun _ _ => rfl,
        ⟨qs, hqt.runQueues⟩⟩
      · rintro ⟨p, _, hp⟩
        exact absurd hp (hno p)
      · exact fun p _ hp => absurd hp (hno p)
    · have hpid : (k.view.proc q).pid = pid := of_decide_eq_true (View.first_eq_some hsome)
      rw [view_first fun _ => rfl, hsome, if_neg (fun h => by cases h)] at hr₀
      obtain rfl : r = 0 := hr₀
      have hq' : (k.ptable.proc q).state ≠ .unused := fun hun => hstale ⟨q, hun, hpid⟩
      have hbody : ∀ p, t.body p = (k.view.set q (killSlot k.ticks)).proc p := by
        intro p
        rw [← hview]
        rfl
      have hother : ∀ p, p ≠ q → t.body p = k.ptable.body p := by
        intro p hpq
        rw [hbody, View.set_proc, if_neg hpq]
        rfl
      refine ⟨⟨fun _ => ⟨q, hq', hpid⟩, fun _ => rfl⟩, fun hne => absurd rfl hne, ?_, ?_, ?_,
        ⟨qs, hqt.runQueues⟩⟩
      · intro p hp hpp
        obtain rfl : p = q := hr.pid_unique hp (hpp.trans hpid.symm)
        rw [hbody, View.set_proc, if_pos rfl]
        rfl
      · exact fun p hp => hother p fun heq => hp (heq ▸ hpid)
      · intro p hp
        exact proc_eq_of_body hq ⟨qs, hqt⟩ (hother p fun heq => hq' (heq ▸ hp)) (by simp [hp])

/-- **kill affects only the process it names.** In every state reached, `kill(pid)` is exact if and only
if no free slot has the pid and the process does not sleep with a level out of range. In every run without a `kill`
of such a pid, and without a failed `fork` whose child has been killed, the child of a successful `fork` is marked
only if it has been killed by its own pid. -/
theorem kill_names_process (hr : KRun h k) :
    (∀ pid, KillExact k pid ↔ ¬ StalePid k pid ∧ ¬ SleepsOutside k pid) ∧
    (Always NoStaleKill h → ∀ c p np k', k.cpus c = some p → (k.ptable.proc p).fork = .enqueue np →
      step k (.forkEnqueue c) = .ok k' → (k'.ptable.proc np).killed = true →
      killedSince np h = true) := by
  refine ⟨hr.killExact_iff, fun hC c p np k' hc hf hs hkilled => ?_⟩
  have hem : (k.ptable.proc np).state = .embryo :=
    hr.good.valid.child p np (by rw [show (k.view.proc p).fork = .enqueue np from hf]; rfl)
  refine (hr.unmarked hC np).2 hem ?_
  cases (hr.trans hs).marks hr.good.valid np with
  | keep _ hsame => exact hsame.symm.trans hkilled
  | owner hold => exact absurd hem hold
  | alloc _ ha => rcases ha with ha | ⟨_, ha⟩ <;> cases ha
  | reap _ hfalse =>
    have hfalse : (k'.ptable.proc np).killed = false := hfalse
    simp [hfalse] at hkilled
  | kill ha => cases ha
  | fail hq =>
    obtain ⟨_, _, ha | ha, _⟩ := hq <;> cases ha

/-- Process 2 kills the second child of init by its pid while init is still setting it up. -/
theorem kill_names_process_child : ∃ (h : List (Event 2)) (k k' : Kernel 2), KRun h k ∧
    KillExact k 2 ∧ ¬ KillExact k 0 ∧ step k (.forkEnqueue 0) = .ok k' ∧
    (k'.ptable.proc 2).killed = true ∧ killedSince 2 h = true := by
  obtain ⟨h, k, hr, hC, hc, hf, h2, h0, hs⟩ := exists_kRun (n := 2)
    (P := fun h k => (∀ x ∈ h, NoStaleKill x.1 x.2) ∧ k.cpus 0 = some 0 ∧
      (k.ptable.proc 0).fork = .enqueue 2 ∧ (¬ StalePid k 2 ∧ ¬ SleepsOutside k 2) ∧ StalePid k 0 ∧
      Sat (step k (.forkEnqueue 0)) (fun k' => (k'.ptable.proc 2).killed = true) (fun _ => False))
    (List.flatten [userinitActs 2, [.scheduler 0], forkActs 0,
      [.scheduler 1, .forkAlloc 0, .kill 1 3, .forkKalloc 0 true, .forkCopyuvm 0 true]])
    (by decide +kernel)
  obtain ⟨hexact, hchild⟩ := kill_names_process hr
  cases hs' : step k (.forkEnqueue 0) with
  | ok k' =>
    have hkilled := hs.of_ok hs'
    exact ⟨h, k, k', hr, (hexact 2).mpr h2, fun he => ((hexact 0).mp he).1 h0, hs', hkilled,
      hchild hC 0 0 2 k' hc hf hs' hkilled⟩
  | error e => exact (hs.of_error hs').elim

/-- **Killed at birth.** `kill(0)` finds a free slot and returns 0. It has marked slot 1; the process that
init then forks into it starts out marked, and nobody has killed it. -/
theorem killed_at_birth : ∃ (h : List (Event 1)) (k : Kernel 1), KRun h k ∧ ¬ KillExact k 0 ∧
    (k.ptable.proc 1).state = .runnable ∧ (k.ptable.proc 1).killed = true ∧
    killedSince 1 h = false := by
  obtain ⟨h, k, hr, h0, hborn⟩ := exists_kRun (n := 1)
    (P := fun h k => StalePid k 0 ∧ (k.ptable.proc 1).state = .runnable ∧
      (k.ptable.proc 1).killed = true ∧ killedSince 1 h = false)
    (List.flatten [userinitActs 1, [.scheduler 0, .kill 0 0], forkActs 0]) (by decide +kernel)
  exact ⟨h, k, hr, fun he => hr.not_killExact_of_stale h0 he, hborn⟩

end Xv6Mlfq
