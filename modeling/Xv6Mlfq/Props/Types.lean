import Xv6Mlfq.Sched.Change
import Xv6Mlfq.Sched.Init

/-!
# Process types

`type` is written in two places: `userinit` marks the first process, and `fork` marks the children of
process 1. Neither `allocproc` nor `wait` sets it back, so a child of another process that gets the slot
of a former child of init is a `SHELL` (`type_stale`). While no such child gets such a slot, the types say
what they should (`types_current`).
-/

namespace Xv6Mlfq

open Lib

variable {n : Nat} {k k' : Kernel n} {a : Act n} {p q : PIdx} {x y : Proc} {h : List (Event n)}

/-- The pid of the process whose `fork` the step belongs to. -/
def forker (k : Kernel n) : Act n → Option Int32
  | .forkAlloc c => (k.cpus c).map fun p => (k.ptable.proc p).pid
  | .forkEnqueue c => (k.cpus c).map fun p => (k.ptable.proc p).pid
  | _ => none

/-- The pid of the process whose `fork` created `p`, if it was created by one. -/
def forkedBy (p : PIdx) : List (Event n) → Option Int32
  | [] => none
  | (k, a) :: h => if created k a = some p then forker k a else forkedBy p h

/-- The step ends the `fork` of a process other than 1, and the slot of the child still has a type. -/
def staleFork (k : Kernel n) : Act n → Bool
  | .forkEnqueue c =>
    match k.cpus c with
    | some p =>
      match (k.ptable.proc p).fork.np with
      | some np => (k.ptable.proc p).pid ≠ 1 && (k.ptable.proc np).type ≠ .idle
      | none => false
    | none => false
  | _ => false

def NoInfo (k : Kernel n) (a : Act n) : Prop := infoCall k a = none

/-- A `fork` by a process other than 1 ends with a child whose slot has the type `idle`. -/
def NoStaleType (k : Kernel n) (a : Act n) : Prop := staleFork k a = false

instance (k : Kernel n) (a : Act n) : Decidable (NoInfo k a) :=
  inferInstanceAs (Decidable (infoCall k a = none))

instance (k : Kernel n) (a : Act n) : Decidable (NoStaleType k a) :=
  inferInstanceAs (Decidable (staleFork k a = false))

theorem NoStaleType.idle {c : Fin n} (hC : NoStaleType k (.forkEnqueue c)) (hp : k.cpus c = some p)
    (hf : (k.ptable.proc p).fork = .enqueue q) (hpid : (k.ptable.proc p).pid ≠ 1) :
    (k.ptable.proc q).type = .idle := by
  simpa [NoStaleType, staleFork, hp, hf, Fork.np, hpid] using hC

theorem forkedBy_of_not_created (hc : created k a ≠ some p) :
    forkedBy p ((k, a) :: h) = forkedBy p h := by
  simp [forkedBy, hc]

/-! ## One step -/

theorem Trans.done_iff {v v' : View n} (ht : Trans v a v') (ha : a ≠ .userinitEnqueue) (p : PIdx) :
    (v'.initproc = some p ∧ v'.boot = .done) ↔ (v.initproc = some p ∧ v.boot = .done) := by
  cases ht with
  | userinitAlloc hb => simp [hb]
  | userinitKalloc hb => simp [hb]
  | userinitSetupkvm hb => simp [hb]
  | userinitEnqueue => exact absurd rfl ha
  | wait _ _ hwait => rw [(waits_boot hwait).1, (waits_boot hwait).2]
  | dispatch _ _ _ hd => rw [(dispatches_boot hd).1, (dispatches_boot hd).2]
  | _ => rfl

theorem Pass.qLevel_of_exempt {ticks : UInt32} (hy : Pass ticks p q x y) (htype : x.type ≠ .idle) :
    y.qLevel = x.qLevel := by
  cases hy with
  | expired =>
    have htype' : (ranSlot x).type ≠ .idle := htype
    rw [demoteProcess_of_exempt htype']
    rfl
  | promoted _ hd => exact absurd hd.2.2.2 htype
  | _ => rfl

/-- A started process has the type and, if exempt, the level that its origin gives it. -/
def Typed (x : Sched) (by₀ : Option Int32) : Prop :=
  x.state ≠ .unused → x.state ≠ .embryo →
    (x.type = .shell ↔ by₀ = some 1) ∧ (x.type ≠ .idle → x.qLevel = 3)

theorem typed_startChild {ticks : UInt32} {pid : Int32} (hidle : pid ≠ 1 → x.type = .idle) :
    Typed (startSlot ticks pid x).toSched (some pid) := by
  intro _ _
  by_cases hpid : pid = 1
  · simp [startSlot, forkSlot, hpid]
  · simp [startSlot, forkSlot, hpid, hidle hpid]

theorem Pass.typed {ticks : UInt32} {by₀ : Option Int32} (hy : Pass ticks p q x y)
    (hx : Typed x.toSched by₀) : Typed y.toSched by₀ := by
  intro hun hem
  rw [hy.state] at hun hem
  rw [hy.type]
  refine ⟨(hx hun hem).1, fun htype => ?_⟩
  rw [hy.qLevel_of_exempt htype]
  exact (hx hun hem).2 htype

theorem Keeps.typed {ticks : UInt32} {by₀ : Option Int32} (hk : Keeps ticks x y)
    (hx : Typed x.toSched by₀) : Typed y.toSched by₀ := by
  intro hun hem
  have hxun : x.state ≠ .unused := fun h => hun (hk.unused h)
  have hxem : x.state ≠ .embryo := fun h => (hk.embryo h).elim hem hun
  rw [hk.type, hk.qLevel]
  exact hx hxun hxem

/-! ## Runs -/

theorem forker_startChild {c : Fin n} (ha : a = .forkEnqueue c) (hp : k.cpus c = some p) :
    forker k a = some (k.ptable.proc p).pid := by
  subst ha
  simp [forker, hp]

theorem Trans.userinit_done {v v' : View n} (ht : Trans v .userinitEnqueue v') :
    ∃ q, v.boot = .enqueue q ∧ v'.boot = .done ∧ v'.initproc = v.initproc := by
  cases ht with
  | userinitEnqueue hb => exact ⟨_, hb, rfl, rfl⟩

/-- At the end of `userinit` the first process gets its type, and no other process does. -/
theorem type_init_userinit (hr : KRun h k) (hs : step k .userinitEnqueue = .ok k') (p : PIdx)
    (hp : (k.ptable.proc p).type = .init ↔ k.initproc = some p ∧ k.boot = .done) :
    (k'.ptable.proc p).type = .init ↔ k'.initproc = some p ∧ k'.boot = .done := by
  obtain ⟨q, hb, hb', hi'⟩ := (hr.trans hs).userinit_done
  have hboot : k.boot = .enqueue q := hb
  have hboot' : k'.boot = .done := hb'
  have hinit : k'.initproc = some q := hi'.trans (hr.initReady.enqueue q hb)
  have hcr : created k .userinitEnqueue = some q := created_startInit rfl hboot
  have hem : (k.ptable.proc q).state = .embryo := hr.good.valid.bootNp q (by rw [hb]; rfl)
  obtain ⟨x, y, hx, hy, hc⟩ := KRun.change hr hs p
  rw [← hy]
  cases hc with
  | alloc hc hun =>
    obtain rfl : q = p := Option.some.inj (hcr.symm.trans hc)
    rw [hx, hem] at hun
    cases hun
  | startInit _ hbp =>
    obtain rfl : q = p := Boot.enqueue.inj (hboot.symm.trans hbp)
    exact ⟨fun _ => ⟨hinit, hboot'⟩, fun _ => rfl⟩
  | startChild ha => cases ha
  | setInfo hi => simp [infoCall] at hi
  | timer ht => simp [interrupted] at ht
  | keep hc _ _ hk =>
    have hne : q ≠ p := fun heq => hc (heq ▸ hcr)
    rw [hk.type, hx, hp]
    simp [hboot, hinit, hne]

/-- **The type `INIT` marks the first process**, in every run. -/
theorem KRun.type_init (hr : KRun h k) (p : PIdx) :
    (k.ptable.proc p).type = .init ↔ k.initproc = some p ∧ k.boot = .done := by
  induction hr with
  | start => simp [boot, initQeueus, Proc.zero]
  | @next h k k' a hr hs ih =>
    by_cases ha : a = .userinitEnqueue
    · subst ha
      exact type_init_userinit hr hs p ih
    · have hdone : (k'.initproc = some p ∧ k'.boot = .done) ↔ (k.initproc = some p ∧ k.boot = .done) :=
        (KRun.trans hr hs).done_iff ha p
      obtain ⟨x, y, hx, hy, hc⟩ := KRun.change hr hs p
      rw [hdone, ← ih, ← hx, ← hy]
      cases hc with
      | alloc => rfl
      | startInit ha' => exact absurd ha' ha
      | @startChild c r _ _ _ hem =>
        -- the first process is live, so it is not the child that starts here
        have hne : x.type ≠ .init := by
          rw [hx, ne_eq, ih]
          rintro ⟨hip, hb⟩
          obtain ⟨q, hq, hlive⟩ := (KRun.initReady hr).done hb
          obtain rfl : p = q := Option.some.inj (hip.symm.trans hq)
          rw [hx] at hem
          exact not_live_embryo hem hlive
        by_cases hpid : (k.ptable.proc r).pid = 1 <;> simp [startSlot, forkSlot, hpid, hne]
      | setInfo => rfl
      | timer _ hp => rw [hp.type]
      | keep _ _ _ hk => rw [hk.type]

theorem KRun.typed (hr : KRun h k) (hinfo : Always NoInfo h) (hC : Always NoStaleType h) (p : PIdx) :
    Typed (k.ptable.proc p).toSched (forkedBy p h) := by
  induction hr with
  | start => exact fun hun => absurd rfl hun
  | @next h k k' a hr hs ih =>
    obtain ⟨hno, hinfo⟩ := always_cons.mp hinfo
    obtain ⟨hstale, hC⟩ := always_cons.mp hC
    obtain ⟨x, y, hx, hy, hc⟩ := KRun.change hr hs p
    have ih := ih hinfo hC
    rw [← hx] at ih
    rw [← hy]
    cases hc with
    | alloc => exact fun _ hem => absurd rfl hem
    | startInit ha hb =>
      have hforker : forkedBy p ((k, a) :: h) = none := by
        rw [forkedBy, if_pos (created_startInit ha hb), ha]
        rfl
      rw [hforker]
      exact fun _ _ => ⟨⟨nofun, nofun⟩, fun _ => rfl⟩
    | @startChild c r ha hp hf =>
      have hforker : forkedBy p ((k, a) :: h) = some (k.ptable.proc r).pid := by
        rw [forkedBy, if_pos (created_startChild ha hp hf), forker_startChild ha hp]
      rw [hforker]
      refine typed_startChild fun hpid => ?_
      rw [hx]
      subst ha
      exact hstale.idle hp hf hpid
    | setInfo hi =>
      rw [hno] at hi
      cases hi
    | timer ht hp =>
      rw [forkedBy_of_not_created (by simp [created_of_interrupted ht])]
      exact hp.typed ih
    | keep hc _ _ hk =>
      rw [forkedBy_of_not_created hc]
      exact hk.typed ih

/-- **Types are current**, in every run without `set_proc_info` in which no process other than 1 ends a
`fork` into a slot that still has another type. -/
theorem types_current (hr : KRun h k) (hinfo : Always NoInfo h) (hC : Always NoStaleType h) (p : PIdx)
    (hun : (k.ptable.proc p).state ≠ .unused) (hem : (k.ptable.proc p).state ≠ .embryo) :
    ((k.ptable.proc p).type = .init ↔ k.initproc = some p) ∧
    ((k.ptable.proc p).type = .shell ↔ forkedBy p h = some 1) ∧
    ((k.ptable.proc p).type = .idle ↔ k.initproc ≠ some p ∧ forkedBy p h ≠ some 1) ∧
    ((k.ptable.proc p).type = .init ∨ (k.ptable.proc p).type = .shell →
      (k.ptable.proc p).qLevel = 3) := by
  have hdone : k.boot = .done := by
    by_contra hb
    rcases hr.good.valid.booting hb p with hs | hs
    · exact hun hs
    · exact hem hs.1
  have hinit : (k.ptable.proc p).type = .init ↔ k.initproc = some p := by
    rw [hr.type_init p, and_iff_left hdone]
  obtain ⟨hshell, hlevel⟩ := hr.typed hinfo hC p hun hem
  refine ⟨hinit, hshell, ?_, fun htype => hlevel ?_⟩
  · rw [ne_eq, ← hinit, ne_eq, ← hshell]
    cases (k.ptable.proc p).type <;> simp
  · rcases htype with ht | ht <;> rw [ht] <;> nofun

/-- init, its child and its grandchild. -/
theorem types_current_grandchild : ∃ (h : List (Event 2)) (k : Kernel 2), KRun h k ∧
    Always NoInfo h ∧ Always NoStaleType h ∧ k.initproc = some 0 ∧ forkedBy 1 h = some 1 ∧
    forkedBy 2 h = some 2 ∧ (k.ptable.proc 0).type = .init ∧ (k.ptable.proc 1).type = .shell ∧
    (k.ptable.proc 2).type = .idle := by
  obtain ⟨h, k, hr, hs0, hs1, hs2, hip, h1, h2, hinfo, hC⟩ := exists_kRun (n := 2)
    (P := fun h k => (k.ptable.proc 0).state = .running ∧ (k.ptable.proc 1).state = .running ∧
      (k.ptable.proc 2).state = .runnable ∧ k.initproc = some 0 ∧ forkedBy 1 h = some 1 ∧
      forkedBy 2 h = some 2 ∧ (∀ x ∈ h, NoInfo x.1 x.2) ∧ ∀ x ∈ h, NoStaleType x.1 x.2)
    (List.flatten [userinitActs 2, [.scheduler 0], forkActs 0, [.scheduler 1], forkActs 1])
    (by decide +kernel)
  refine ⟨h, k, hr, hinfo, hC, hip, h1, h2, ?_, ?_, ?_⟩
  · exact (types_current hr hinfo hC 0 (by simp [hs0]) (by simp [hs0])).1.mpr hip
  · exact (types_current hr hinfo hC 1 (by simp [hs1]) (by simp [hs1])).2.1.mpr h1
  · exact (types_current hr hinfo hC 2 (by simp [hs2]) (by simp [hs2])).2.2.1.mpr
      ⟨by simp [hip], by simp [h2]⟩

/-- **A stale type.** Slot 1 held a child of init that has been reaped; the process that process 3 forks
into it is a `SHELL`, on level 0. -/
theorem type_stale : ∃ (h : List (Event 2)) (k : Kernel 2), KRun h k ∧ Always NoInfo h ∧
    (k.ptable.proc 1).state = .runnable ∧ (k.ptable.proc 1).type = .shell ∧
    forkedBy 1 h = some 3 ∧ (k.ptable.proc 1).qLevel = 0 :=
  exists_kRun (n := 2)
    (P := fun h k => Always NoInfo h ∧ (k.ptable.proc 1).state = .runnable ∧
      (k.ptable.proc 1).type = .shell ∧ forkedBy 1 h = some 3 ∧ (k.ptable.proc 1).qLevel = 0)
    (List.flatten [userinitActs 2, [.scheduler 0], forkActs 0, [.scheduler 1], forkActs 1,
      [.exit 1, .wait 0, .scheduler 1], forkActs 1]) (by unfold Always; decide +kernel)

end Xv6Mlfq
