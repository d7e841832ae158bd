import Xv6Mlfq.Kernel.System

/-!
# The timer interrupt of a DEBUG build (proc.c, trap.c)

With `DEBUG` the critical section of the timer interrupt also prints: the quota check of trap.c always, and
`check_time_quantum` and `check_aging` for a pid from 4 on. The functions below are those of the plain build with
the calls of `cprintf` collected in order; they change the process table in the same way
(`trapTimerDebug_table`), and they print only when something is due (`trapTimerDebug_due`).
-/

namespace Xv6Mlfq

open Lib

/-- A call of `cprintf` in the timer interrupt. -/
inductive Msg where
  /-- `"PID: %d uses %d ticks in mlfq[%d], total (%d/%d)\n"` -/
  | uses (pid cpuBurst qLevel totalCpuTime endTime : Int32)
  /-- `"PID: %d, used %d ticks. terminated\n"` -/
  | terminated (pid totalCpuTime : Int32)
  /-- `"PID: %d Aging\n"` -/
  | aging (pid : Int32)
  deriving DecidableEq, Repr

def usesMsg (x : Proc) : Msg := .uses x.pid x.cpuBurst x.qLevel x.totalCpuTime x.endTime

def checkTimeQuantumDebug (t : Ptable) (p : PIdx) : Except Stop (List Msg × Ptable) := do
  let l ← index .timeQuantum (t.proc p).qLevel
  if (t.proc p).cpuBurst ≥ timeQuantum l then
    return (if (t.proc p).pid ≥ 4 then [usesMsg (t.proc p)] else [], t.modify p demoteProcess)
  return ([], t)

def checkQuotaDebug (t : Ptable) (p : PIdx) : Except Stop (List Msg × Ptable) :=
  if (t.proc p).endTime > 0 ∧ (t.proc p).totalCpuTime ≥ (t.proc p).endTime then
    .ok ([usesMsg (t.proc p), .terminated (t.proc p).pid (t.proc p).totalCpuTime],
      t.modify p fun x => { x with killed := true })
  else if (t.proc p).killed = false then checkTimeQuantumDebug t p
  else .ok ([], t)

/-- The inner loop of `check_aging` from `tmp` on, after the output `out`. -/
def checkAgingLoopDebug (ticks : UInt32) :
    Nat → Option PIdx → List Msg × Ptable → Except Stop (List Msg × Ptable)
  | _, none, s => .ok s
  | 0, some _, _ => .error .spin
  | n + 1, some tmp, (out, t) => do
    let nextProc := (t.proc tmp).next
    let out := if (t.proc tmp).cpuWait ≥ 250 ∧ (t.proc tmp).pid ≥ 4 then
      out ++ [.aging (t.proc tmp).pid] else out
    let t ← checkAgingProc ticks t tmp
    checkAgingLoopDebug ticks n nextProc (out, t)

def checkAgingDebug (ticks : UInt32) (s : List Msg × Ptable) : Except Stop (List Msg × Ptable) :=
  (List.finRange 4).tail.foldlM (fun s l => checkAgingLoopDebug ticks NPROC (s.2.queues l).head s) s

/-- The critical section of the timer interrupt on a CPU that runs `p`, with its output. -/
def trapTimerDebug (ticks : UInt32) (t : Ptable) (p : PIdx) : Except Stop (List Msg × Ptable) := do
  let s ← checkQuotaDebug (updateAllProcTimers t) p
  checkAgingDebug ticks s

/-! ## The same section as without DEBUG -/

theorem checkTimeQuantumDebug_table (t : Ptable) (p : PIdx) :
    Prod.snd <$> checkTimeQuantumDebug t p = checkTimeQuantum t p := by
  unfold checkTimeQuantumDebug checkTimeQuantum
  cases index .timeQuantum (t.proc p).qLevel with
  | error e => rfl
  | ok l =>
    show Prod.snd <$> (if _ then _ else _ : Except Stop _) = (if _ then _ else _ : Except Stop _)
    split_ifs <;> rfl

theorem checkQuotaDebug_table (t : Ptable) (p : PIdx) :
    Prod.snd <$> checkQuotaDebug t p = checkQuota t p := by
  unfold checkQuotaDebug checkQuota
  split_ifs
  · rfl
  · exact checkTimeQuantumDebug_table t p
  · rfl

theorem checkAgingLoopDebug_table (ticks : UInt32) (n : Nat) (tmp : Option PIdx) (out : List Msg) (t : Ptable) :
    Prod.snd <$> checkAgingLoopDebug ticks n tmp (out, t) = checkAgingLoop ticks n tmp t := by
  induction n generalizing tmp out t with
  | zero => cases tmp <;> rfl
  | succ n ih =>
    cases tmp with
    | none => rfl
    | some p =>
      rw [checkAgingLoopDebug, checkAgingLoop]
      cases checkAgingProc ticks t p with
      | error e => rfl
      | ok t' => exact ih _ _ t'

theorem foldlM_table (ticks : UInt32) (ls : List Level) (out : List Msg) (t : Ptable) :
    Prod.snd <$> ls.foldlM (fun s l => checkAgingLoopDebug ticks NPROC (s.2.queues l).head s) (out, t) =
      ls.foldlM (checkAgingLevel ticks) t := by
  induction ls generalizing out t with
  | nil => rfl
  | cons l ls ih =>
    rw [List.foldlM_cons, List.foldlM_cons, checkAgingLevel,
      ← checkAgingLoopDebug_table ticks NPROC (t.queues l).head out t]
    show Prod.snd <$> (checkAgingLoopDebug ticks NPROC (t.queues l).head (out, t) >>= _) = _
    cases checkAgingLoopDebug ticks NPROC (t.queues l).head (out, t) with
    | error e => rfl
    | ok s => exact ih s.1 s.2

theorem trapTimerDebug_table (ticks : UInt32) (t : Ptable) (p : PIdx) :
    Prod.snd <$> trapTimerDebug ticks t p = trapTimer ticks t p := by
  unfold trapTimerDebug trapTimer
  rw [← checkQuotaDebug_table]
  cases checkQuotaDebug (updateAllProcTimers t) p with
  | error e => rfl
  | ok s => exact foldlM_table ticks _ s.1 s.2

/-! ## What makes it print -/

/-- A queued process has waited for 250 ticks, and its pid is one of those that are reported. -/
def AgingDue (t : Ptable) : Prop := ∃ q, (t.proc q).cpuWait ≥ 250 ∧ (t.proc q).pid ≥ 4

/-- Something is due at a timer interrupt that finds `p` running: its quota, its quantum, or aging. -/
def DebugDue (t : Ptable) (p : PIdx) : Prop :=
  let t := updateAllProcTimers t
  ((t.proc p).endTime > 0 ∧ (t.proc p).totalCpuTime ≥ (t.proc p).endTime) ∨
    ((t.proc p).pid ≥ 4 ∧ ∃ l, levelOf (t.proc p).qLevel = some l ∧ (t.proc p).cpuBurst ≥ timeQuantum l) ∨
    AgingDue t

/-- Neither pids nor waiting times change, except that a waiting time may be cleared. -/
def WaitKept (t t' : Ptable) : Prop :=
  ∀ q, (t'.proc q).pid = (t.proc q).pid ∧
    ((t'.proc q).cpuWait = (t.proc q).cpuWait ∨ (t'.proc q).cpuWait = 0)

theorem WaitKept.refl (t : Ptable) : WaitKept t t := fun _ => ⟨rfl, .inl rfl⟩

theorem WaitKept.trans {t t' t'' : Ptable} (h : WaitKept t t') (h' : WaitKept t' t'') : WaitKept t t'' := by
  intro q
  obtain ⟨hpid, hwait⟩ := h q
  obtain ⟨hpid', hwait'⟩ := h' q
  refine ⟨hpid'.trans hpid, ?_⟩
  rcases hwait' with hkeep | hzero
  · rw [hkeep]
    exact hwait
  · exact .inr hzero

theorem WaitKept.modify {t t' : Ptable} (h : WaitKept t t') (p : PIdx) {f : Proc → Proc}
    (hpid : ∀ x, (f x).pid = x.pid) (hwait : ∀ x, (f x).cpuWait = x.cpuWait ∨ (f x).cpuWait = 0) :
    WaitKept t (t'.modify p f) := by
  refine h.trans fun q => ?_
  rw [Ptable.modify_proc, Function.update_apply]
  split
  · rename_i heq
    rw [heq]
    exact ⟨hpid _, hwait _⟩
  · exact ⟨rfl, .inl rfl⟩

theorem WaitKept.links {t t' : Ptable} (h : WaitKept t t') (p : PIdx) {f : Proc → Proc}
    (hf : ∀ x, (f x).toSched = x.toSched) : WaitKept t (t'.modify p f) :=
  h.modify p (fun x => by rw [hf]) fun x => .inl (by rw [hf])

theorem AgingDue.of_kept {t t' : Ptable} (h : WaitKept t t') (hdue : AgingDue t') : AgingDue t := by
  obtain ⟨q, hwait, hpid⟩ := hdue
  obtain ⟨hp, hkeep | hzero⟩ := h q
  · exact ⟨q, hkeep ▸ hwait, hp ▸ hpid⟩
  · rw [hzero] at hwait
    exact absurd hwait (by decide)

theorem insertBefore_kept (t : Ptable) (p : PIdx) (l : Level) (curr : PIdx) :
    WaitKept t (insertBefore t p l curr) := by
  have hp : WaitKept t (t.modify p fun x => { x with next := some curr, prev := (t.proc curr).prev }) :=
    (WaitKept.refl t).links p fun _ => rfl
  unfold insertBefore
  refine WaitKept.links ?_ curr fun _ => rfl
  split
  · exact hp.links _ fun _ => rfl
  · exact hp

theorem insertTail_kept (t : Ptable) (p : PIdx) (l : Level) :
    Sat (insertTail t p l) (WaitKept t) fun _ => True := by
  unfold insertTail
  split
  · trivial
  · rename_i a _
    have ha : WaitKept t (t.modify a fun x => { x with next := some p }) :=
      (WaitKept.refl t).links a fun _ => rfl
    exact ha.links p (f := fun x => { x with prev := some a }) fun _ => rfl

theorem addToQueueLoop_kept (p : PIdx) (l : Level) (n : Nat) (curr : Option PIdx) (t : Ptable) :
    Sat (addToQueueLoop p l n curr t) (WaitKept t) fun _ => True := by
  induction n generalizing curr with
  | zero =>
    cases curr with
    | none => exact insertTail_kept t p l
    | some c => trivial
  | succ n ih =>
    cases curr with
    | none => exact insertTail_kept t p l
    | some c =>
      rw [addToQueueLoop]
      exact Sat.ite (fun _ => insertBefore_kept t p l c) fun _ => ih _

theorem addToQueue_kept (ticks : UInt32) (t : Ptable) (p : PIdx) (level : Int32) :
    Sat (addToQueue ticks t p level) (WaitKept t) fun _ => True := by
  unfold addToQueue
  split
  · trivial
  · rename_i l _
    have henter : WaitKept t (t.modify p fun x =>
        { x with qLevel := level, queueEntryTime := ticks, next := none, prev := none }) :=
      (WaitKept.refl t).modify p (fun _ => rfl) fun _ => .inl rfl
    simp only
    split
    · exact henter
    · exact (addToQueueLoop_kept p l NPROC _ _).imp fun t' ht' => henter.trans ht'

theorem unlinkProc_kept (t : Ptable) (p : PIdx) (l : Level) : WaitKept t (unlinkProc t p l) := by
  unfold unlinkProc
  refine WaitKept.links ?_ p fun _ => rfl
  cases (t.proc p).prev with
  | none =>
    cases (t.proc p).next with
    | none => exact WaitKept.refl t
    | some b => exact (WaitKept.refl t).links b (f := fun y => { y with prev := none }) fun _ => rfl
  | some a =>
    cases (t.proc p).next with
    | none => exact (WaitKept.refl t).links a (f := fun y => { y with next := none }) fun _ => rfl
    | some b =>
      have ha := (WaitKept.refl t).links a (f := fun y => { y with next := some b }) fun _ => rfl
      exact ha.links b (f := fun y => { y with prev := some a }) fun _ => rfl

theorem removeFromQueue_kept (t : Ptable) (p : PIdx) :
    Sat (removeFromQueue t p) (WaitKept t) fun _ => True := by
  unfold removeFromQueue
  exact Sat.bind (Sat.of_true _) fun l _ =>
    Sat.ite (fun _ => WaitKept.refl t) fun _ => unlinkProc_kept t p l

theorem checkAgingProc_kept (ticks : UInt32) (t : Ptable) (p : PIdx) :
    Sat (checkAgingProc ticks t p) (WaitKept t) fun _ => True := by
  unfold checkAgingProc promoteProcess
  refine Sat.ite (fun _ => Sat.ite (fun _ => WaitKept.refl t) fun _ => ?_) fun _ => WaitKept.refl t
  refine Sat.bind (removeFromQueue_kept t p) fun t₁ h₁ => ?_
  have hclear : WaitKept t (t₁.modify p fun x =>
      { x with qLevel := x.qLevel - 1, cpuWait := 0, cpuBurst := 0 }) :=
    h₁.modify p (fun _ => rfl) fun _ => .inr rfl
  exact (addToQueue_kept ticks _ p _).imp fun t₂ h₂ => hclear.trans h₂

/-- After the output `out`, more is printed only if aging is due in the table of the start. -/
def Quiet (t₀ : Ptable) (out : List Msg) (s : List Msg × Ptable) : Prop :=
  WaitKept t₀ s.2 ∧ (s.1 = out ∨ AgingDue t₀)

theorem checkAgingLoopDebug_quiet {t₀ : Ptable} {out : List Msg} (ticks : UInt32) (n : Nat) (tmp : Option PIdx)
    {s : List Msg × Ptable} (hs : Quiet t₀ out s) :
    Sat (checkAgingLoopDebug ticks n tmp s) (Quiet t₀ out) fun _ => True := by
  induction n generalizing tmp s with
  | zero => cases tmp with
    | none => exact hs
    | some p => trivial
  | succ n ih =>
    cases tmp with
    | none => exact hs
    | some p =>
      obtain ⟨hkept, hout⟩ := hs
      rw [show s = (s.1, s.2) from rfl, checkAgingLoopDebug]
      refine Sat.bind (checkAgingProc_kept ticks s.2 p) fun t' ht' => ih _ ⟨hkept.trans ht', ?_⟩
      simp only
      split_ifs with hdue
      · exact .inr (AgingDue.of_kept hkept ⟨p, hdue⟩)
      · exact hout

theorem checkAgingDebug_quiet {t₀ : Ptable} {out : List Msg} (ticks : UInt32) {s : List Msg × Ptable}
    (hs : Quiet t₀ out s) : Sat (checkAgingDebug ticks s) (Quiet t₀ out) fun _ => True := by
  unfold checkAgingDebug
  exact Sat.foldlM (fun _ s => Quiet t₀ out s) _
    (fun _ l _ s _ hs => checkAgingLoopDebug_quiet ticks NPROC _ hs) hs

theorem checkQuotaDebug_quiet {t : Ptable} {p : PIdx} (hquota : ¬ ((t.proc p).endTime > 0 ∧
      (t.proc p).totalCpuTime ≥ (t.proc p).endTime))
    (hquantum : ¬ ((t.proc p).pid ≥ 4 ∧ ∃ l, levelOf (t.proc p).qLevel = some l ∧
      (t.proc p).cpuBurst ≥ timeQuantum l)) :
    Sat (checkQuotaDebug t p) (Quiet t []) fun _ => True := by
  have hdemote : WaitKept t (t.modify p demoteProcess) := by
    refine (WaitKept.refl t).modify p (fun x => ?_) fun x => ?_
    · unfold demoteProcess
      split_ifs <;> rfl
    · unfold demoteProcess
      split_ifs <;> simp
  unfold checkQuotaDebug
  rw [if_neg hquota]
  refine Sat.ite (fun _ => ?_) fun _ => ⟨WaitKept.refl t, .inl rfl⟩
  unfold checkTimeQuantumDebug
  cases hl : levelOf (t.proc p).qLevel with
  | none =>
    rw [index_none hl]
    trivial
  | some l =>
    rw [index_some hl]
    refine Sat.ite (fun hburst => ⟨hdemote, ?_⟩) fun _ => ⟨WaitKept.refl t, .inl rfl⟩
    simp only
    split_ifs with hpid
    · exact absurd ⟨hpid, l, hl, hburst⟩ hquantum
    · exact .inl rfl

theorem trapTimerDebug_due {ticks : UInt32} {t t' : Ptable} {p : PIdx} {msgs : List Msg}
    (h : trapTimerDebug ticks t p = .ok (msgs, t')) (hne : msgs ≠ []) : DebugDue t p := by
  by_contra hdue
  unfold DebugDue at hdue
  simp only [not_or] at hdue
  obtain ⟨hquota, hquantum, haging⟩ := hdue
  have hquiet : Sat (trapTimerDebug ticks t p) (Quiet (updateAllProcTimers t) []) fun _ => True :=
    Sat.bind (checkQuotaDebug_quiet hquota hquantum) fun s hs => checkAgingDebug_quiet ticks hs
  obtain ⟨-, hnil | hdue⟩ := hquiet.of_ok h
  · exact hne hnil
  · exact haging hdue

end Xv6Mlfq
