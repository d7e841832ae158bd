import Xv6Mlfq.Sched.Ownership

/-!
# The functions under the lock

Each function that runs under `ptable.lock` has one specification: on well-formed run queues
(`WellQueued`) it leaves well-formed run queues, and with the links erased its effect is the one that
`Trans` gives to it; or it stops because a level is out of range. The loops of `wakeup1` and `exit`
are folds over the table.
-/

namespace Xv6Mlfq

open Lib

variable {n : Nat} {t t' : Ptable} {k : Kernel n} {c : Fin n} {p : PIdx} {f : Proc → Proc}

/-- The pointers of the table are well-formed run queues. -/
def WellQueued (t : Ptable) : Prop := ∃ qs, Queued none t qs

def Local (f : Proc → Proc) : Prop := ∀ x, (f x).body = f x.body

theorem Local.free {x : Proc} (hf : Local f) (hnext : x.next = none) (hprev : x.prev = none) :
    (f x).next = none ∧ (f x).prev = none := by
  have hx : x.body = x := by
    cases x
    simp_all [Proc.body]
  have := hf x
  rw [hx] at this
  rw [← this]
  exact ⟨rfl, rfl⟩

theorem body_modify_local (hf : Local f) :
    (t.modify p f).body = Function.update t.body p (f (t.body p)) := by
  funext q
  rw [body_modify, Function.update_apply]
  split
  · exact hf (t.proc p)
  · rfl

namespace WellQueued

theorem free (hq : WellQueued t) (hp : (t.proc p).state ≠ .runnable) :
    (t.proc p).next = none ∧ (t.proc p).prev = none := by
  obtain ⟨qs, hq⟩ := hq
  refine hq.repr.free p fun l hmem => hp ((hq.mem l p).mp hmem).2.1

theorem modify (hq : WellQueued t) (hp : (t.proc p).state ≠ .runnable) (hf : Local f)
    (hp' : (f (t.proc p)).state ≠ .runnable) : WellQueued (t.modify p f) := by
  obtain ⟨hnext, hprev⟩ := hq.free hp
  obtain ⟨hnext', hprev'⟩ := hf.free hnext hprev
  obtain ⟨qs, hq⟩ := hq
  refine ⟨qs, ((hq.hold hp).modify_out (hnext'.trans hnext.symm) (hprev'.trans hprev.symm)).release ?_⟩
  simpa using hp'

/-- A change that keeps the links, who is runnable, and the level and the keys of the runnable
processes. -/
theorem congr (hq : WellQueued t) (hheap : t'.heap = t.heap)
    (hstate : ∀ p, (t'.proc p).state = .runnable ↔ (t.proc p).state = .runnable)
    (hkeep : ∀ p, (t.proc p).state = .runnable →
      (t'.proc p).qLevel = (t.proc p).qLevel ∧ (t'.proc p).ioWaitTime = (t.proc p).ioWaitTime ∧
        (t'.proc p).queueEntryTime = (t.proc p).queueEntryTime) : WellQueued t' := by
  obtain ⟨qs, hq⟩ := hq
  exact ⟨qs, hq.congr hheap (fun p _ => hstate p) fun p _ => hkeep p⟩

theorem modify_keep (hq : WellQueued t) (hlinks : ∀ x, (f x).next = x.next ∧ (f x).prev = x.prev)
    (hsched : ∀ x, (f x).state = x.state ∧ (f x).qLevel = x.qLevel ∧
      (f x).ioWaitTime = x.ioWaitTime ∧ (f x).queueEntryTime = x.queueEntryTime) :
    WellQueued (t.modify p f) := by
  refine hq.congr (heap_modify (hlinks _).1 (hlinks _).2) (fun q => ?_) fun q _ => ?_
  all_goals by_cases hqp : q = p <;> simp [hqp, hsched]

/-- **add_to_queue** of a process that `f` has just made runnable. -/
theorem enqueue (hq : WellQueued t) (hp : (t.proc p).state ≠ .runnable) (hf : Local f)
    (hp' : (f (t.proc p)).state = .runnable) (ticks : UInt32) :
    Sat (addToQueue ticks (t.modify p f) p ((t.modify p f).proc p).qLevel)
      (fun t' => WellQueued t' ∧
        t'.body = Function.update t.body p { f (t.body p) with queueEntryTime := ticks })
      (fun e => e = .panic "invalid queue level" ∧ levelOf (f (t.proc p)).qLevel = none) := by
  obtain ⟨hnext, hprev⟩ := hq.free hp
  obtain ⟨hnext', hprev'⟩ := hf.free hnext hprev
  obtain ⟨qs, hq⟩ := hq
  have hout : Queued (some p) (t.modify p f) qs :=
    (hq.hold hp).modify_out (hnext'.trans hnext.symm) (hprev'.trans hprev.symm)
  have hadd := addToQueue_spec ((t.modify p f).proc p).qLevel ticks hout (by simpa using hp')
  refine hadd.mono ?_ ?_
  · rintro t' ⟨⟨l, _, hq'⟩, hbody⟩
    refine ⟨⟨_, hq'⟩, ?_⟩
    rw [hbody]
    funext q
    rw [body_modify, body_modify, Function.update_apply]
    split
    · have := hf (t.proc p)
      show (enterQueue _ _ _).body = { f (t.proc p).body with queueEntryTime := ticks }
      rw [← this]
      simp [enterQueue, Proc.body]
    · rfl
  · rintro e ⟨rfl, hl⟩
    exact ⟨rfl, by simpa using hl⟩

end WellQueued

/-! ## Waking up -/

theorem wakeupProc_spec (ticks : UInt32) (chan : Option Chan) (hq : WellQueued t) (p : PIdx) :
    Sat (wakeupProc ticks chan t p)
      (fun t' => WellQueued t' ∧ t'.body = Function.update t.body p (wake ticks chan (t.body p)))
      (fun e => e = .panic "invalid queue level" ∧ (t.proc p).state = .sleeping ∧
        levelOf (t.proc p).qLevel = none) := by
  unfold wakeupProc
  refine Sat.ite (fun hc => ?_) fun hc => ?_
  · have hadd := hq.enqueue (p := p) (f := fun x => { x with state := .runnable })
      (by simp [hc.1]) (fun _ => rfl) rfl ticks
    refine hadd.mono (fun t' ⟨hq', hbody⟩ => ⟨hq', ?_⟩) fun e ⟨he, hl⟩ => ⟨he, hc.1, hl⟩
    rw [hbody]
    congr 1
    exact (if_pos hc).symm
  · refine ⟨hq, ?_⟩
    have : wake ticks chan (t.body p) = t.body p := if_neg hc
    rw [this, Function.update_eq_self]

theorem wake_sleeping {ticks : UInt32} {chan : Option Chan} {x : Proc}
    (h : (wake ticks chan x).state = .sleeping) : wake ticks chan x = x := by
  unfold wake at h ⊢
  split_ifs with hc
  · simp [hc] at h
  · rfl

/-- **wakeup1** wakes every process that sleeps on `chan`. -/
theorem wakeup1_spec (ticks : UInt32) (chan : Option Chan) (hq : WellQueued t) :
    Sat (wakeup1 ticks chan t)
      (fun t' => WellQueued t' ∧ t'.body = fun q => wake ticks chan (t.body q))
      (fun e => e = .panic "invalid queue level" ∧ ∃ q, (t.proc q).state = .sleeping ∧
        levelOf (t.proc q).qLevel = none) := by
  unfold wakeup1
  -- a process that still sleeps has not been touched
  have hloop := Sat.foldlM_pointwise
    (fun s : Ptable => WellQueued s ∧ ∀ q, (s.body q).state = .sleeping → s.body q = t.body q)
    Ptable.body (fun _ => wake ticks chan) (f := wakeupProc ticks chan)
    (E := fun e => e = .panic "invalid queue level" ∧ ∃ q, (t.proc q).state = .sleeping ∧
      levelOf (t.proc q).qLevel = none) ?_ (List.nodup_finRange NPROC) (s := t) ⟨hq, fun _ _ => rfl⟩
  · refine hloop.imp fun t' ⟨⟨hq', _⟩, hbody⟩ => ⟨hq', funext fun q => ?_⟩
    simpa using hbody q
  · intro i s ⟨hs, hsame⟩
    refine (wakeupProc_spec ticks chan hs i).mono (fun s' ⟨hs', hbody⟩ => ⟨⟨hs', ?_⟩, hbody⟩) ?_
    · intro q hsleep
      rw [hbody] at hsleep ⊢
      by_cases hqi : q = i
      · subst hqi
        rw [Function.update_self] at hsleep ⊢
        have hkeep := wake_sleeping hsleep
        rw [hkeep] at hsleep ⊢
        exact hsame q hsleep
      · rw [Function.update_of_ne hqi] at hsleep ⊢
        exact hsame q hsleep
    · rintro e ⟨he, hsleep, hl⟩
      have : t.body i = s.body i := (hsame i hsleep).symm
      refine ⟨he, i, ?_⟩
      rw [← Ptable.body_toSched, this]
      exact ⟨hsleep, hl⟩

/-! ## Exit -/

section exit

variable {ticks : UInt32} {chan : Option Chan} {x : Proc}

@[simp] theorem wake_parent : (wake ticks chan x).parent = x.parent := by
  unfold wake
  split <;> rfl

@[simp] theorem wake_qLevel : (wake ticks chan x).qLevel = x.qLevel := by
  unfold wake
  split <;> rfl

@[simp] theorem wake_zombie : (wake ticks chan x).state = .zombie ↔ x.state = .zombie := by
  unfold wake
  split
  · rename_i h
    simp [h.1]
  · rfl

theorem sleeping_of_wake (h : (wake ticks chan x).state = .sleeping) : x.state = .sleeping :=
  wake_sleeping h ▸ h

@[simp] theorem wake_wake : wake ticks chan (wake ticks chan x) = wake ticks chan x := by
  unfold wake
  split <;> simp_all

theorem wake_setParent (a : Option PIdx) :
    wake ticks chan { x with parent := a } = { wake ticks chan x with parent := a } := by
  unfold wake
  split <;> rfl

/-- Process `q` when the loop of `exit` has passed the processes in `seen`. -/
def abandonAt (ticks : UInt32) (p : PIdx) (init : Option PIdx) (b : PIdx → Proc) (seen : List PIdx)
    (q : PIdx) : Proc :=
  let x := if q ∈ seen ∧ (b q).parent = some p then { b q with parent := init } else b q
  if ∃ r ∈ seen, (b r).parent = some p ∧ (b r).state = .zombie then
    wake ticks (init.map .proc) x
  else x

variable {init : Option PIdx} {b : PIdx → Proc} {seen : List PIdx} {q : PIdx}

theorem abandonAt_qLevel : (abandonAt ticks p init b seen q).qLevel = (b q).qLevel := by
  unfold abandonAt
  dsimp only
  split_ifs <;> simp

theorem abandonAt_state : (abandonAt ticks p init b seen q).state = (b q).state ∨
    ((b q).state = .sleeping ∧ (abandonAt ticks p init b seen q).state = .runnable) := by
  have h := fun x => (calm_wake ticks (init.map .proc) x).state
  unfold abandonAt
  dsimp only
  split_ifs
  · exact h _
  · exact h _
  · exact .inl rfl
  · exact .inl rfl

theorem abandonAt_parent (hq : q ∉ seen) :
    (abandonAt ticks p init b seen q).parent = (b q).parent := by
  unfold abandonAt
  simp only [hq, false_and, if_false]
  split_ifs <;> simp

theorem abandonAt_skip (hq : (b q).parent ≠ some p) :
    abandonAt ticks p init b (seen ++ [q]) = abandonAt ticks p init b seen := by
  funext r
  have h1 : (r ∈ seen ++ [q] ∧ (b r).parent = some p) ↔ (r ∈ seen ∧ (b r).parent = some p) := by
    grind
  have h2 : (∃ r ∈ seen ++ [q], (b r).parent = some p ∧ (b r).state = .zombie) ↔
      ∃ r ∈ seen, (b r).parent = some p ∧ (b r).state = .zombie := by
    grind
  simp only [abandonAt, h1, h2]

theorem abandonAt_pass (hseen : q ∉ seen) (hq : (b q).parent = some p) (hz : (b q).state ≠ .zombie) :
    abandonAt ticks p init b (seen ++ [q]) = Function.update (abandonAt ticks p init b seen) q
      { abandonAt ticks p init b seen q with parent := init } := by
  have h2 : (∃ r ∈ seen ++ [q], (b r).parent = some p ∧ (b r).state = .zombie) ↔
      ∃ r ∈ seen, (b r).parent = some p ∧ (b r).state = .zombie := by
    grind
  funext r
  by_cases hr : r = q
  · subst hr
    rw [Function.update_self]
    simp only [abandonAt, h2, hseen, hq, List.mem_concat_self, and_self, false_and, if_true, if_false]
    split_ifs
    · exact wake_setParent init
    · rfl
  · rw [Function.update_of_ne hr]
    have h1 : (r ∈ seen ++ [q] ∧ (b r).parent = some p) ↔ (r ∈ seen ∧ (b r).parent = some p) := by
      grind
    simp only [abandonAt, h1, h2]

theorem abandonAt_zombie (hseen : q ∉ seen) (hq : (b q).parent = some p) (hz : (b q).state = .zombie)
    (r : PIdx) : abandonAt ticks p init b (seen ++ [q]) r = wake ticks (init.map .proc)
      (Function.update (abandonAt ticks p init b seen) q
        { abandonAt ticks p init b seen q with parent := init } r) := by
  have h2 : ∃ r ∈ seen ++ [q], (b r).parent = some p ∧ (b r).state = .zombie := ⟨q, by simp, hq, hz⟩
  by_cases hr : r = q
  · subst hr
    rw [Function.update_self, wake_setParent]
    simp only [abandonAt, h2, hseen, hq, List.mem_concat_self, and_self, false_and, if_true, if_false]
    split_ifs
    · rw [wake_wake, wake_setParent]
    · exact wake_setParent init
  · rw [Function.update_of_ne hr]
    have h1 : (r ∈ seen ++ [q] ∧ (b r).parent = some p) ↔ (r ∈ seen ∧ (b r).parent = some p) := by
      grind
    simp only [abandonAt, h1, h2, if_true]
    split_ifs <;> simp

/-- The loop of **exit**. -/
theorem abandonLoop_spec (ticks : UInt32) (p : PIdx) (init : Option PIdx) (hq : WellQueued t) :
    Sat ((List.finRange NPROC).foldlM (abandonProc ticks p init) t)
      (fun t' => WellQueued t' ∧ t'.body = abandonAt ticks p init t.body (List.finRange NPROC))
      (fun e => e = .panic "invalid queue level" ∧ ∃ q, (t.proc q).state = .sleeping ∧
        levelOf (t.proc q).qLevel = none) := by
  refine Sat.foldlM
    (fun seen s => WellQueued s ∧ s.body = abandonAt ticks p init t.body seen) _ ?_ ⟨hq, ?_⟩
  · intro seen i post s hl ⟨hs, hbody⟩
    have hseen : i ∉ seen := by
      have hnodup := List.nodup_finRange NPROC
      rw [hl] at hnodup
      grind
    have hparent : (s.proc i).parent = (t.body i).parent := by
      show (s.body i).parent = _
      rw [hbody, abandonAt_parent hseen]
    have hstate : ∀ q, (s.proc q).state = (t.body q).state ∨
        ((t.body q).state = .sleeping ∧ (s.proc q).state = .runnable) := by
      intro q
      rw [← Ptable.body_toSched, hbody]
      exact abandonAt_state
    have hlevel : ∀ q, (s.proc q).qLevel = (t.proc q).qLevel := by
      intro q
      rw [← Ptable.body_toSched, hbody]
      exact abandonAt_qLevel
    unfold abandonProc
    refine Sat.ite (fun hpar => ?_) fun hpar => ?_
    · let s₁ := s.modify i fun x => { x with parent := init }
      have hsched : ∀ q, (s₁.proc q).toSched = (s.proc q).toSched := by
        intro q
        by_cases hqi : q = i <;> simp [s₁, hqi]
      have hq₁ : WellQueued s₁ := by
        refine hs.congr (heap_modify rfl rfl) (fun q => ?_) fun q _ => ?_
        all_goals simp [hsched]
      have hbody₁ : s₁.body = Function.update s.body i { s.body i with parent := init } :=
        body_modify_local fun _ => rfl
      refine Sat.ite (fun hz => ?_) fun hz => ?_
      · have hzt : (t.body i).state = .zombie := by
          have := hstate i
          have hzi : (s₁.proc i).state = .zombie := hz
          rw [hsched] at hzi
          grind
        refine (wakeup1_spec ticks (init.map .proc) hq₁).mono (fun t' ⟨hq', hbody'⟩ => ⟨hq', ?_⟩) ?_
        · funext r
          rw [hbody', hbody₁, hbody]
          exact (abandonAt_zombie hseen (hparent.symm.trans hpar) hzt r).symm
        · intro e ⟨he, q, hsleep, hlev⟩
          rw [hsched] at hsleep hlev
          rw [hlevel] at hlev
          have := hstate q
          refine ⟨he, q, ?_, hlev⟩
          rw [← Ptable.body_toSched]
          grind
      · have hzt : (t.body i).state ≠ .zombie := by
          have := hstate i
          have hzi : (s₁.proc i).state ≠ .zombie := hz
          rw [hsched] at hzi
          grind
        refine ⟨hq₁, ?_⟩
        rw [hbody₁, hbody]
        exact (abandonAt_pass hseen (hparent.symm.trans hpar) hzt).symm
    · refine ⟨hs, ?_⟩
      rw [hbody]
      exact (abandonAt_skip fun h => hpar (hparent.trans h)).symm
  · funext q
    simp [abandonAt]

end exit

/-! ## The steps of a process -/

theorem view_modify (hf : Local f) : (k.modify p f).view = k.view.set p f := by
  unfold Kernel.view Kernel.modify View.set
  simp [body_modify_local hf]

theorem view_first {P : Proc → Bool} (hP : ∀ x, P x.body = P x) :
    k.ptable.first P = k.view.first P := by
  unfold Ptable.first View.first
  congr 1
  funext p
  exact (hP _).symm

theorem view_setTable {b : PIdx → Proc} (hb : t.body = b) :
    ({ k with ptable := t } : Kernel n).view = { k.view with proc := b } := by
  unfold Kernel.view
  simp [hb]

theorem view_set {g : Proc → Proc}
    (hb : t.body = Function.update k.ptable.body p (g (k.ptable.body p))) :
    ({ k with ptable := t } : Kernel n).view = k.view.set p g := view_setTable hb

/-- **sched** from a process that is not running. -/
theorem sched_spec (hq : WellQueued k.ptable) (hp : (k.ptable.proc p).state ≠ .running)
    (ctx : Context) :
    ∃ k', sched k c p ctx = .ok k' ∧ WellQueued k'.ptable ∧
      k'.view = (k.view.set p fun x => { x with context := ctx }).run c none := by
  let f : Proc → Proc := fun x => { x with context := ctx }
  have hq₁ : WellQueued (k.ptable.modify p f) :=
    hq.modify_keep (fun _ => ⟨rfl, rfl⟩) fun _ => ⟨rfl, rfl, rfl, rfl⟩
  refine ⟨_, if_neg hp, hq₁, ?_⟩
  have hv₁ : (k.modify p f).view = k.view.set p f := view_modify fun _ => rfl
  rw [← hv₁]
  rfl

theorem View.set_set (v : View n) (p : PIdx) (f g : Proc → Proc) :
    (v.set p f).set p g = v.set p fun x => g (f x) := by
  simp [View.set]

/-- **sleep** of the process on CPU `c`. -/
theorem sleep_spec (hq : WellQueued k.ptable) (hp : (k.ptable.proc p).state ≠ .runnable) (chan : Chan)
    (ctx : Context) :
    ∃ k', sleep k c p chan ctx = .ok k' ∧ WellQueued k'.ptable ∧
      k'.view = (k.view.set p (sleepSlot chan ctx)).run c none := by
  let f : Proc → Proc := fun x => { x with chan := some chan, state := .sleeping }
  have hf : Local f := fun _ => rfl
  have hq₁ : WellQueued (k.modify p f).ptable := hq.modify hp hf (by simp [f])
  obtain ⟨k', hk', hq', hv'⟩ := sched_spec (c := c) (p := p) hq₁ (by simp [f, Kernel.modify]) ctx
  refine ⟨k', hk', hq', ?_⟩
  rw [hv', view_modify hf, View.set_set]
  rfl

/-- **yield** of the process on CPU `c`. -/
theorem yield_spec (hq : WellQueued k.ptable) (hp : (k.ptable.proc p).state ≠ .runnable) :
    Sat (yield k c p)
      (fun k' => WellQueued k'.ptable ∧ k'.view = (k.view.set p (yieldSlot k.ticks)).run c none)
      (fun e => e = .panic "invalid queue level" ∧ levelOf (k.ptable.proc p).qLevel = none) := by
  unfold yield
  have hadd := hq.enqueue (p := p) (f := fun x => { x with state := .runnable }) hp (fun _ => rfl) rfl
    k.ticks
  refine Sat.bind hadd fun t ⟨hqt, hbody⟩ => ?_
  have hpt : (t.proc p).state ≠ .running := by
    rw [← Ptable.body_toSched, hbody]
    simp
  obtain ⟨k', hk', hq', hv'⟩ :=
    sched_spec (k := { k.modify p fun x => { x with state := .runnable } with ptable := t }) (c := c)
      (p := p) hqt hpt .yield
  rw [hk']
  refine ⟨hq', ?_⟩
  rw [hv', view_setTable hbody]
  simp [View.set, View.run, Kernel.view, Kernel.modify, yieldSlot]

/-- **kill**. -/
theorem kill_spec (hq : WellQueued k.ptable) (pid : Int32) :
    Sat (kill k.ticks k.ptable pid)
      (fun r => WellQueued r.1 ∧
        ((k.view.first (fun x => x.pid = pid) = none ∧ r.1 = k.ptable) ∨
          ∃ q, k.view.first (fun x => x.pid = pid) = some q ∧
            ({ k with ptable := r.1 } : Kernel n).view = k.view.set q (killSlot k.ticks)))
      (fun e => e = .panic "invalid queue level" ∧ ∃ q, (k.ptable.proc q).state = .sleeping ∧
        (k.ptable.proc q).pid = pid ∧ levelOf (k.ptable.proc q).qLevel = none) := by
  unfold kill
  rw [view_first fun _ => rfl]
  cases hfirst : k.view.first fun x => x.pid = pid with
  | none => exact ⟨hq, .inl ⟨rfl, rfl⟩⟩
  | some q =>
    let f : Proc → Proc := fun x => { x with killed := true }
    have hf : Local f := fun _ => rfl
    have hself : ((k.ptable.modify q f).proc q) = f (k.ptable.proc q) := by simp
    have hq₁ : WellQueued (k.ptable.modify q f) :=
      hq.modify_keep (fun _ => ⟨rfl, rfl⟩) fun _ => ⟨rfl, rfl, rfl, rfl⟩
    refine Sat.ite (fun hs => ?_) fun hs => ?_
    · have hs' : (k.ptable.proc q).state = .sleeping := by
        have : (f (k.ptable.proc q)).state = .sleeping := hself ▸ hs
        exact this
      have hadd := hq₁.enqueue (p := q) (f := fun x => { x with state := .runnable })
        (by rw [hself]; simp [f, hs']) (fun _ => rfl) rfl k.ticks
      refine Sat.bind (hadd.mono (fun _ h => h) ?_) fun t ⟨hqt, hbody⟩ => ⟨hqt, .inr ⟨q, rfl, ?_⟩⟩
      · rintro e ⟨he, hl⟩
        refine ⟨he, q, hs', of_decide_eq_true (View.first_eq_some hfirst), ?_⟩
        rw [hself] at hl
        exact hl
      · refine view_set ?_
        have hslot : killSlot k.ticks (k.ptable.body q) = _ := if_pos hs'
        rw [hbody, body_modify_local hf, Function.update_self, Function.update_idem, hslot]
    · have hs' : (k.ptable.proc q).state ≠ .sleeping := by
        intro h
        exact hs (hself ▸ h)
      refine ⟨hq₁, .inr ⟨q, rfl, ?_⟩⟩
      have hslot : killSlot k.ticks (k.ptable.body q) = f (k.ptable.body q) := if_neg hs'
      refine view_set ?_
      rw [hslot]
      exact body_modify_local hf

/-- One round of **wait** by a process that is not runnable. -/
theorem wait_spec (hq : WellQueued k.ptable) (hp : (k.ptable.proc p).state ≠ .runnable) :
    ∃ r, wait k c p = .ok r ∧ WellQueued r.1.ptable ∧ Waits k.view c p r.1.view := by
  unfold wait
  rw [view_first fun _ => rfl]
  cases hz : k.view.first fun x => x.parent = some p ∧ x.state = .zombie with
  | some q =>
    have hzombie : (k.ptable.proc q).state = .zombie := by
      have := View.first_eq_some hz
      simp only [decide_eq_true_eq] at this
      exact this.2
    have hf : Local reapSlot := fun _ => rfl
    refine ⟨_, rfl, hq.modify (by simp [hzombie]) hf (by simp [reapSlot]), ?_⟩
    rw [view_modify hf]
    exact .reap hz
  | none =>
    dsimp only
    rw [view_first fun _ => rfl]
    split_ifs with hno
    · exact ⟨_, rfl, hq, .fail hz hno⟩
    · rw [not_or] at hno
      obtain ⟨k', hk', hq', hv'⟩ := sleep_spec (c := c) hq hp (.proc p) .wait
      rw [hk']
      refine ⟨_, rfl, hq', ?_⟩
      show Waits k.view c p k'.view
      rw [hv']
      exact .sleep hz hno.1 (Bool.eq_false_iff.mpr hno.2)

/-- The whole table as **exit** leaves it before its change of state. -/
theorem abandonAt_all (v : View n) (p : PIdx) :
    abandonAt v.ticks p v.initproc
      (fun q => wake v.ticks ((v.proc p).parent.map .proc) (v.proc q)) (List.finRange NPROC) =
      (v.abandon p).proc := by
  funext q
  have horphan : (∃ r, (v.proc r).parent = some p ∧ (v.proc r).state = .zombie) ↔ v.Orphaned p :=
    Iff.rfl
  simp only [abandonAt, List.mem_finRange, true_and, wake_parent, wake_zombie, horphan]
  simp only [View.abandon, wake_parent]

/-- **exit** of a running process. -/
theorem exit_spec (hq : WellQueued k.ptable) (hp : (k.ptable.proc p).state = .running) :
    Sat (exit k c p)
      (fun k' => WellQueued k'.ptable ∧ k.initproc ≠ some p ∧
        k'.view = ((k.view.abandon p).set p exitSlot).run c none)
      (fun e => (e = .panic "init exiting" ∧ k.initproc = some p) ∨
        ((e = .panic "invalid queue level" ∨ e = .outOfRange .queues) ∧
          ∃ q, ((k.ptable.proc q).state = .sleeping ∨ (k.ptable.proc q).state = .running) ∧
            levelOf (k.ptable.proc q).qLevel = none)) := by
  unfold exit
  refine Sat.ite (fun hinit => .inl ⟨rfl, hinit⟩) fun hinit => ?_
  have hfree : Sat (removeFromQueue k.ptable p) (fun t => t = k.ptable)
      (fun e => e = .outOfRange .queues ∧ levelOf (k.ptable.proc p).qLevel = none) := by
    obtain ⟨qs, hqs⟩ := hq
    have hoff : ∀ l, p ∉ qs l := by
      intro l hmem
      have := ((hqs.mem l p).mp hmem).2.1
      simp [hp] at this
    exact removeFromQueue_free hqs.repr.toSpells hoff (hqs.repr.free p hoff)
  refine Sat.bind (hfree.mono (fun _ h => h) fun e ⟨he, hl⟩ => .inr ⟨.inr he, p, .inr hp, hl⟩) ?_
  rintro t rfl
  refine Sat.bind ((wakeup1_spec k.ticks _ hq).mono (fun _ h => h)
    fun e ⟨he, q, hs, hl⟩ => .inr ⟨.inl he, q, .inl hs, hl⟩) fun t₁ ⟨hq₁, hbody₁⟩ => ?_
  have hsched₁ : ∀ q, (t₁.proc q).toSched =
      (wake k.ticks ((k.ptable.proc p).parent.map .proc) (k.ptable.body q)).toSched := by
    intro q
    rw [← Ptable.body_toSched, hbody₁]
  refine Sat.bind ((abandonLoop_spec k.ticks p k.initproc hq₁).mono (fun _ h => h) ?_)
    fun t₂ ⟨hq₂, hbody₂⟩ => ?_
  · rintro e ⟨he, q, hs, hl⟩
    rw [hsched₁] at hs hl
    rw [wake_qLevel] at hl
    have hsleep : (k.ptable.body q).state = .sleeping := sleeping_of_wake hs
    exact .inr ⟨.inl he, q, .inl hsleep, hl⟩
  · have hbody : t₂.body = (k.view.abandon p).proc := by
      rw [hbody₂, hbody₁]
      exact abandonAt_all k.view p
    have hp₂ : (t₂.proc p).state ≠ .runnable := by
      have := (calm_abandon k.view p p).state
      have hpv : (k.view.proc p).state = .running := hp
      rw [← Ptable.body_toSched, hbody]
      grind
    let f : Proc → Proc := fun x => { x with state := .zombie }
    have hf : Local f := fun _ => rfl
    have hq₃ : WellQueued (t₂.modify p f) := hq₂.modify hp₂ hf (by simp [f])
    obtain ⟨k', hk', hq', hv'⟩ := sched_spec (k := { k with ptable := t₂.modify p f }) (c := c)
      (p := p) hq₃ (by simp [f]) .exit
    refine Sat.imp (Q := fun k₁ => k₁ = k') (by rw [hk']; rfl) ?_
    rintro _ rfl
    refine ⟨hq', hinit, ?_⟩
    rw [hv', view_setTable (body_modify_local hf), hbody]
    simp only [View.set, View.run, Function.update_self, Function.update_idem]
    rfl

/-! ## The scheduler -/

theorem Level.toInt32_le : ∀ l l' : Level, l ≤ l' → l.toInt32 ≤ l'.toInt32 := by decide

/-- **get_next_proc** finds nothing only when nothing is runnable. -/
theorem getNextProc_none (hq : WellQueued t) (h : getNextProc t = none) (p : PIdx) :
    (t.proc p).state ≠ .runnable := by
  intro hp
  obtain ⟨qs, hq⟩ := hq
  obtain ⟨l, hl⟩ := Option.isSome_iff_exists.mp (hq.level p (by simp) hp)
  have hmem : p ∈ qs l := (hq.mem l p).mpr ⟨by simp, hp, hl⟩
  have hhead : (qs l).head? = none := by
    rw [← hq.repr.head l]
    exact List.findSome?_eq_none_iff.mp h l (List.mem_finRange l)
  rw [List.head?_eq_none_iff] at hhead
  simp [hhead] at hmem

/-- **get_next_proc** finds the head of the first queue that is not empty. -/
theorem getNextProc_some {qs : Level → List PIdx} (hq : Queued none t qs)
    (h : getNextProc t = some p) :
    ∃ l, (qs l).head? = some p ∧ ∀ l' < l, qs l' = [] := by
  obtain ⟨A, l, B, hsplit, hl, hA⟩ := List.findSome?_eq_some_iff.mp h
  refine ⟨l, (hq.repr.head l).symm.trans hl, fun l' hl' => ?_⟩
  have hmem : l' ∈ A := by
    have hmem : l' ∈ A ++ l :: B := hsplit ▸ List.mem_finRange l'
    have hlt := List.pairwise_lt_finRange 4
    rw [hsplit, List.pairwise_append, List.pairwise_cons] at hlt
    rcases List.mem_append.mp hmem with hmem | hmem
    · exact hmem
    · rcases List.mem_cons.mp hmem with rfl | hmem
      · exact absurd hl' (lt_irrefl _)
      · exact absurd (hlt.2.1.1 l' hmem) (lt_asymm hl')
  rw [← List.head?_eq_none_iff]
  exact (hq.repr.head l').symm.trans (hA l' hmem)

theorem Precedes.refl (x : Sched) : Precedes x x := by
  unfold Precedes
  grind

/-- **get_next_proc** finds a process that is `Best`, at the head of a queue. -/
theorem getNextProc_best {qs : Level → List PIdx} (hq : Queued none k.ptable qs)
    (h : getNextProc k.ptable = some p) : k.view.Best p ∧ ∃ l, p ∈ qs l := by
  obtain ⟨l, hhead, hempty⟩ := getNextProc_some hq h
  obtain ⟨B, hB⟩ : ∃ B, qs l = p :: B := List.head?_eq_some_iff.mp hhead
  have hp : p ∈ qs l := by simp [hB]
  obtain ⟨_, hstate, hl⟩ := (hq.mem l p).mp hp
  refine ⟨⟨hstate, fun q hqs => ?_⟩, l, hp⟩
  obtain ⟨l', hl'⟩ := Option.isSome_iff_exists.mp (hq.level q (by simp) hqs)
  have hmem : q ∈ qs l' := (hq.mem l' q).mpr ⟨by simp, hqs, hl'⟩
  have hpl : (k.ptable.proc p).qLevel = l.toInt32 := levelOf_eq_some.mp hl
  have hql : (k.ptable.proc q).qLevel = l'.toInt32 := levelOf_eq_some.mp hl'
  constructor
  · have hle : l ≤ l' := by
      by_contra hlt
      rw [hempty l' (not_le.mp hlt)] at hmem
      cases hmem
    show (k.ptable.proc p).qLevel ≤ (k.ptable.proc q).qLevel
    rw [hpl, hql]
    exact Level.toInt32_le l l' hle
  · intro heq
    have heq' : (k.ptable.proc p).qLevel = (k.ptable.proc q).qLevel := heq
    rw [← heq', hl] at hl'
    obtain rfl := Option.some.inj hl'
    rw [hB] at hmem
    rcases List.mem_cons.mp hmem with rfl | hmem
    · exact .refl _
    · have hsorted := hq.sorted l
      rw [hB, List.pairwise_cons] at hsorted
      exact hsorted.1 q hmem

theorem dispatch_spec {qs : Level → List PIdx} {l : Level} (hq : Queued none t qs) (hp : p ∈ qs l) :
    ∃ t', removeFromQueue (t.modify p fun x => { x with state := .running }) p = .ok t' ∧
      WellQueued t' ∧ t'.body = Function.update t.body p { t.body p with state := .running } := by
  let f : Proc → Proc := fun x => { x with state := .running }
  have hf : Local f := fun _ => rfl
  obtain ⟨_, hstate, hl⟩ := (hq.mem l p).mp hp
  have hheap : (t.modify p f).heap = t.heap := heap_modify rfl rfl
  have hl₁ : levelOf ((t.modify p f).proc p).qLevel = some l := by simpa [f] using hl
  obtain ⟨t', ht', hheap', hbody'⟩ := removeFromQueue_eq (hheap ▸ hq.repr.toSpells) hp hl₁
  obtain ⟨t₁, ht₁, hheap₁, hbody₁⟩ := removeFromQueue_eq hq.repr.toSpells hp hl
  obtain ⟨t₂, ht₂, hq₂, _⟩ := removeFromQueue_spec hq hp
  obtain rfl : t₁ = t₂ := Except.ok.inj (ht₁.symm.trans ht₂)
  have hbody : t'.body = Function.update t.body p (f (t.body p)) := hbody'.trans (body_modify_local hf)
  have hsame : ∀ q, some q ≠ some p → (t'.proc q).toSched = (t₁.proc q).toSched := by
    intro q hqp
    have hne : q ≠ p := by simpa using hqp
    rw [← Ptable.body_toSched, ← Ptable.body_toSched, hbody, hbody₁, Function.update_of_ne hne]
  refine ⟨t', ht', ⟨_, Queued.release (p := p) (hq₂.congr ?_ ?_ ?_) ?_⟩, hbody⟩
  · rw [hheap', hheap₁, hheap]
  · intro q hqp
    rw [hsame q hqp]
  · intro q hqp _
    rw [hsame q hqp]
    exact ⟨rfl, rfl, rfl⟩
  · rw [← Ptable.body_toSched, hbody]
    simp [f]

/-- **swtch** into a process, up to where it releases the lock. -/
theorem resume_spec (hq : WellQueued k.ptable) (hp : (k.ptable.proc p).state ≠ .runnable)
    (hctx : (k.ptable.proc p).context ≠ .exit) :
    ∃ k', resume k c p = .ok k' ∧ WellQueued k'.ptable ∧
      (((k.view.proc p).context = .forkret ∨ (k.view.proc p).context = .yield) ∧ k'.view = k.view ∨
        (k.view.proc p).context = .sleep ∧ k'.view = k.view.set p (fun x => { x with chan := none }) ∨
        (k.view.proc p).context = .wait ∧
          Waits (k.view.set p fun x => { x with chan := none }) c p k'.view) := by
  let f : Proc → Proc := fun x => { x with chan := none }
  have hf : Local f := fun _ => rfl
  have hq₁ : WellQueued (k.modify p f).ptable :=
    hq.modify_keep (f := f) (fun _ => ⟨rfl, rfl⟩) fun _ => ⟨rfl, rfl, rfl, rfl⟩
  unfold resume
  cases hcase : (k.ptable.proc p).context with
  | forkret => exact ⟨k, rfl, hq, .inl ⟨.inl hcase, rfl⟩⟩
  | yield => exact ⟨k, rfl, hq, .inl ⟨.inr hcase, rfl⟩⟩
  | sleep => exact ⟨_, rfl, hq₁, .inr (.inl ⟨hcase, view_modify hf⟩)⟩
  | wait =>
    obtain ⟨r, hr, hqr, hwait⟩ := wait_spec (c := c) (p := p) hq₁ (by simpa [Kernel.modify, f] using hp)
    rw [view_modify hf] at hwait
    dsimp only
    rw [hr]
    exact ⟨r.1, rfl, hqr, .inr (.inr ⟨hcase, hwait⟩)⟩
  | exit => exact absurd hcase hctx

/-- One turn of the loop of **scheduler** that finds nothing. -/
theorem scheduler_idle (hnext : getNextProc k.ptable = none) : scheduler k c = .ok k := by
  unfold scheduler
  rw [hnext]

/-- One turn of the loop of **scheduler** that finds a process. -/
theorem scheduler_dispatch (hq : WellQueued k.ptable) (hv : k.view.Valid)
    (hnext : getNextProc k.ptable = some p) :
    k.view.Best p ∧ ∃ k', scheduler k c = .ok k' ∧ WellQueued k'.ptable ∧
      Dispatches k.view c p k'.view := by
  obtain ⟨qs, hqs⟩ := hq
  obtain ⟨hbest, l, hp⟩ := getNextProc_best hqs hnext
  have hlive : (k.view.proc p).state.Live := .inr (.inl hbest.1)
  obtain ⟨t, ht, hqt, hbody⟩ := dispatch_spec hqs hp
  let k₁ : Kernel n := { k with cpus := Function.update k.cpus c (some p), ptable := t }
  have hv₁ : k₁.view = (k.view.set p fun x => { x with state := .running }).run c (some p) := by
    unfold Kernel.view View.set View.run
    simp [k₁, hbody]
  have hrun : (k₁.view.proc p).state ≠ .runnable := by simp [hv₁]
  have hctx₁ : (k₁.view.proc p).context = (k.view.proc p).context := by simp [hv₁]
  obtain ⟨k', hk', hq', hcases⟩ :=
    resume_spec (k := k₁) (c := c) hqt hrun (hctx₁ ▸ hv.context p hlive)
  refine ⟨hbest, k', ?_, hq', ?_⟩
  · unfold scheduler
    rw [hnext]
    dsimp only
    rw [if_pos ⟨hbest.1, hv.stack p hlive⟩]
    dsimp only [Kernel.modify]
    rw [ht]
    exact hk'
  · have hclear : k₁.view.set p (fun x => { x with chan := none }) =
        (k.view.set p fun x => { x with state := .running, chan := none }).run c (some p) := by
      rw [hv₁]
      simp [View.set, View.run]
    rw [hctx₁, hclear] at hcases
    rcases hcases with ⟨hctx, hk⟩ | ⟨hctx, hk⟩ | ⟨hctx, hk⟩
    · rw [hk, hv₁]
      exact .resume hctx
    · rw [hk]
      exact .sleep hctx
    · exact .wait hctx hk

/-! ## The timer interrupt -/

theorem local_updateProcTimers : Local updateProcTimers := by
  intro x
  by_cases hp : x.pid = 0
  · simp [updateProcTimers, Proc.body, hp]
  · cases hs : x.state <;> simp [updateProcTimers, Proc.body, hp, hs]

theorem local_demoteProcess : Local demoteProcess := by
  intro x
  unfold demoteProcess Proc.body
  dsimp only
  split_ifs <;> rfl

/-- **update_all_proc_timers** leaves the queues alone: what it counts up for a runnable process is no
key. -/
theorem updateAllProcTimers_spec (hq : WellQueued t) :
    WellQueued (updateAllProcTimers t) ∧
      (updateAllProcTimers t).body = fun q => updateProcTimers (t.body q) := by
  refine ⟨hq.congr ?_ (fun q => ?_) fun q hr => ?_, funext fun q => local_updateProcTimers _⟩
  · refine Heap.ext (funext fun q => ?_) (funext fun q => ?_) rfl rfl
    all_goals
      simp only [Ptable.heap, updateAllProcTimers, updateProcTimers]
      split
      · rfl
      · split <;> rfl
  · have hstate := (calm_updateProcTimers (t.proc q)).state
    simp only [updateAllProcTimers, updateProcTimers] at hstate ⊢
    split
    · rfl
    · split <;> simp_all
  · simp only [updateAllProcTimers, updateProcTimers, hr]
    split <;> exact ⟨rfl, rfl, rfl⟩

theorem checkTimeQuantum_spec (hq : WellQueued t) (hp : (t.proc p).state = .running) :
    Sat (checkTimeQuantum t p)
      (fun t' => WellQueued t' ∧ t'.body = Function.update t.body p (quantumSlot (t.body p)))
      (fun e => e = .outOfRange .timeQuantum ∧ levelOf (t.proc p).qLevel = none) := by
  unfold checkTimeQuantum
  cases hl : levelOf (t.proc p).qLevel with
  | none =>
    rw [index_none hl]
    exact ⟨rfl, rfl⟩
  | some l =>
    rw [index_some hl]
    have hslot : quantumSlot (t.body p) =
        if (t.proc p).cpuBurst ≥ timeQuantum l then demoteProcess (t.body p) else t.body p := by
      unfold quantumSlot
      rw [Ptable.body_toSched, hl]
    rw [hslot]
    refine Sat.ite (fun hburst => ?_) fun hburst => ?_
    · rw [if_pos hburst]
      have hcalm := (calm_demoteProcess (t.proc p)).state
      exact ⟨hq.modify (by simp [hp]) local_demoteProcess (by grind),
        body_modify_local local_demoteProcess⟩
    · rw [if_neg hburst, Function.update_eq_self]
      exact ⟨hq, rfl⟩

theorem checkQuota_spec (hq : WellQueued t) (hp : (t.proc p).state = .running) :
    Sat (checkQuota t p)
      (fun t' => WellQueued t' ∧ t'.body = Function.update t.body p (quotaSlot (t.body p)))
      (fun e => e = .outOfRange .timeQuantum ∧ levelOf (t.proc p).qLevel = none) := by
  unfold checkQuota quotaSlot
  rw [Ptable.body_toSched]
  refine Sat.ite (fun hend => ?_) fun hend => ?_
  · rw [if_pos hend]
    exact ⟨hq.modify_keep (fun _ => ⟨rfl, rfl⟩) fun _ => ⟨rfl, rfl, rfl, rfl⟩,
      body_modify_local (f := fun x => { x with killed := true }) fun _ => rfl⟩
  · rw [if_neg hend]
    refine Sat.ite (fun hkilled => ?_) fun hkilled => ?_
    · rw [if_pos hkilled]
      exact checkTimeQuantum_spec hq hp
    · rw [if_neg hkilled, Function.update_eq_self]
      exact ⟨hq, rfl⟩

/-- The critical section of the **timer interrupt**. -/
theorem trapTimer_spec (ticks : UInt32) (hq : WellQueued t) (hp : (t.proc p).state = .running) :
    Sat (trapTimer ticks t p)
      (fun t' => WellQueued t' ∧ t'.body = fun q => timerSlot ticks p q (t.body q))
      (fun e => e = .outOfRange .timeQuantum ∧ levelOf (t.proc p).qLevel = none) := by
  obtain ⟨hq₁, hbody₁⟩ := updateAllProcTimers_spec hq
  have hself : ((updateAllProcTimers t).proc p).state = .running ∧
      ((updateAllProcTimers t).proc p).qLevel = (t.proc p).qLevel := by
    simp only [updateAllProcTimers, updateProcTimers, hp]
    split <;> simp_all
  unfold trapTimer
  refine Sat.bind ((checkQuota_spec hq₁ hself.1).mono (fun _ h => h) fun e ⟨he, hl⟩ => ?_)
    fun t₂ ⟨⟨qs, hq₂⟩, hbody₂⟩ => ?_
  · rw [hself.2] at hl
    exact ⟨he, hl⟩
  · obtain ⟨t₃, qs₃, ht₃, hq₃, hbody₃, _⟩ := checkAging_spec ticks hq₂
    rw [ht₃]
    refine ⟨⟨qs₃, hq₃⟩, funext fun q => ?_⟩
    rw [hbody₃, hbody₂, hbody₁]
    unfold timerSlot
    by_cases hqp : q = p
    · subst hqp
      simp
    · simp [hqp]

end Xv6Mlfq
