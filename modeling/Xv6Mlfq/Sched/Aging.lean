import Xv6Mlfq.Sched.Table

/-!
# One pass of check_aging

`check_aging` walks the queues of levels 1, 2 and 3 and moves overdue processes one level up while it
walks. `checkAging_chained`: on well-formed chains the pass ends without a fault, leaves well-formed
chains, and moves exactly the queued processes that are due, each by one level. A promoted process
lands in a queue that has been walked already, and its waiting time is zero there, so nobody moves
twice. On queues that are also in order, `checkAging_spec` says the same as a function of each process
(`age`).
-/

namespace Xv6Mlfq

open Lib

/-- A process as `promote_process` leaves it, links aside. -/
def promoteSlot (ticks : UInt32) (x : Proc) : Proc :=
  { x with qLevel := x.qLevel - 1, cpuWait := 0, cpuBurst := 0, queueEntryTime := ticks }

/-- A queued process on level 1, 2 or 3 with these fields is promoted. -/
def WaitedLong (x : Sched) : Prop := x.cpuWait ≥ 250 ∧ x.type = .idle

instance (x : Sched) : Decidable (WaitedLong x) := inferInstanceAs (Decidable (_ ∧ _))

/-- The processes that `check_aging` promotes. -/
def Overdue (x : Sched) : Prop :=
  x.state = .runnable ∧ x.qLevel ≠ 0 ∧ x.cpuWait ≥ 250 ∧ x.type = .idle

instance (x : Sched) : Decidable (Overdue x) := by
  unfold Overdue
  infer_instance

def age (ticks : UInt32) (x : Proc) : Proc :=
  if Overdue x.toSched then promoteSlot ticks x else x

theorem levelOf_sub_one {x : Int32} {l : Level} (hx : levelOf x = some l) (hl : l ≠ 0) :
    levelOf (x - 1) = some (l - 1) := by
  rw [levelOf_eq_some] at hx ⊢
  subst hx
  revert hl
  revert l
  decide

theorem Level.ne_sub_one : ∀ l : Level, l ≠ l - 1 := by decide

variable {t : Ptable} {qs : Level → List PIdx} {p : PIdx} {l : Level}

/-- **promote_process** of a process on level `l`, `l` not 0, of type `idle`. -/
theorem promoteProcess_spec (ticks : UInt32) (hq : Chained none t qs) (hl : l ≠ 0) (hp : p ∈ qs l)
    (htype : (t.proc p).type = .idle) :
    ∃ t' qs', promoteProcess ticks t p = .ok t' ∧ Chained none t' qs' ∧
      (Ordered none t qs → Ordered none t' qs') ∧
      t'.body = Function.update t.body p (promoteSlot ticks (t.body p)) ∧
      qs' l = (qs l).erase p ∧
      ∀ P : PIdx → Bool, P p = false → ∀ l', (qs' l').filter P = (qs l').filter P := by
  obtain ⟨_, hstate, hlevel⟩ := (hq.mem l p).mp hp
  have hzero : (t.proc p).qLevel ≠ 0 := by
    intro h0
    rw [h0] at hlevel
    exact hl (Option.some.inj hlevel).symm
  obtain ⟨t₁, ht₁, hq₁, ho₁, hbody₁⟩ := removeFromQueue_chained hq hp
  have hp₁ : (t₁.proc p).toSched = (t.proc p).toSched := toSched_eq_of_body hbody₁ p
  let f : Proc → Proc := fun x => { x with qLevel := x.qLevel - 1, cpuWait := 0, cpuBurst := 0 }
  have hq₂ : Chained (some p) (t₁.modify p f) _ := hq₁.modify_out rfl rfl
  have hstate₂ : ((t₁.modify p f).proc p).state = .runnable := by
    simp only [Ptable.modify_proc, Function.update_self, f]
    rw [hp₁]
    exact hstate
  have hlevel₂ : levelOf ((t₁.modify p f).proc p).qLevel = some (l - 1) := by
    simp only [Ptable.modify_proc, Function.update_self, f]
    rw [hp₁]
    exact levelOf_sub_one hlevel hl
  have hadd := addToQueue_chained ((t₁.modify p f).proc p).qLevel ticks hq₂ hstate₂
  have hprom : promoteProcess ticks t p =
      addToQueue ticks (t₁.modify p f) p ((t₁.modify p f).proc p).qLevel := by
    unfold promoteProcess
    rw [if_neg (by simp [htype, hzero]), ht₁]
    rfl
  rw [hlevel₂] at hadd
  cases hres : promoteProcess ticks t p with
  | error e =>
    rw [← hprom, hres] at hadd
    exact absurd hadd.2 (by simp)
  | ok t' =>
    rw [← hprom, hres] at hadd
    obtain ⟨⟨l', hl', hq', ho'⟩, hbody'⟩ := hadd
    obtain rfl : l - 1 = l' := Option.some.inj hl'
    have hne : l ≠ l - 1 := Level.ne_sub_one l
    refine ⟨t', _, rfl, hq', fun ho => ho' ((ho₁ ho).modify_out hq₁), ?_, ?_, ?_⟩
    · rw [hbody']
      funext q
      by_cases hqp : q = p
      · subst hqp
        rw [Function.update_self, ← hbody₁]
        simp [Ptable.body, Proc.body, promoteSlot, enterQueue, f]
      · rw [Function.update_of_ne hqp, ← hbody₁]
        simp [Ptable.body, hqp]
    · rw [Function.update_of_ne hne, Function.update_self]
    · intro P hP l'
      by_cases hl₁ : l' = l - 1
      · subst hl₁
        rw [Function.update_self, filter_orderedInsert hP, Function.update_of_ne (Ne.symm hne)]
      · rw [Function.update_of_ne hl₁]
        by_cases hl₂ : l' = l
        · subst hl₂
          rw [Function.update_self, filter_erase hP]
        · rw [Function.update_of_ne hl₂]

/-- The processes of the list `B` that are due are promoted, and nothing else happens to any process. -/
structure Promoted (ticks : UInt32) (B : PIdx → Prop) [DecidablePred B] (t : Ptable) (qs : Level → List PIdx)
    (t' : Ptable) (qs' : Level → List PIdx) : Prop where
  chained : Chained none t' qs'
  ordered : Ordered none t qs → Ordered none t' qs'
  body : ∀ q, t'.body q = if B q ∧ WaitedLong (t.proc q).toSched then promoteSlot ticks (t.body q) else t.body q
  order : ∀ P : PIdx → Bool, (∀ q, B q → WaitedLong (t.proc q).toSched → P q = false) →
    ∀ l', (qs' l').filter P = (qs l').filter P

/-- The inner loop of `check_aging`: of the queue `l`, the processes `A` have been looked at and stay,
and the processes `B` are still to come. -/
theorem checkAgingLoop_spec (ticks : UInt32) (hl : l ≠ 0) (fuel : Nat) (A B : List PIdx)
    (hq : Chained none t qs) (hs : qs l = A ++ B) (hfuel : B.length ≤ fuel) :
    ∃ t' qs', checkAgingLoop ticks fuel B.head? t = .ok t' ∧ Promoted ticks (· ∈ B) t qs t' qs' := by
  induction B generalizing A fuel t qs with
  | nil =>
    refine ⟨t, qs, by cases fuel <;> rfl, hq, id, by simp, fun _ _ _ => rfl⟩
  | cons p B ih =>
    obtain ⟨fuel, rfl⟩ : ∃ m, fuel = m + 1 := by
      rw [List.length_cons] at hfuel
      exact ⟨fuel - 1, by omega⟩
    have hp : p ∈ qs l := by simp [hs]
    have hnext : (t.proc p).next = B.head? := hq.repr.next l A p B hs
    have hnodup : (A ++ p :: B).Nodup := hs ▸ hq.repr.nodup l
    have hpB : p ∉ B := by grind
    have hfuelB : B.length ≤ fuel := by simpa using hfuel
    rw [List.head?_cons, checkAgingLoop, hnext]
    by_cases hdue : WaitedLong (t.proc p).toSched
    · -- `p` moves one level up and the walk goes on behind it
      obtain ⟨t₁, qs₁, ht₁, hq₁, ho₁, hbody₁, hl₁, hkeep₁⟩ := promoteProcess_spec ticks hq hl hp hdue.2
      have hs₁ : qs₁ l = A ++ B := by
        rw [hl₁, hs, List.erase_append_right _ (by grind), List.erase_cons_head]
      have hsame : ∀ q, q ≠ p → (t₁.proc q).toSched = (t.proc q).toSched := by
        intro q hqp
        rw [← Ptable.body_toSched, hbody₁, Function.update_of_ne hqp, Ptable.body_toSched]
      obtain ⟨t', qs', ht', hq', ho', hbody', hkeep'⟩ := ih fuel A hq₁ hs₁ hfuelB
      rw [checkAgingProc, if_pos hdue.1, ht₁]
      refine ⟨t', qs', ht', hq', fun ho => ho' (ho₁ ho), fun q => ?_, fun P hP l' => ?_⟩
      · rw [hbody', hbody₁]
        by_cases hqp : q = p
        · subst hqp
          simp [hpB, hdue]
        · simp [hqp, hsame q hqp]
      · rw [hkeep' P, hkeep₁ P (hP p (by simp) hdue) l']
        intro q hqB hq₁due
        have hqp : q ≠ p := fun h => hpB (h ▸ hqB)
        rw [hsame q hqp] at hq₁due
        exact hP q (by simp [hqB]) hq₁due
    · -- `p` stays
      have hstay : checkAgingProc ticks t p = .ok t := by
        unfold checkAgingProc
        split_ifs with hw
        · have htype : (t.proc p).type = .init ∨ (t.proc p).type = .shell := by
            have : (t.proc p).type ≠ .idle := fun hidle => hdue ⟨hw, hidle⟩
            cases h : (t.proc p).type <;> simp_all
          unfold promoteProcess
          rw [if_pos (by tauto)]
        · rfl
      obtain ⟨t', qs', ht', hq', ho', hbody', hkeep'⟩ := ih fuel (A ++ [p]) hq (by simp [hs]) hfuelB
      rw [hstay]
      refine ⟨t', qs', ht', hq', ho', fun q => ?_, fun P hP l' => ?_⟩
      · rw [hbody']
        by_cases hqp : q = p
        · subst hqp
          simp [hpB, hdue]
        · simp [hqp]
      · exact hkeep' P (fun q hqB => hP q (by simp [hqB])) l'

theorem checkAgingLevel_spec (ticks : UInt32) (hl : l ≠ 0) (hq : Chained none t qs) :
    ∃ t' qs', checkAgingLevel ticks t l = .ok t' ∧ Promoted ticks (· ∈ qs l) t qs t' qs' := by
  obtain ⟨t', qs', ht', hprom⟩ :=
    checkAgingLoop_spec ticks hl NPROC [] (qs l) hq rfl (hq.length_le l)
  refine ⟨t', qs', ?_, hprom⟩
  unfold checkAgingLevel
  rw [show (t.queues l).head = (qs l).head? from hq.repr.head l]
  exact ht'

theorem Promoted.mem_iff {ticks : UInt32} {t' : Ptable} {qs' : Level → List PIdx} (hq : Chained none t qs)
    (hl : l ≠ 0) (h : Promoted ticks (· ∈ qs l) t qs t' qs') (q : PIdx) (l' : Level) :
    q ∈ qs' l' ↔ if q ∈ qs l ∧ WaitedLong (t.proc q).toSched then l' = l - 1 else q ∈ qs l' := by
  have hsched : (t'.proc q).toSched = if q ∈ qs l ∧ WaitedLong (t.proc q).toSched then
      (promoteSlot ticks (t.body q)).toSched else (t.proc q).toSched := by
    rw [← Ptable.body_toSched, h.body]
    split_ifs <;> rfl
  rw [h.chained.mem, hsched]
  split_ifs with hmove
  · obtain ⟨-, hstate, hlevel⟩ := (hq.mem l q).mp hmove.1
    have hnew : levelOf (promoteSlot ticks (t.body q)).qLevel = some (l - 1) := levelOf_sub_one hlevel hl
    rw [hnew]
    refine ⟨fun h => (Option.some.inj h.2.2).symm, fun h => ⟨by simp, hstate, by rw [h]⟩⟩
  · rw [hq.mem]

def aboveZero (qs : Level → List PIdx) (q : PIdx) : Prop := q ∈ qs 1 ∨ q ∈ qs 2 ∨ q ∈ qs 3

instance (qs : Level → List PIdx) : DecidablePred (aboveZero qs) :=
  fun _ => inferInstanceAs (Decidable (_ ∨ _ ∨ _))

/-- **check_aging** ends, keeps the chains well formed and acts on each process by itself: a process on
level 1, 2 or 3 that is due moves one level up, and the others keep their fields and their relative
order. -/
theorem checkAging_chained (ticks : UInt32) (hq : Chained none t qs) :
    ∃ t' qs', checkAging ticks t = .ok t' ∧ Promoted ticks (aboveZero qs) t qs t' qs' := by
  obtain ⟨t₁, qs₁, ht₁, h₁⟩ := checkAgingLevel_spec ticks (l := 1) (by decide) hq
  obtain ⟨t₂, qs₂, ht₂, h₂⟩ := checkAgingLevel_spec ticks (l := 2) (by decide) h₁.chained
  obtain ⟨t₃, qs₃, ht₃, h₃⟩ := checkAgingLevel_spec ticks (l := 3) (by decide) h₂.chained
  have hrun : checkAging ticks t = .ok t₃ := by
    have hlevels : (List.finRange 4).tail = ([1, 2, 3] : List Level) := rfl
    unfold checkAging
    rw [hlevels, List.foldlM_cons, ht₁]
    show (do let t ← checkAgingLevel ticks t₁ 2; checkAgingLevel ticks t 3 >>= pure) = _
    rw [ht₂]
    show checkAgingLevel ticks t₂ 3 >>= pure = _
    rw [ht₃]
    rfl
  -- a process is on one level only, and where it lands has been walked already
  have hdisj := hq.repr.disjoint
  have hmem₁ := h₁.mem_iff hq (by decide)
  have hmem₂ := h₂.mem_iff h₁.chained (by decide)
  have htwo : ∀ q, q ∈ qs₁ 2 ↔ q ∈ qs 2 := by
    intro q
    rw [hmem₁]
    split_ifs with hmove
    · exact iff_of_false (by decide) fun h2 => absurd (hdisj _ _ q hmove.1 h2) (by decide)
    · rfl
  have hthree : ∀ q, q ∈ qs₂ 3 ↔ q ∈ qs 3 := by
    intro q
    rw [hmem₂]
    split_ifs with hmove
    · exact iff_of_false (by decide) fun h3 => absurd (hdisj _ _ q ((htwo q).mp hmove.1) h3) (by decide)
    · rw [hmem₁]
      split_ifs with hmove'
      · exact iff_of_false (by decide) fun h3 => absurd (hdisj _ _ q hmove'.1 h3) (by decide)
      · rfl
  have hone : ∀ q, q ∈ qs 1 → q ∉ qs 2 ∧ q ∉ qs 3 := fun q h1 =>
    ⟨fun h2 => absurd (hdisj _ _ q h1 h2) (by decide), fun h3 => absurd (hdisj _ _ q h1 h3) (by decide)⟩
  have hsame₁ : ∀ q, q ∉ qs 1 → t₁.body q = t.body q := fun q h1 => by rw [h₁.body, if_neg fun h => h1 h.1]
  have hsame₂ : ∀ q, q ∉ qs 2 → t₂.body q = t₁.body q := fun q h2 => by
    rw [h₂.body, if_neg fun h => h2 ((htwo q).mp h.1)]
  have hsame₃ : ∀ q, q ∉ qs 3 → t₃.body q = t₂.body q := fun q h3 => by
    rw [h₃.body, if_neg fun h => h3 ((hthree q).mp h.1)]
  have hdue₁ : ∀ q, q ∉ qs 1 → (t₁.proc q).toSched = (t.proc q).toSched := fun q h1 => by
    rw [← Ptable.body_toSched, hsame₁ q h1, Ptable.body_toSched]
  have hdue₂ : ∀ q, q ∉ qs 1 → q ∉ qs 2 → (t₂.proc q).toSched = (t.proc q).toSched := fun q h1 h2 => by
    rw [← Ptable.body_toSched, hsame₂ q h2, hsame₁ q h1, Ptable.body_toSched]
  refine ⟨t₃, qs₃, hrun, h₃.chained, fun ho => h₃.ordered (h₂.ordered (h₁.ordered ho)), fun q => ?_,
    fun P hP l' => ?_⟩
  · unfold aboveZero
    by_cases h1 : q ∈ qs 1
    · obtain ⟨h2, h3⟩ := hone q h1
      rw [hsame₃ q h3, hsame₂ q h2, h₁.body]
      simp [h1]
    · by_cases h2 : q ∈ qs 2
      · have h3 : q ∉ qs 3 := fun h3 => absurd (hdisj _ _ q h2 h3) (by decide)
        rw [hsame₃ q h3, h₂.body, hsame₁ q h1, hdue₁ q h1]
        simp [h2, (htwo q).mpr h2]
      · rw [h₃.body, hsame₂ q h2, hsame₁ q h1, hdue₂ q h1 h2]
        simp [h1, h2, hthree q]
  · rw [h₃.order P, h₂.order P, h₁.order P]
    · exact fun q h1 hd => hP q (.inl h1) hd
    · intro q h2 hd
      rw [htwo] at h2
      have h1 : q ∉ qs 1 := fun h1 => (hone q h1).1 h2
      rw [hdue₁ q h1] at hd
      exact hP q (.inr (.inl h2)) hd
    · intro q h3 hd
      rw [hthree] at h3
      have h1 : q ∉ qs 1 := fun h1 => (hone q h1).2 h3
      have h2 : q ∉ qs 2 := fun h2 => absurd (hdisj _ _ q h2 h3) (by decide)
      rw [hdue₂ q h1 h2] at hd
      exact hP q (.inr (.inr h3)) hd

theorem Queued.overdue_iff (hq : Queued none t qs) (q : PIdx) :
    aboveZero qs q ∧ WaitedLong (t.proc q).toSched ↔ Overdue (t.proc q).toSched := by
  unfold aboveZero Overdue WaitedLong
  rw [hq.mem, hq.mem, hq.mem]
  constructor
  · rintro ⟨⟨-, hs, hl⟩ | ⟨-, hs, hl⟩ | ⟨-, hs, hl⟩, hd⟩
    all_goals
      refine ⟨hs, fun h0 => ?_, hd⟩
      rw [h0] at hl
      exact absurd hl (by decide)
  · rintro ⟨hs, h0, hd⟩
    refine ⟨?_, hd⟩
    obtain ⟨l, hl⟩ := Option.isSome_iff_exists.mp (hq.level q (by simp) hs)
    have hl0 : l ≠ 0 := by
      intro hl0
      rw [hl0, levelOf_eq_some] at hl
      exact h0 hl
    match l, hl0 with
    | 1, _ => exact .inl ⟨by simp, hs, hl⟩
    | 2, _ => exact .inr (.inl ⟨by simp, hs, hl⟩)
    | 3, _ => exact .inr (.inr ⟨by simp, hs, hl⟩)

/-- **check_aging** on queues in order, as a function of each process. -/
theorem checkAging_spec (ticks : UInt32) (hq : Queued none t qs) :
    ∃ t' qs', checkAging ticks t = .ok t' ∧ Queued none t' qs' ∧
      (∀ q, t'.body q = age ticks (t.body q)) ∧
      ∀ P : PIdx → Bool, (∀ q, Overdue (t.proc q).toSched → P q = false) →
        ∀ l', (qs' l').filter P = (qs l').filter P := by
  obtain ⟨t', qs', hrun, h⟩ := checkAging_chained ticks hq.chained
  refine ⟨t', qs', hrun, h.chained.queued (h.ordered hq.ordered), fun q => ?_, fun P hP l' => ?_⟩
  · rw [h.body]
    simp only [hq.overdue_iff]
    rfl
  · exact h.order P (fun q hup hd => hP q ((hq.overdue_iff q).mp ⟨hup, hd⟩)) l'

/-- One aging pass, for every state of the run queues whose chains are well formed and hold exactly the
runnable processes, each on the chain of its level. -/
theorem aging_pass_exact (ticks : UInt32) (t : Ptable) (qs : Level → List PIdx) (hq : Chained none t qs) :
    ∃ t' qs', checkAging ticks t = .ok t' ∧ Chained none t' qs' ∧
      -- a process that is due moves one level up
      (∀ l p, l ≠ 0 → p ∈ qs l → (t.proc p).cpuWait ≥ 250 → (t.proc p).type = .idle →
        p ∈ qs' (l - 1) ∧ (t'.proc p).toSched = { (t.proc p).toSched with
          qLevel := (t.proc p).qLevel - 1, cpuWait := 0, cpuBurst := 0, queueEntryTime := ticks }) ∧
      -- the others keep their fields
      (∀ p, (∀ l, l ≠ 0 → p ∈ qs l → ¬ ((t.proc p).cpuWait ≥ 250 ∧ (t.proc p).type = .idle)) →
        (t'.proc p).toSched = (t.proc p).toSched) ∧
      -- and their relative order
      (∀ P : PIdx → Bool, (∀ l p, l ≠ 0 → p ∈ qs l → (t.proc p).cpuWait ≥ 250 → (t.proc p).type = .idle →
        P p = false) → ∀ l, (qs' l).filter P = (qs l).filter P) := by
  obtain ⟨t', qs', hrun, h⟩ := checkAging_chained ticks hq
  have hup : ∀ {l p}, l ≠ 0 → p ∈ qs l → aboveZero qs p := by
    intro l p hl hp
    match l, hl with
    | 1, _ => exact .inl hp
    | 2, _ => exact .inr (.inl hp)
    | 3, _ => exact .inr (.inr hp)
  refine ⟨t', qs', hrun, h.chained, fun l p hl hp hw htype => ?_, fun p hno => ?_, fun P hP l => ?_⟩
  · have hnew : (t'.proc p).toSched = (promoteSlot ticks (t.body p)).toSched := by
      rw [← Ptable.body_toSched, h.body, if_pos ⟨hup hl hp, hw, htype⟩]
    obtain ⟨-, hstate, hlevel⟩ := (hq.mem l p).mp hp
    refine ⟨(h.chained.mem _ _).mpr ⟨by simp, ?_, ?_⟩, hnew⟩
    · rw [hnew]
      exact hstate
    · rw [hnew]
      exact levelOf_sub_one hlevel hl
  · rw [← Ptable.body_toSched, h.body, if_neg, Ptable.body_toSched]
    rintro ⟨h1 | h2 | h3, hd⟩
    · exact hno 1 (by decide) h1 hd
    · exact hno 2 (by decide) h2 hd
    · exact hno 3 (by decide) h3 hd
  · refine h.order P (fun q hq hd => ?_) l
    rcases hq with h1 | h2 | h3
    · exact hP 1 q (by decide) h1 hd.1 hd.2
    · exact hP 2 q (by decide) h2 hd.1 hd.2
    · exact hP 3 q (by decide) h3 hd.1 hd.2

/-- Processes 3 and 5 have waited on level 2, one behind the other. -/
def twoWaiting : Ptable where
  proc := fun p =>
    if p = 3 then { Proc.zero with state := .runnable, pid := 4, qLevel := 2, cpuWait := 300, next := some 5 }
    else if p = 5 then { Proc.zero with state := .runnable, pid := 6, qLevel := 2, cpuWait := 250, prev := some 3 }
    else Proc.zero
  queues := fun l => if l = 2 then ⟨some 3, some 5⟩ else ⟨none, none⟩

theorem twoWaiting_chained : Chained none twoWaiting (fun l => if l = 2 then [3, 5] else []) := by
  have hsplit : ∀ (l : Level) A (p : PIdx) B, (if l = 2 then [3, 5] else []) = A ++ p :: B →
      (A = [] ∧ p = 3 ∧ B = [5]) ∨ (A = [3] ∧ p = 5 ∧ B = []) := by
    intro l A p B heq
    split_ifs at heq
    · cases A with
      | nil => exact .inl (by simpa [eq_comm] using heq)
      | cons a A =>
        cases A with
        | nil => exact .inr (by simpa [eq_comm] using heq)
        | cons b A => simp at heq
    · simp at heq
  refine ⟨⟨⟨by decide, by decide, by decide, by decide, fun l A p B h => ?_, fun l A p B h => ?_⟩, by decide⟩, by decide⟩
  · rcases hsplit l A p B h with ⟨-, rfl, rfl⟩ | ⟨-, rfl, rfl⟩ <;> rfl
  · rcases hsplit l A p B h with ⟨rfl, rfl, -⟩ | ⟨rfl, rfl, -⟩ <;> rfl

theorem aging_pass_exact_two : ∃ t' qs', checkAging 7 twoWaiting = .ok t' ∧ Chained none t' qs' ∧
    (3 ∈ qs' 1 ∧ (t'.proc 3).cpuWait = 0) ∧ 5 ∈ qs' 1 ∧ (t'.proc 5).cpuWait = 0 := by
  obtain ⟨t', qs', hrun, hq', hdue, -⟩ := aging_pass_exact 7 twoWaiting _ twoWaiting_chained
  obtain ⟨hmem₃, hnew₃⟩ := hdue 2 3 (by decide) (by simp) (by decide) rfl
  obtain ⟨hmem₅, hnew₅⟩ := hdue 2 5 (by decide) (by simp) (by decide) rfl
  exact ⟨t', qs', hrun, hq', ⟨hmem₃, by rw [hnew₃]⟩, hmem₅, by rw [hnew₅]⟩

end Xv6Mlfq
