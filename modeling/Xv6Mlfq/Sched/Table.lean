import Xv6Mlfq.Kernel.Queue
import Xv6Mlfq.Lib.Chain
import Xv6Mlfq.Lib.Outcome

/-!
# The run queues as lists

The process table is seen through two projections: `heap`, the `next`, `prev`, `head` and `tail`
pointers, and `body`, a process without its links. `Queued out t qs` says that the pointers of `t`
spell out the four lists `qs`, that exactly the runnable processes are on them, each on the list of
its level, and that each list is ordered by `Precedes`. While an operation moves a process from one
place to another it is on no list whatever its state: that process is `out`.

`add_to_queue` and `remove_from_queue` have one specification each. They move a process in and out of
the lists; every other field of every process stays (`body`).
-/

namespace Xv6Mlfq

open Lib

def Ptable.heap (t : Ptable) : Heap Level PIdx where
  next p := (t.proc p).next
  prev p := (t.proc p).prev
  head l := (t.queues l).head
  tail l := (t.queues l).tail

def Proc.body (x : Proc) : Proc := { x with next := none, prev := none }

/-- The processes of the table without their links. -/
def Ptable.body (t : Ptable) (p : PIdx) : Proc := (t.proc p).body

@[simp] theorem Proc.body_toSched (x : Proc) : x.body.toSched = x.toSched := rfl

@[simp] theorem Ptable.body_toSched (t : Ptable) (p : PIdx) :
    (t.body p).toSched = (t.proc p).toSched := rfl

theorem toSched_eq_of_body {t t' : Ptable} (h : t'.body = t.body) (p : PIdx) :
    (t'.proc p).toSched = (t.proc p).toSched := by
  rw [← Ptable.body_toSched, h, Ptable.body_toSched]

/-- The order of a queue: the larger `io_wait_time` first, and among equals the larger
`queue_entry_time`. -/
def Precedes (x y : Sched) : Prop :=
  y.ioWaitTime < x.ioWaitTime ∨
    (y.ioWaitTime = x.ioWaitTime ∧ y.queueEntryTime ≤ x.queueEntryTime)

theorem Precedes.trans {x y z : Sched} (hxy : Precedes x y) (hyz : Precedes y z) :
    Precedes x z := by
  unfold Precedes at *
  grind

theorem precedes_of_higher {x y : Proc} (h : pIsHigher x y = true) :
    Precedes x.toSched y.toSched := by
  simp only [pIsHigher, Bool.or_eq_true, Bool.and_eq_true, decide_eq_true_eq, beq_iff_eq] at h
  unfold Precedes
  grind

theorem precedes_of_not_higher {x y : Proc} (h : ¬ pIsHigher x y = true) :
    Precedes y.toSched x.toSched := by
  simp only [pIsHigher, Bool.or_eq_true, Bool.and_eq_true, decide_eq_true_eq, beq_iff_eq] at h
  unfold Precedes
  grind

/-- The pointers of `t` spell out the lists `qs`; exactly the runnable processes are on them, except
for the process `out`, which is on none. -/
structure Queued (out : Option PIdx) (t : Ptable) (qs : Level → List PIdx) : Prop where
  repr : Represents t.heap qs
  mem : ∀ l p, p ∈ qs l ↔
    some p ≠ out ∧ (t.proc p).state = .runnable ∧ levelOf (t.proc p).qLevel = some l
  level : ∀ p, some p ≠ out → (t.proc p).state = .runnable → (levelOf (t.proc p).qLevel).isSome
  sorted : ∀ l, (qs l).Pairwise fun p q => Precedes (t.proc p).toSched (t.proc q).toSched

/-- The part of `Queued` that the pointers and the states decide. -/
structure Chained (out : Option PIdx) (t : Ptable) (qs : Level → List PIdx) : Prop where
  repr : Represents t.heap qs
  mem : ∀ l p, p ∈ qs l ↔
    some p ≠ out ∧ (t.proc p).state = .runnable ∧ levelOf (t.proc p).qLevel = some l

/-- The other part of `Queued`: levels in range, lists in order. -/
structure Ordered (out : Option PIdx) (t : Ptable) (qs : Level → List PIdx) : Prop where
  level : ∀ p, some p ≠ out → (t.proc p).state = .runnable → (levelOf (t.proc p).qLevel).isSome
  sorted : ∀ l, (qs l).Pairwise fun p q => Precedes (t.proc p).toSched (t.proc q).toSched

namespace Chained

variable {out : Option PIdx} {t : Ptable} {qs : Level → List PIdx} {p : PIdx}

theorem queued (hc : Chained out t qs) (ho : Ordered out t qs) : Queued out t qs :=
  ⟨hc.repr, hc.mem, ho.level, ho.sorted⟩

theorem not_mem_out (hq : Chained (some p) t qs) (l : Level) : p ∉ qs l := by
  intro hp
  exact ((hq.mem l p).mp hp).1 rfl

theorem length_le (hq : Chained out t qs) (l : Level) : (qs l).length ≤ NPROC := by
  have := (hq.repr.nodup l).length_le_card
  simpa using this

end Chained

namespace Queued

variable {out : Option PIdx} {t t' : Ptable} {qs : Level → List PIdx} {p : PIdx}

theorem chained (hq : Queued out t qs) : Chained out t qs := ⟨hq.repr, hq.mem⟩

theorem ordered (hq : Queued out t qs) : Ordered out t qs := ⟨hq.level, hq.sorted⟩

/-- A change that keeps the pointers, who is runnable, and the level and the keys of the runnable
processes. -/
theorem congr (hq : Queued out t qs) (hheap : t'.heap = t.heap)
    (hstate : ∀ p, some p ≠ out → ((t'.proc p).state = .runnable ↔ (t.proc p).state = .runnable))
    (hkeep : ∀ p, some p ≠ out → (t.proc p).state = .runnable →
      (t'.proc p).qLevel = (t.proc p).qLevel ∧ (t'.proc p).ioWaitTime = (t.proc p).ioWaitTime ∧
        (t'.proc p).queueEntryTime = (t.proc p).queueEntryTime) :
    Queued out t' qs := by
  refine ⟨hheap ▸ hq.repr, ?_, ?_, ?_⟩
  · intro l p
    rw [hq.mem]
    constructor
    · intro ⟨ho, hs, hl⟩
      exact ⟨ho, (hstate p ho).mpr hs, by rw [(hkeep p ho hs).1]; exact hl⟩
    · intro ⟨ho, hs, hl⟩
      have hs' := (hstate p ho).mp hs
      exact ⟨ho, hs', by rw [← (hkeep p ho hs').1]; exact hl⟩
  · intro p ho hs
    have hs' := (hstate p ho).mp hs
    rw [(hkeep p ho hs').1]
    exact hq.level p ho hs'
  · intro l
    refine (hq.sorted l).imp_of_mem fun {a b} ha hb hab => ?_
    obtain ⟨hao, has, _⟩ := (hq.mem l a).mp ha
    obtain ⟨hbo, hbs, _⟩ := (hq.mem l b).mp hb
    unfold Precedes at hab ⊢
    rw [(hkeep a hao has).2.1, (hkeep a hao has).2.2, (hkeep b hbo hbs).2.1, (hkeep b hbo hbs).2.2]
    exact hab

theorem hold (hq : Queued none t qs) (hp : (t.proc p).state ≠ .runnable) : Queued (some p) t qs := by
  refine ⟨hq.repr, ?_, fun q _ => hq.level q (by simp), hq.sorted⟩
  intro l q
  rw [hq.mem]
  constructor
  · intro ⟨_, hs, hl⟩
    exact ⟨fun heq => hp (Option.some.inj heq ▸ hs), hs, hl⟩
  · intro ⟨_, hs, hl⟩
    exact ⟨by simp, hs, hl⟩

theorem release (hq : Queued (some p) t qs) (hp : (t.proc p).state ≠ .runnable) :
    Queued none t qs := by
  refine ⟨hq.repr, ?_, ?_, hq.sorted⟩
  · intro l q
    rw [hq.mem]
    constructor
    · intro ⟨_, hs, hl⟩
      exact ⟨by simp, hs, hl⟩
    · intro ⟨_, hs, hl⟩
      exact ⟨fun heq => hp (Option.some.inj heq ▸ hs), hs, hl⟩
  · intro q _ hs
    exact hq.level q (fun heq => hp (Option.some.inj heq ▸ hs)) hs

end Queued

/-! ## Pointers and bodies after a write -/

section writes

variable {t : Ptable} {p : PIdx} {f : Proc → Proc}

theorem heap_modify (hnext : (f (t.proc p)).next = (t.proc p).next)
    (hprev : (f (t.proc p)).prev = (t.proc p).prev) : (t.modify p f).heap = t.heap := by
  refine Heap.ext (funext fun q => ?_) (funext fun q => ?_) rfl rfl
  · by_cases hqp : q = p
    · subst hqp
      simpa [Ptable.heap] using hnext
    · simp [Ptable.heap, hqp]
  · by_cases hqp : q = p
    · subst hqp
      simpa [Ptable.heap] using hprev
    · simp [Ptable.heap, hqp]

theorem body_modify (q : PIdx) :
    (t.modify p f).body q = if q = p then (f (t.proc p)).body else t.body q := by
  by_cases hqp : q = p
  · subst hqp
    simp [Ptable.body]
  · simp [Ptable.body, hqp]

section out

variable {qs : Level → List PIdx}

theorem Chained.modify_out (hq : Chained (some p) t qs) (hnext : (f (t.proc p)).next = (t.proc p).next)
    (hprev : (f (t.proc p)).prev = (t.proc p).prev) : Chained (some p) (t.modify p f) qs := by
  refine ⟨heap_modify hnext hprev ▸ hq.repr, fun l q => ?_⟩
  rw [hq.mem]
  by_cases hqp : q = p
  · simp [hqp]
  · simp [hqp]

theorem Ordered.modify_out (ho : Ordered (some p) t qs) (hq : Chained (some p) t qs) :
    Ordered (some p) (t.modify p f) qs := by
  have hother : ∀ q, q ≠ p → (t.modify p f).proc q = t.proc q := by
    intro q hqp
    simp [hqp]
  refine ⟨fun q hqp hs => ?_, fun l => (ho.sorted l).imp_of_mem fun {a b} ha hb hab => ?_⟩
  · rw [hother q (by simpa using hqp)] at hs ⊢
    exact ho.level q hqp hs
  · rw [hother a fun h => hq.not_mem_out l (h ▸ ha), hother b fun h => hq.not_mem_out l (h ▸ hb)]
    exact hab

theorem Queued.modify_out (hq : Queued (some p) t qs) (hnext : (f (t.proc p)).next = (t.proc p).next)
    (hprev : (f (t.proc p)).prev = (t.proc p).prev) : Queued (some p) (t.modify p f) qs :=
  (hq.chained.modify_out hnext hprev).queued (hq.ordered.modify_out hq.chained)

end out

end writes

/-! ## add_to_queue -/

theorem heap_insertBefore (t : Ptable) (p : PIdx) (l : Level) (c : PIdx) :
    (insertBefore t p l c).heap = t.heap.insertBefore l p c := by
  unfold insertBefore Ptable.heap Heap.insertBefore Ptable.setHead Ptable.modify
  cases hc : (t.proc c).prev with
  | none =>
    apply Heap.ext
    all_goals funext q; grind [Function.update_apply]
  | some a =>
    apply Heap.ext
    all_goals funext q; grind [Function.update_apply]

theorem body_insertBefore (t : Ptable) (p : PIdx) (l : Level) (c : PIdx) :
    (insertBefore t p l c).body = t.body := by
  unfold insertBefore Ptable.body Proc.body Ptable.setHead Ptable.modify
  funext q
  cases hc : (t.proc c).prev with
  | none => grind [Function.update_apply]
  | some a => grind [Function.update_apply]

theorem insertTail_eq {t : Ptable} {p a : PIdx} {l : Level} (hp : (t.proc p).next = none)
    (ha : (t.queues l).tail = some a) (hap : a ≠ p) :
    ∃ t', insertTail t p l = .ok t' ∧ t'.heap = t.heap.pushBack l p ∧ t'.body = t.body := by
  unfold insertTail
  rw [ha]
  refine ⟨_, rfl, ?_, ?_⟩
  · unfold Ptable.heap Heap.pushBack Ptable.setTail Ptable.modify
    apply Heap.ext
    all_goals funext q; grind [Function.update_apply]
  · unfold Ptable.body Proc.body Ptable.setTail Ptable.modify
    funext q
    grind [Function.update_apply]

/-- The order in which `add_to_queue` compares: `a` is inserted before `b`. -/
def higherIn (t : Ptable) (a b : PIdx) : Prop := pIsHigher (t.proc a) (t.proc b) = true

instance (t : Ptable) : DecidableRel (higherIn t) := fun _ _ => inferInstanceAs (Decidable (_ = _))

/-- The processes on no list keep their links, `p` apart. -/
def OffKept (qs : Level → List PIdx) (p : PIdx) (t t' : Ptable) : Prop :=
  ∀ q, (∀ l, q ∉ qs l) → q ≠ p → t'.heap.next q = t.heap.next q ∧ t'.heap.prev q = t.heap.prev q

theorem addToQueueLoop_eq {t : Ptable} {qs : Level → List PIdx} {p : PIdx} {l : Level}
    (hr : Spells t.heap qs) (hp : ∀ l, p ∉ qs l) (hnext : (t.proc p).next = none) (hne : qs l ≠ []) (fuel : Nat)
    (A B : List PIdx) (hl : qs l = A ++ B) (hfuel : B.length ≤ fuel)
    (hA : ∀ a ∈ A, ¬ higherIn t p a) :
    ∃ t', addToQueueLoop p l fuel B.head? t = .ok t' ∧
      Spells t'.heap (Function.update qs l ((qs l).orderedInsert (higherIn t) p)) ∧
      OffKept qs p t t' ∧ t'.body = t.body := by
  induction B generalizing A fuel with
  | nil =>
    rw [List.append_nil] at hl
    obtain ⟨a, ha⟩ : ∃ a, (t.queues l).tail = some a := by
      have htail := hr.tail l
      rw [List.getLast?_eq_some_getLast hne] at htail
      exact ⟨_, htail⟩
    have hap : a ≠ p := by
      have hmem : a ∈ qs l := List.mem_of_getLast? ((hr.tail l).symm.trans ha)
      exact fun heq => hp l (heq ▸ hmem)
    obtain ⟨t', ht', hheap, hbody⟩ := insertTail_eq hnext ha hap
    refine ⟨t', by cases fuel <;> exact ht', ?_, fun q hq hqp => ?_, hbody⟩
    · have hins := orderedInsert_append (r := higherIn t) [] hA
      rw [List.append_nil, List.orderedInsert_nil, ← hl] at hins
      rw [hheap, hins]
      exact hr.pushBack hp l
    · rw [hheap]
      exact hr.pushBack_off hq hqp l
  | cons c B ih =>
    obtain ⟨fuel, rfl⟩ : ∃ m, fuel = m + 1 := by
      rw [List.length_cons] at hfuel
      exact ⟨fuel - 1, by omega⟩
    rw [List.head?_cons, addToQueueLoop]
    split_ifs with hc
    · refine ⟨_, rfl, ?_, fun q hq hqp => ?_, body_insertBefore t p l c⟩
      · have hins : (c :: B).orderedInsert (higherIn t) p = p :: c :: B :=
          List.orderedInsert_cons_of_le _ _ hc
        rw [heap_insertBefore, hl, orderedInsert_append _ hA, hins]
        exact hr.insertBefore hp hl
      · rw [heap_insertBefore]
        exact hr.insertBefore_off hl hq hqp
    · have hnext : (t.proc c).next = B.head? := hr.next l A c B hl
      rw [hnext]
      refine ih fuel (A ++ [c]) (by simp [hl]) (by simp at hfuel; omega) ?_
      intro a ha
      rcases List.mem_append.mp ha with ha | ha
      · exact hA a ha
      · rw [List.mem_singleton.mp ha]
        exact hc

/-- `p` as `add_to_queue` leaves it, links aside. -/
def enterQueue (ticks : UInt32) (level : Int32) (x : Proc) : Proc :=
  { x with qLevel := level, queueEntryTime := ticks, next := none, prev := none }

/-- The table on which the loop of `add_to_queue` compares. -/
abbrev Ptable.enter (t : Ptable) (ticks : UInt32) (p : PIdx) (level : Int32) : Ptable :=
  t.modify p (enterQueue ticks level)

theorem addToQueue_nil {t : Ptable} {p : PIdx} {level : Int32} {l : Level} (ticks : UInt32)
    (hl : levelOf level = some l) (hhead : ((t.enter ticks p level).queues l).head = none) :
    addToQueue ticks t p level =
      .ok (((t.enter ticks p level).setHead l (some p)).setTail l (some p)) := by
  unfold addToQueue
  rw [hl]
  have hnil : (t.queues l).head = none := hhead
  simp only [Ptable.modify_queues, hnil]
  rfl

theorem addToQueue_cons {t : Ptable} {p c : PIdx} {level : Int32} {l : Level} (ticks : UInt32)
    (hl : levelOf level = some l) (hhead : ((t.enter ticks p level).queues l).head = some c) :
    addToQueue ticks t p level = addToQueueLoop p l NPROC (some c) (t.enter ticks p level) := by
  unfold addToQueue
  rw [hl]
  have hcons : (t.queues l).head = some c := hhead
  simp only [Ptable.modify_queues, hcons]
  rfl

/-- The lists after `add_to_queue` of a process that is on none of them, up to the order. -/
theorem addToQueue_eq {t : Ptable} {qs : Level → List PIdx} {p : PIdx} {level : Int32} {l : Level}
    (hr : Spells t.heap qs) (hp : ∀ l, p ∉ qs l) (hfree : (t.proc p).next = none ∧ (t.proc p).prev = none)
    (ticks : UInt32) (hl : levelOf level = some l) :
    ∃ t', addToQueue ticks t p level = .ok t' ∧
      Spells t'.heap (Function.update qs l
        ((qs l).orderedInsert (higherIn (t.enter ticks p level)) p)) ∧
      OffKept qs p t t' ∧ t'.body = (t.enter ticks p level).body := by
  have hheap : (t.enter ticks p level).heap = t.heap := heap_modify hfree.1.symm hfree.2.symm
  have hr₁ : Spells (t.enter ticks p level).heap qs := hheap ▸ hr
  have hnext : ((t.enter ticks p level).proc p).next = none := by simp [enterQueue]
  have hprev : ((t.enter ticks p level).proc p).prev = none := by simp [enterQueue]
  have hhead : ((t.enter ticks p level).queues l).head = (qs l).head? := hr₁.head l
  cases hqs : qs l with
  | nil =>
    have htail : ((t.enter ticks p level).queues l).tail = none := by
      have := hr₁.tail l
      rwa [hqs] at this
    have hpushed : (((t.enter ticks p level).setHead l (some p)).setTail l (some p)).heap =
        (t.enter ticks p level).heap.pushBack l p := by
      generalize t.enter ticks p level = t₁ at *
      unfold Ptable.heap Heap.pushBack Ptable.setHead Ptable.setTail
      apply Heap.ext
      all_goals funext q; grind [Function.update_apply]
    refine ⟨_, addToQueue_nil ticks hl (by rw [hhead, hqs]; rfl), ?_, fun q hq hqp => ?_, rfl⟩
    · have hpush := hr₁.pushBack hp l
      rw [hqs, List.nil_append] at hpush
      rw [List.orderedInsert_nil, hpushed]
      exact hpush
    · rw [hpushed, ← hheap]
      exact hr₁.pushBack_off hq hqp l
  | cons h B =>
    -- fewer than the whole table is on the list, so the loop ends
    have hlen : (qs l).length ≤ NPROC := by
      have := (hr.nodup l).length_le_card
      simpa using this
    obtain ⟨t', ht', hrepr, hoff, hbody⟩ := addToQueueLoop_eq hr₁ hp hnext (l := l) (by simp [hqs]) NPROC []
      (qs l) rfl hlen (by simp)
    rw [hqs] at ht' hrepr
    rw [addToQueue_cons ticks hl (by rw [hhead, hqs]; rfl)]
    refine ⟨t', ht', hrepr, fun q hq hqp => ?_, hbody⟩
    rw [← hheap]
    exact hoff q hq hqp

/-- `add_to_queue` of a process that is out of the queues, whatever the order of the lists. -/
theorem addToQueue_chained {t : Ptable} {qs : Level → List PIdx} {p : PIdx} (level : Int32)
    (ticks : UInt32) (hq : Chained (some p) t qs) (hp : (t.proc p).state = .runnable) :
    Sat (addToQueue ticks t p level)
      (fun t' => (∃ l, levelOf level = some l ∧
          Chained none t' (Function.update qs l
            ((qs l).orderedInsert (higherIn (t.enter ticks p level)) p)) ∧
          (Ordered (some p) t qs → Ordered none t' (Function.update qs l
            ((qs l).orderedInsert (higherIn (t.enter ticks p level)) p)))) ∧
        t'.body = (t.enter ticks p level).body)
      (fun e => e = .panic "invalid queue level" ∧ levelOf level = none) := by
  cases hl : levelOf level with
  | none => simp [addToQueue, hl]
  | some l =>
    obtain ⟨t', ht', hspells, hoff, hbody⟩ :=
      addToQueue_eq hq.repr.toSpells hq.not_mem_out (hq.repr.free p hq.not_mem_out) ticks hl
    have hrepr := hq.repr.of_spells hspells
      (fun q hL hno => hoff q hno fun heq => hL (heq ▸ (List.mem_orderedInsert _).mpr (.inl rfl)))
      fun q hL hqs => absurd ((List.mem_orderedInsert _).mpr (.inr hqs)) hL
    rw [ht']
    have hself : (t'.proc p).toSched = (enterQueue ticks level (t.proc p)).toSched := by
      rw [toSched_eq_of_body hbody]
      simp
    have hother : ∀ q, q ≠ p → (t'.proc q).toSched = (t.proc q).toSched := by
      intro q hqp
      rw [toSched_eq_of_body hbody]
      simp [hqp]
    refine ⟨⟨l, rfl, ⟨hrepr, ?_⟩, fun ho => ⟨?_, ?_⟩⟩, hbody⟩
    · intro l' q
      by_cases hqp : q = p
      · subst hqp
        rw [hself]
        by_cases hl' : l' = l
        · subst hl'
          simp [enterQueue, hp, hl, List.mem_orderedInsert]
        · simp [enterQueue, hl, Ne.symm hl', Function.update_of_ne hl', hq.not_mem_out l']
      · have hmem : q ∈ Function.update qs l
            ((qs l).orderedInsert (higherIn (t.enter ticks p level)) p) l' ↔ q ∈ qs l' := by
          by_cases hl' : l' = l
          · subst hl'
            simp [List.mem_orderedInsert, hqp]
          · rw [Function.update_of_ne hl']
        rw [hmem, hq.mem, hother q hqp]
        simp [hqp]
    · intro q _ hs
      by_cases hqp : q = p
      · rw [hqp, hself]
        simp [enterQueue, hl]
      · rw [hother q hqp] at hs ⊢
        exact ho.level q (by simpa using hqp) hs
    · intro l'
      have hsorted : ∀ l, (qs l).Pairwise fun a b =>
          Precedes (t'.proc a).toSched (t'.proc b).toSched := by
        intro l
        refine (ho.sorted l).imp_of_mem fun {a b} ha hb hab => ?_
        rw [hother a fun h => hq.not_mem_out l (h ▸ ha), hother b fun h => hq.not_mem_out l (h ▸ hb)]
        exact hab
      by_cases hl' : l' = l
      · subst hl'
        rw [Function.update_self]
        refine pairwise_orderedInsert (fun _ _ _ => Precedes.trans) (hsorted l') ?_ ?_
        · intro q _ hnot
          rw [toSched_eq_of_body hbody, toSched_eq_of_body hbody]
          exact precedes_of_not_higher hnot
        · intro q _ hhigher
          rw [toSched_eq_of_body hbody, toSched_eq_of_body hbody]
          exact precedes_of_higher hhigher
      · rw [Function.update_of_ne hl']
        exact hsorted l'

/-- **add_to_queue** puts a runnable process that is out of the queues on the list of its level, before
the first process it is higher than; it panics exactly when the level is out of range. -/
theorem addToQueue_spec {t : Ptable} {qs : Level → List PIdx} {p : PIdx} (level : Int32)
    (ticks : UInt32) (hq : Queued (some p) t qs) (hp : (t.proc p).state = .runnable) :
    Sat (addToQueue ticks t p level)
      (fun t' => (∃ l, levelOf level = some l ∧ Queued none t' (Function.update qs l
          ((qs l).orderedInsert (higherIn (t.enter ticks p level)) p))) ∧
        t'.body = (t.enter ticks p level).body)
      (fun e => e = .panic "invalid queue level" ∧ levelOf level = none) := by
  refine (addToQueue_chained level ticks hq.chained hp).imp ?_
  intro t' ⟨⟨l, hl, hc, ho⟩, hbody⟩
  exact ⟨⟨l, hl, hc.queued (ho hq.ordered)⟩, hbody⟩

/-! ## remove_from_queue -/

/-- **remove_from_queue** of a process on no queue changes nothing; it indexes `queues` out of range
exactly when the level is. -/
theorem removeFromQueue_free {t : Ptable} {qs : Level → List PIdx} {p : PIdx}
    (hr : Spells t.heap qs) (hp : ∀ l, p ∉ qs l) (hfree : (t.proc p).next = none ∧ (t.proc p).prev = none) :
    Sat (removeFromQueue t p) (fun t' => t' = t)
      (fun e => e = .outOfRange .queues ∧ levelOf (t.proc p).qLevel = none) := by
  unfold removeFromQueue
  cases hl : levelOf (t.proc p).qLevel with
  | none =>
    rw [index_none hl]
    exact ⟨rfl, rfl⟩
  | some l =>
    rw [index_some hl]
    have hhead : (t.queues l).head ≠ some p := by
      intro hhead
      exact hp l (List.mem_of_head? ((hr.head l).symm.trans hhead))
    show Sat (if (t.proc p).prev = none ∧ (t.proc p).next = none ∧ (t.queues l).head ≠ some p then
      pure t else pure (unlinkProc t p l)) _ _
    rw [if_pos ⟨hfree.2, hfree.1, hhead⟩]
    exact rfl

/-- The pointers after **remove_from_queue** of a process on the list `l`. -/
theorem removeFromQueue_eq {t : Ptable} {qs : Level → List PIdx} {p : PIdx} {l : Level}
    (hr : Spells t.heap qs) (hp : p ∈ qs l) (hl : levelOf (t.proc p).qLevel = some l) :
    ∃ t', removeFromQueue t p = .ok t' ∧ t'.heap = t.heap.unlink l p ∧ t'.body = t.body := by
  obtain ⟨A, B, hs⟩ := List.append_of_mem hp
  have hnext : (t.proc p).next = B.head? := hr.next l A p B hs
  have hprev : (t.proc p).prev = A.getLast? := hr.prev l A p B hs
  have hlinked : ¬ ((t.proc p).prev = none ∧ (t.proc p).next = none ∧ (t.queues l).head ≠ some p) := by
    intro ⟨hprev', _, hhead⟩
    have hA : A = [] := List.getLast?_eq_none_iff.mp (hprev.symm.trans hprev')
    apply hhead
    show t.heap.head l = some p
    rw [hr.head, hs, hA]
    rfl
  have hself : (t.proc p).prev ≠ some p ∧ (t.proc p).next ≠ some p := by
    have hnodup := hr.nodup l
    rw [hs] at hnodup
    constructor
    · intro hc
      have := List.mem_of_getLast? (hprev.symm.trans hc)
      grind
    · intro hc
      have := List.mem_of_head? (hnext.symm.trans hc)
      grind
  refine ⟨unlinkProc t p l, ?_, ?_, ?_⟩
  · unfold removeFromQueue
    rw [index_some hl]
    exact if_neg hlinked
  · unfold Ptable.heap Heap.unlink
    cases ha : (t.proc p).prev <;> cases hb : (t.proc p).next <;>
      simp only [unlinkProc, ha, hb, Ptable.setHead, Ptable.setTail, Ptable.modify] <;>
      (apply Heap.ext; all_goals funext q; grind [Function.update_apply])
  · unfold Ptable.body Proc.body
    funext q
    cases ha : (t.proc p).prev <;> cases hb : (t.proc p).next <;>
      simp only [unlinkProc, ha, hb, Ptable.setHead, Ptable.setTail, Ptable.modify] <;>
      grind [Function.update_apply]

/-- `remove_from_queue` of a process on a list, whatever the order of the lists. -/
theorem removeFromQueue_chained {t : Ptable} {qs : Level → List PIdx} {p : PIdx} {l : Level}
    (hq : Chained none t qs) (hp : p ∈ qs l) :
    ∃ t', removeFromQueue t p = .ok t' ∧
      Chained (some p) t' (Function.update qs l ((qs l).erase p)) ∧
      (Ordered none t qs → Ordered (some p) t' (Function.update qs l ((qs l).erase p))) ∧
      t'.body = t.body := by
  obtain ⟨_, hstate, hl⟩ := (hq.mem l p).mp hp
  obtain ⟨t', ht', hheap, hbody⟩ := removeFromQueue_eq hq.repr.toSpells hp hl
  refine ⟨t', ht', ⟨?_, ?_⟩, fun ho => ⟨?_, ?_⟩, hbody⟩
  · obtain ⟨A, B, hs⟩ := List.append_of_mem hp
    have hpA : p ∉ A := by
      have hnodup := hq.repr.nodup l
      rw [hs] at hnodup
      grind
    rw [hheap, hs, List.erase_append_right _ hpA, List.erase_cons_head]
    exact hq.repr.unlink hs
  · intro l' q
    rw [toSched_eq_of_body hbody]
    by_cases hl' : l' = l
    · subst hl'
      rw [Function.update_self, (hq.repr.nodup l').mem_erase_iff, hq.mem]
      simp
    · rw [Function.update_of_ne hl', hq.mem]
      constructor
      · intro ⟨_, hs, hlq⟩
        refine ⟨fun heq => hl' ?_, hs, hlq⟩
        rw [Option.some.inj heq, hl] at hlq
        exact (Option.some.inj hlq).symm
      · intro ⟨_, hs, hlq⟩
        exact ⟨by simp, hs, hlq⟩
  · intro q _ hs
    rw [toSched_eq_of_body hbody] at hs ⊢
    exact ho.level q (by simp) hs
  · intro l'
    have hsub : (Function.update qs l ((qs l).erase p) l').Sublist (qs l') := by
      by_cases hl' : l' = l
      · subst hl'
        rw [Function.update_self]
        exact List.erase_sublist
      · rw [Function.update_of_ne hl']
    refine ((ho.sorted l').sublist hsub).imp fun {a b} hab => ?_
    rw [toSched_eq_of_body hbody, toSched_eq_of_body hbody]
    exact hab

/-- **remove_from_queue** of a runnable process erases it from the list of its level. -/
theorem removeFromQueue_spec {t : Ptable} {qs : Level → List PIdx} {p : PIdx} {l : Level}
    (hq : Queued none t qs) (hp : p ∈ qs l) :
    ∃ t', removeFromQueue t p = .ok t' ∧
      Queued (some p) t' (Function.update qs l ((qs l).erase p)) ∧ t'.body = t.body := by
  obtain ⟨t', ht', hc, ho, hbody⟩ := removeFromQueue_chained hq.chained hp
  exact ⟨t', ht', hc.queued (ho hq.ordered), hbody⟩

end Xv6Mlfq
