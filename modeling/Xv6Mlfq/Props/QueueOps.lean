import Xv6Mlfq.Sched.Table

/-!
# The queue operations on lists

`add_to_queue` and `remove_from_queue` against the four lists that the pointers spell out, from any table: the
processes on no list may have any links, except the one that is added, and nothing is said about states. The lists are
in the order of `Precedes`, and `add_to_queue` splits the list of its level at the new process.

`remove_from_queue` finds the list of a process through its `q_level`. A process on the list of another level is not
erased from it (`wrong_level_stays`).
-/

namespace Xv6Mlfq

open Lib

def Sorted (t : Ptable) (qs : Level → List PIdx) : Prop :=
  ∀ l, (qs l).Pairwise fun a b => Precedes (t.proc a).toSched (t.proc b).toSched

/-- `q` is at least `(io_wait_time, ticks)`, where `io_wait_time` is that of `p`. -/
def AtLeast (ticks : UInt32) (t : Ptable) (p q : PIdx) : Prop :=
  (t.proc p).ioWaitTime < (t.proc q).ioWaitTime ∨
    ((t.proc p).ioWaitTime = (t.proc q).ioWaitTime ∧ ticks ≤ (t.proc q).queueEntryTime)

instance (ticks : UInt32) (t : Ptable) (p : PIdx) : DecidablePred (AtLeast ticks t p) :=
  fun _ => inferInstanceAs (Decidable (_ ∨ _))

/-- The list with `p` behind the processes that are at least as high. -/
def insertIn (ticks : UInt32) (t : Ptable) (p : PIdx) (l : List PIdx) : List PIdx :=
  l.filter (fun q => AtLeast ticks t p q) ++ p :: l.filter (fun q => ¬ AtLeast ticks t p q)

section add

variable {t : Ptable} {qs : Level → List PIdx} {p q : PIdx} {ticks : UInt32} {level : Int32} {l : Level}

theorem higherIn_enter (hqp : q ≠ p) : higherIn (t.enter ticks p level) p q ↔ ¬ AtLeast ticks t p q := by
  have hother : (t.enter ticks p level).proc q = t.proc q := by simp [hqp]
  have hself : (t.enter ticks p level).proc p = enterQueue ticks level (t.proc p) := by simp
  unfold higherIn AtLeast
  rw [hother, hself]
  simp only [pIsHigher, enterQueue, Bool.or_eq_true, Bool.and_eq_true, beq_iff_eq]
  grind

theorem AtLeast.of_precedes {a b : PIdx} (hab : Precedes (t.proc a).toSched (t.proc b).toSched)
    (hb : AtLeast ticks t p b) : AtLeast ticks t p a := by
  unfold AtLeast Precedes at *
  grind

theorem orderedInsert_eq_insertIn (level : Int32) (hs : Sorted t qs) (hp : p ∉ qs l) :
    (qs l).orderedInsert (higherIn (t.enter ticks p level)) p = insertIn ticks t p (qs l) := by
  have hhigher : ∀ q ∈ qs l, higherIn (t.enter ticks p level) p q ↔ ¬ AtLeast ticks t p q :=
    fun q hq => higherIn_enter fun heq => hp (heq ▸ hq)
  rw [orderedInsert_eq_filter]
  · unfold insertIn
    congr 1
    · exact List.filter_congr fun q hq => by simp [hhigher q hq]
    · congr 1
      exact List.filter_congr fun q hq => by simp [hhigher q hq]
  · refine (hs l).imp_of_mem fun {a b} ha hb hab => ?_
    rw [hhigher a ha, hhigher b hb]
    exact fun hna hb => hna (hb.of_precedes hab)

theorem mem_insertIn : q ∈ insertIn ticks t p (qs l) ↔ q = p ∨ q ∈ qs l := by
  simp only [insertIn, List.mem_append, List.mem_cons, List.mem_filter, decide_eq_true_eq]
  tauto

/-- **add_to_queue** on lists. -/
theorem addToQueue_lists (hr : Spells t.heap qs) (hs : Sorted t qs) (hp : ∀ l, p ∉ qs l)
    (hfree : (t.proc p).next = none ∧ (t.proc p).prev = none) (ticks : UInt32) (hl : levelOf level = some l) :
    ∃ t', addToQueue ticks t p level = .ok t' ∧
      Spells t'.heap (Function.update qs l (insertIn ticks t p (qs l))) ∧
      Sorted t' (Function.update qs l (insertIn ticks t p (qs l))) ∧
      OffKept qs p t t' ∧ t'.body = (t.enter ticks p level).body := by
  obtain ⟨t', ht', hr', hoff, hbody⟩ := addToQueue_eq hr hp hfree ticks hl
  rw [orderedInsert_eq_insertIn level hs (hp l)] at hr'
  refine ⟨t', ht', hr', fun l' => ?_, hoff, hbody⟩
  have hother : ∀ l', ∀ q ∈ qs l', (t'.proc q).toSched = (t.proc q).toSched := by
    intro l' q hq
    have hqp : q ≠ p := fun heq => hp l' (heq ▸ hq)
    rw [toSched_eq_of_body hbody]
    simp [hqp]
  have hold : ∀ l', (qs l').Pairwise fun a b => Precedes (t'.proc a).toSched (t'.proc b).toSched := by
    intro l'
    refine (hs l').imp_of_mem fun {a b} ha hb hab => ?_
    rw [hother l' a ha, hother l' b hb]
    exact hab
  by_cases hl' : l' = l
  · subst hl'
    rw [Function.update_self, ← orderedInsert_eq_insertIn level hs (hp l')]
    refine pairwise_orderedInsert (fun _ _ _ => Precedes.trans) (hold l') (fun q _ hnot => ?_) fun q _ hhigher => ?_
    · rw [toSched_eq_of_body hbody, toSched_eq_of_body hbody]
      exact precedes_of_not_higher hnot
    · rw [toSched_eq_of_body hbody, toSched_eq_of_body hbody]
      exact precedes_of_higher hhigher
  · rw [Function.update_of_ne hl']
    exact hold l'

end add

section remove

variable {t : Ptable} {qs : Level → List PIdx} {q : PIdx} {l : Level}

/-- **remove_from_queue** on lists. -/
theorem removeFromQueue_lists (hr : Spells t.heap qs) (hq : q ∈ qs l) (hl : levelOf (t.proc q).qLevel = some l) :
    ∃ t', removeFromQueue t q = .ok t' ∧ Spells t'.heap (Function.update qs l ((qs l).erase q)) ∧
      (∀ p, (∀ l, p ∉ qs l) → t'.heap.next p = t.heap.next p ∧ t'.heap.prev p = t.heap.prev p) ∧
      (t'.heap.next q = none ∧ t'.heap.prev q = none) ∧ t'.body = t.body := by
  obtain ⟨t', ht', hheap, hbody⟩ := removeFromQueue_eq hr hq hl
  obtain ⟨A, B, hs⟩ := List.append_of_mem hq
  have hqA : q ∉ A := by
    have hnodup := hr.nodup l
    rw [hs] at hnodup
    intro hA
    have := List.disjoint_of_nodup_append hnodup hA
    simp at this
  refine ⟨t', ht', ?_, fun p hp => ?_, ?_, hbody⟩
  · rw [hheap, hs, List.erase_append_right _ hqA, List.erase_cons_head]
    exact hr.unlink hs
  · rw [hheap]
    exact hr.unlink_off hs hp
  · rw [hheap]
    simp [Heap.unlink]

end remove

/-- From any table whose pointers spell out four lists in order, and for a process `p` on none of them without links:

* `add_to_queue` puts `p` on the list of its level, behind the processes that are at least `(io_wait_time, ticks)`; the
  list stays in order, the others stay, and so do the fields of the other processes; `remove_from_queue(p)` then restores
  every head and tail and the links of every other process;
* `remove_from_queue` erases a process from the list of its level and from no other;
* `remove_from_queue(p)` changes nothing. -/
theorem queueOps_refine {t : Ptable} {qs : Level → List PIdx} {p : PIdx} (hr : Spells t.heap qs) (hs : Sorted t qs)
    (hp : ∀ l, p ∉ qs l) (hfree : (t.proc p).next = none ∧ (t.proc p).prev = none) :
    (∀ (ticks : UInt32) (level : Int32) (l : Level), levelOf level = some l →
      ∃ t', addToQueue ticks t p level = .ok t' ∧
        Spells t'.heap (Function.update qs l (insertIn ticks t p (qs l))) ∧
        Sorted t' (Function.update qs l (insertIn ticks t p (qs l))) ∧
        (t'.proc p).qLevel = level ∧ (∀ q, q ≠ p → t'.body q = t.body q) ∧
        ∃ t'', removeFromQueue t' p = .ok t'' ∧ t''.queues = t.queues ∧
          ∀ q, q ≠ p → (t''.proc q).next = (t.proc q).next ∧ (t''.proc q).prev = (t.proc q).prev) ∧
    (∀ (l : Level) (q : PIdx), q ∈ qs l → levelOf (t.proc q).qLevel = some l →
      ∃ t', removeFromQueue t q = .ok t' ∧ Spells t'.heap (Function.update qs l ((qs l).erase q)) ∧
        t'.body = t.body) ∧
    (levelOf (t.proc p).qLevel ≠ none → removeFromQueue t p = .ok t) := by
  refine ⟨fun ticks level l hl => ?_, fun l q hq hl => ?_, fun hl => ?_⟩
  · obtain ⟨t', ht', hr', hs', hoff, hbody⟩ := addToQueue_lists hr hs hp hfree ticks hl
    have hlevel : (t'.proc p).qLevel = level := by
      rw [toSched_eq_of_body hbody]
      simp [enterQueue]
    have hothers : ∀ q, q ≠ p → t'.body q = t.body q := by
      intro q hqp
      rw [hbody, body_modify, if_neg hqp]
    refine ⟨t', ht', hr', hs', hlevel, hothers, ?_⟩
    have hmem : p ∈ Function.update qs l (insertIn ticks t p (qs l)) l := by
      rw [Function.update_self]
      exact mem_insertIn.mpr (.inl rfl)
    obtain ⟨t'', ht'', hr'', hoff'', hnull, -⟩ := removeFromQueue_lists hr' hmem (by rw [hlevel]; exact hl)
    -- erased again, the lists are the lists of the beginning
    have hlists : Function.update (Function.update qs l (insertIn ticks t p (qs l))) l
        ((Function.update qs l (insertIn ticks t p (qs l)) l).erase p) = qs := by
      rw [Function.update_idem, Function.update_self, ← orderedInsert_eq_insertIn level hs (hp l),
        List.erase_orderedInsert_of_notMem (hp l), Function.update_eq_self]
    rw [hlists] at hr''
    have hheap : t''.heap = t.heap := by
      refine hr.ext hr'' fun q hq => ?_
      by_cases hqp : q = p
      · rw [hqp, hnull.1, hnull.2]
        exact ⟨hfree.1.symm, hfree.2.symm⟩
      · obtain ⟨hn, hv⟩ := hoff'' q fun l' => by
          by_cases hl' : l' = l
          · rw [hl', Function.update_self, mem_insertIn]
            exact fun h => h.elim hqp (hq l)
          · rw [Function.update_of_ne hl']
            exact hq l'
        rw [hn, hv]
        exact hoff q hq hqp
    refine ⟨t'', ht'', funext fun k => ProcList.ext ?_ ?_, fun q _ => ⟨?_, ?_⟩⟩
    · exact congrFun (congrArg Heap.head hheap) k
    · exact congrFun (congrArg Heap.tail hheap) k
    · exact congrFun (congrArg Heap.next hheap) q
    · exact congrFun (congrArg Heap.prev hheap) q
  · obtain ⟨t', ht', hr', -, -, hbody⟩ := removeFromQueue_lists hr hq hl
    exact ⟨t', ht', hr', hbody⟩
  · have hsat := removeFromQueue_free hr hp hfree
    cases hres : removeFromQueue t p with
    | ok t' => rw [hsat.of_ok hres]
    | error e => exact absurd (hsat.of_error hres).2 hl

/-- Process 1 alone on the list of level 0, with this `q_level`. -/
def oneOnZero (level : Int32) : Ptable where
  proc := fun p => if p = 1 then { Proc.zero with qLevel := level } else .zero
  queues := fun l => if l = 0 then ⟨some 1, some 1⟩ else ⟨none, none⟩

theorem oneOnZero_spells (level : Int32) : Spells (oneOnZero level).heap (Function.update (fun _ => []) 0 [1]) := by
  have hpush := (represents_nil (κ := Level) (ι := PIdx)).toSpells.pushBack (p := 1) (by simp) 0
  have hheap : (oneOnZero level).heap = Heap.pushBack ⟨fun _ => none, fun _ => none, fun _ => none, fun _ => none⟩ 0 1 := by
    refine Heap.ext (funext fun q => ?_) (funext fun q => ?_) (funext fun l => ?_) (funext fun l => ?_)
    · by_cases hq : q = 1 <;> simp [Ptable.heap, oneOnZero, Heap.pushBack, hq, Proc.zero]
    · by_cases hq : q = 1 <;> simp [Ptable.heap, oneOnZero, Heap.pushBack, hq, Proc.zero]
    · by_cases hl : l = 0 <;> simp [Ptable.heap, oneOnZero, Heap.pushBack, hl]
    · by_cases hl : l = 0 <;> simp [Ptable.heap, oneOnZero, Heap.pushBack, hl]
  rw [hheap]
  exact hpush

theorem oneOnZero_sorted (level : Int32) : Sorted (oneOnZero level) (Function.update (fun _ => []) 0 [1]) := by
  intro l
  by_cases hl : l = 0
  · rw [hl, Function.update_self]
    exact List.pairwise_singleton _ _
  · rw [Function.update_of_ne hl]
    exact List.Pairwise.nil

/-- Process 2 joins the list of process 1. -/
theorem queueOps_refine_two : ∃ t', addToQueue 7 (oneOnZero 0) 2 0 = .ok t' ∧
    Spells t'.heap (Function.update (Function.update (fun _ => []) 0 [1]) 0 (insertIn 7 (oneOnZero 0) 2 [1])) := by
  have hall := queueOps_refine (p := 2) (oneOnZero_spells 0) (oneOnZero_sorted 0)
    (fun l => by by_cases hl : l = 0 <;> simp [hl]) ⟨rfl, rfl⟩
  obtain ⟨t', ht', hr', -⟩ := hall.1 7 0 0 (by decide)
  exact ⟨t', ht', hr'⟩

/-- A process on the list of level 0 with `q_level` 1 stays on it. -/
theorem wrong_level_stays : Spells (oneOnZero 1).heap (Function.update (fun _ => []) 0 [1]) ∧
    Sorted (oneOnZero 1) (Function.update (fun _ => []) 0 [1]) ∧
    removeFromQueue (oneOnZero 1) 1 = .ok (oneOnZero 1) :=
  ⟨oneOnZero_spells 1, oneOnZero_sorted 1, rfl⟩

end Xv6Mlfq
