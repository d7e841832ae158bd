import Mathlib

/-!
# Intrusive doubly linked lists

A family of doubly linked lists, indexed by `κ`, threaded through one set of nodes `ι`: every node has
a `next` and a `prev` pointer of its own, every list a `head` and a `tail` pointer (`Heap`). `Spells h ls`
says that the pointers spell out the lists `ls`: the lists are duplicate-free and disjoint, and each node's
pointers are its neighbours in its list. `Represents h ls` says that, besides, a node on no list has null pointers.

The pointer operations are insertion before a node (`insertBefore`), at the end (`pushBack`) and at the front
(`pushFront`), and removal (`unlink`). Each changes one list and has one rule, `Spells.insertBefore`,
`Spells.pushBack`, `Spells.pushFront`, `Spells.unlink`; the last two also have one for `Represents`. A node on no
list keeps its pointers (`insertBefore_off`, …). A circular list with a head node is the same thing, with a pointer
to the head node for null.
-/

namespace Xv6Mlfq.Lib

variable {κ ι : Type*}

/-- Two splits of one list: the second node lies before the first, at it, or after it. -/
theorem split_cases {A B A' B' : List ι} {p q : ι} (h : A ++ p :: B = A' ++ q :: B') :
    (∃ C, A = A' ++ q :: C ∧ B' = C ++ p :: B) ∨ (A = A' ∧ p = q ∧ B = B') ∨
      ∃ C, A' = A ++ p :: C ∧ B = C ++ q :: B' := by
  rcases List.append_eq_append_iff.mp h with ⟨C, hA, hB⟩ | ⟨C, hA, hB⟩
  · cases C with
    | nil =>
      simp only [List.append_nil, List.nil_append, List.cons.injEq] at hA hB
      exact Or.inr (Or.inl ⟨hA.symm, hB.1, hB.2⟩)
    | cons c C =>
      simp only [List.cons_append, List.cons.injEq] at hB
      obtain ⟨rfl, hB⟩ := hB
      exact Or.inr (Or.inr ⟨C, hA, hB⟩)
  · cases C with
    | nil =>
      simp only [List.append_nil, List.nil_append, List.cons.injEq] at hA hB
      exact Or.inr (Or.inl ⟨hA, hB.1.symm, hB.2.symm⟩)
    | cons c C =>
      simp only [List.cons_append, List.cons.injEq] at hB
      obtain ⟨rfl, hB⟩ := hB
      exact Or.inl ⟨C, hA, hB⟩

theorem orderedInsert_append {r : ι → ι → Prop} [DecidableRel r] {p : ι} {A : List ι} (B : List ι)
    (hA : ∀ a ∈ A, ¬ r p a) : (A ++ B).orderedInsert r p = A ++ B.orderedInsert r p := by
  induction A with
  | nil => rfl
  | cons a A ih =>
    rw [List.cons_append, List.orderedInsert_of_not_le _ _ (hA a (by simp)),
      ih fun b hb => hA b (by simp [hb])]
    rfl

theorem orderedInsert_eq_filter {r : ι → ι → Prop} [DecidableRel r] {p : ι} {l : List ι}
    (hl : l.Pairwise fun a b => r p a → r p b) :
    l.orderedInsert r p = l.filter (fun q => ¬ r p q) ++ p :: l.filter (fun q => r p q) := by
  induction l with
  | nil => rfl
  | cons q l ih =>
    obtain ⟨hq, hl⟩ := List.pairwise_cons.mp hl
    rw [List.orderedInsert_cons]
    by_cases hpq : r p q
    · have hall : ∀ x ∈ l, r p x := fun x hx => hq x hx hpq
      have hnone : l.filter (fun q => ¬ r p q) = [] := List.filter_eq_nil_iff.mpr fun x hx => by simp [hall x hx]
      have hsome : l.filter (fun q => r p q) = l := List.filter_eq_self.mpr fun x hx => by simp [hall x hx]
      rw [if_pos hpq, List.filter_cons_of_neg (by simpa using hpq), List.filter_cons_of_pos (by simpa using hpq), hnone,
        hsome]
      rfl
    · rw [if_neg hpq, ih hl, List.filter_cons_of_pos (by simpa using hpq), List.filter_cons_of_neg (by simpa using hpq)]
      rfl

theorem filter_orderedInsert {r : ι → ι → Prop} [DecidableRel r] {p : ι} {P : ι → Bool}
    (hp : P p = false) (l : List ι) : (l.orderedInsert r p).filter P = l.filter P := by
  induction l with
  | nil => simp [hp]
  | cons q l ih =>
    rw [List.orderedInsert_cons]
    split_ifs
    · simp [hp]
    · simp only [List.filter_cons, ih]

theorem filter_erase [DecidableEq ι] {p : ι} {P : ι → Bool} (hp : P p = false)
    (l : List ι) : (l.erase p).filter P = l.filter P := by
  induction l with
  | nil => rfl
  | cons q l ih =>
    by_cases hqp : q = p
    · subst hqp
      simp [hp]
    · rw [List.erase_cons_tail (by simpa using hqp)]
      simp only [List.filter_cons, ih]

/-- Inserting before the first node that `p` is to precede keeps any transitive order that `p` has
with the nodes it passes (`R q p`) and with the nodes it precedes (`R p q`). -/
theorem pairwise_orderedInsert {r R : ι → ι → Prop} [DecidableRel r] {p : ι} {l : List ι}
    (htrans : ∀ a b c, R a b → R b c → R a c) (hl : l.Pairwise R)
    (hpass : ∀ q ∈ l, ¬ r p q → R q p) (hprecede : ∀ q ∈ l, r p q → R p q) :
    (l.orderedInsert r p).Pairwise R := by
  induction l with
  | nil => simp
  | cons q l ih =>
    obtain ⟨hq, hl⟩ := List.pairwise_cons.mp hl
    rw [List.orderedInsert_cons]
    split_ifs with hpq
    · have hRpq : R p q := hprecede q (by simp) hpq
      refine List.pairwise_cons.mpr ⟨?_, List.pairwise_cons.mpr ⟨hq, hl⟩⟩
      intro x hx
      rcases List.mem_cons.mp hx with rfl | hx
      · exact hRpq
      · exact htrans p q x hRpq (hq x hx)
    · refine List.pairwise_cons.mpr ⟨?_, ih hl (fun x hx => hpass x (by simp [hx]))
        (fun x hx => hprecede x (by simp [hx]))⟩
      intro x hx
      rcases List.mem_cons.mp (List.perm_orderedInsert r p l |>.subset hx) with rfl | hx
      · exact hpass q (by simp) hpq
      · exact hq x hx

/-- The pointers of a family of doubly linked lists over one set of nodes. -/
@[ext] structure Heap (κ ι : Type*) where
  next : ι → Option ι
  prev : ι → Option ι
  head : κ → Option ι
  tail : κ → Option ι

namespace Heap

variable [DecidableEq κ] [DecidableEq ι]

/-- Link `p` in before the node `c` of list `k`. -/
def insertBefore (h : Heap κ ι) (k : κ) (p c : ι) : Heap κ ι where
  next q := if h.prev c = some q then some p else if q = p then some c else h.next q
  prev q := if q = c then some p else if q = p then h.prev c else h.prev q
  head k' := if k' = k ∧ h.prev c = none then some p else h.head k'
  tail := h.tail

def pushBack (h : Heap κ ι) (k : κ) (p : ι) : Heap κ ι where
  next q := if h.tail k = some q then some p else if q = p then none else h.next q
  prev q := if q = p then h.tail k else h.prev q
  head k' := if k' = k ∧ h.tail k = none then some p else h.head k'
  tail k' := if k' = k then some p else h.tail k'

def pushFront (h : Heap κ ι) (k : κ) (p : ι) : Heap κ ι where
  next q := if q = p then h.head k else h.next q
  prev q := if h.head k = some q then some p else if q = p then none else h.prev q
  head k' := if k' = k then some p else h.head k'
  tail k' := if k' = k ∧ h.head k = none then some p else h.tail k'

def unlink (h : Heap κ ι) (k : κ) (p : ι) : Heap κ ι where
  next q := if q = p then none else if h.prev p = some q then h.next p else h.next q
  prev q := if q = p then none else if h.next p = some q then h.prev p else h.prev q
  head k' := if k' = k ∧ h.prev p = none then h.next p else h.head k'
  tail k' := if k' = k ∧ h.next p = none then h.prev p else h.tail k'

end Heap

/-- `l` is what `next` visits from a pointer on, up to the null pointer. -/
def Walk (next : ι → Option ι) : Option ι → List ι → Prop
  | o, [] => o = none
  | o, p :: l => o = some p ∧ Walk next (next p) l

theorem Walk.unique {next : ι → Option ι} {o : Option ι} {l l' : List ι} (h : Walk next o l)
    (h' : Walk next o l') : l = l' := by
  induction l generalizing o l' with
  | nil =>
    cases l' with
    | nil => rfl
    | cons p l' => exact absurd (h.symm.trans h'.1) (by simp)
  | cons p l ih =>
    cases l' with
    | nil => exact absurd (h'.symm.trans h.1) (by simp)
    | cons p' l' =>
      obtain rfl : p = p' := Option.some.inj (h.1.symm.trans h'.1)
      rw [ih h.2 h'.2]

instance Walk.decidable [DecidableEq ι] (next : ι → Option ι) :
    (o : Option ι) → (l : List ι) → Decidable (Walk next o l)
  | o, [] => inferInstanceAs (Decidable (o = none))
  | o, p :: l =>
    have := Walk.decidable next (next p) l
    inferInstanceAs (Decidable (o = some p ∧ Walk next (next p) l))

/-- The pointers of `h` spell out the lists `ls`. -/
structure Spells (h : Heap κ ι) (ls : κ → List ι) : Prop where
  nodup : ∀ k, (ls k).Nodup
  disjoint : ∀ k k' p, p ∈ ls k → p ∈ ls k' → k = k'
  head : ∀ k, h.head k = (ls k).head?
  tail : ∀ k, h.tail k = (ls k).getLast?
  next : ∀ k A p B, ls k = A ++ p :: B → h.next p = B.head?
  prev : ∀ k A p B, ls k = A ++ p :: B → h.prev p = A.getLast?

/-- The pointers of `h` spell out the lists `ls`, and the other nodes have null pointers. -/
structure Represents (h : Heap κ ι) (ls : κ → List ι) : Prop extends Spells h ls where
  free : ∀ p, (∀ k, p ∉ ls k) → h.next p = none ∧ h.prev p = none

theorem represents_nil : Represents (⟨fun _ => none, fun _ => none, fun _ => none, fun _ => none⟩ : Heap κ ι)
    (fun _ => []) :=
  ⟨by constructor <;> simp, by simp⟩

section rules

variable {h h' : Heap κ ι} {ls : κ → List ι} {k : κ} {p q c : ι} {A B : List ι}

theorem Represents.next_iff_prev (hr : Represents h ls) : h.next p = some q ↔ h.prev q = some p := by
  constructor
  · intro hq
    obtain ⟨k, hp⟩ : ∃ k, p ∈ ls k := by
      by_contra hno
      push Not at hno
      rw [(hr.free p hno).1] at hq
      cases hq
    obtain ⟨A, B, hk⟩ := List.append_of_mem hp
    rw [hr.next k A p B hk] at hq
    obtain ⟨B', rfl⟩ := List.head?_eq_some_iff.mp hq
    rw [hr.prev k (A ++ [p]) q B' (by rw [hk]; simp)]
    simp
  · intro hp
    obtain ⟨k, hq⟩ : ∃ k, q ∈ ls k := by
      by_contra hno
      push Not at hno
      rw [(hr.free q hno).2] at hp
      cases hp
    obtain ⟨A, B, hk⟩ := List.append_of_mem hq
    rw [hr.prev k A q B hk] at hp
    obtain ⟨A', rfl⟩ := List.getLast?_eq_some_iff.mp hp
    rw [hr.next k A' p (q :: B) (by rw [hk]; simp)]
    simp

namespace Spells

theorem walk (hr : Spells h ls) (k : κ) : Walk h.next (h.head k) (ls k) := by
  have key : ∀ (B A : List ι), ls k = A ++ B → Walk h.next B.head? B := by
    intro B
    induction B with
    | nil => exact fun _ _ => rfl
    | cons p B ih =>
      intro A hk
      refine ⟨rfl, ?_⟩
      rw [hr.next k A p B hk]
      exact ih (A ++ [p]) (by simp [hk])
  rw [hr.head k]
  exact key (ls k) [] rfl

theorem ext (hr : Spells h ls) (hr' : Spells h' ls)
    (hoff : ∀ q, (∀ k, q ∉ ls k) → h'.next q = h.next q ∧ h'.prev q = h.prev q) : h' = h := by
  have hlinks : ∀ q, h'.next q = h.next q ∧ h'.prev q = h.prev q := by
    intro q
    by_cases hq : ∃ k, q ∈ ls k
    · obtain ⟨k, hk⟩ := hq
      obtain ⟨A, B, hs⟩ := List.append_of_mem hk
      rw [hr.next k A q B hs, hr.prev k A q B hs]
      exact ⟨hr'.next k A q B hs, hr'.prev k A q B hs⟩
    · exact hoff q (by simpa using hq)
  refine Heap.ext (funext fun q => (hlinks q).1) (funext fun q => (hlinks q).2) (funext fun k => ?_) (funext fun k => ?_)
  · rw [hr.head, hr'.head]
  · rw [hr.tail, hr'.tail]

theorem ne_of_mem_of_not_mem (hp : p ∈ ls k) (hq : ∀ k, q ∉ ls k) : p ≠ q := by
  rintro rfl
  exact hq k hp

variable [DecidableEq κ] [DecidableEq ι]

omit [DecidableEq ι] in
/-- Changing one list: the other lists keep their nodes, and their nodes keep their pointers. -/
theorem update {L : List ι} (hr : Spells h ls) (k : κ) (hnodup : L.Nodup)
    (hother : ∀ k', k' ≠ k → ∀ p ∈ L, p ∉ ls k')
    (hhead : h'.head = Function.update h.head k L.head?)
    (htail : h'.tail = Function.update h.tail k L.getLast?)
    (hnext : ∀ A p B, L = A ++ p :: B → h'.next p = B.head?)
    (hprev : ∀ A p B, L = A ++ p :: B → h'.prev p = A.getLast?)
    (hframe : ∀ p, p ∉ L → p ∉ ls k → h'.next p = h.next p ∧ h'.prev p = h.prev p) :
    Spells h' (Function.update ls k L) := by
  have hmem : ∀ k' p, k' ≠ k → p ∈ ls k' → p ∉ L ∧ p ∉ ls k := by
    intro k' p hk hp
    exact ⟨fun hL => hother k' hk p hL hp, fun hp' => hk (hr.disjoint k' k p hp hp')⟩
  constructor
  · intro k'
    by_cases hk : k' = k
    · subst hk
      simpa using hnodup
    · simpa [hk] using hr.nodup k'
  · intro k₁ k₂ p h₁ h₂
    by_cases hk₁ : k₁ = k <;> by_cases hk₂ : k₂ = k
    · rw [hk₁, hk₂]
    · simp only [hk₁, Function.update_self, Function.update_of_ne hk₂] at h₁ h₂
      exact absurd h₂ (hother k₂ hk₂ p h₁)
    · simp only [hk₂, Function.update_self, Function.update_of_ne hk₁] at h₁ h₂
      exact absurd h₁ (hother k₁ hk₁ p h₂)
    · simp only [Function.update_of_ne hk₁, Function.update_of_ne hk₂] at h₁ h₂
      exact hr.disjoint k₁ k₂ p h₁ h₂
  · intro k'
    rw [hhead]
    by_cases hk : k' = k
    · subst hk
      simp
    · simpa [hk] using hr.head k'
  · intro k'
    rw [htail]
    by_cases hk : k' = k
    · subst hk
      simp
    · simpa [hk] using hr.tail k'
  · intro k' A p B hs
    by_cases hk : k' = k
    · subst hk
      exact hnext A p B (by simpa using hs)
    · rw [Function.update_of_ne hk] at hs
      obtain ⟨hL, hkp⟩ := hmem k' p hk (by rw [hs]; simp)
      rw [(hframe p hL hkp).1, hr.next k' A p B hs]
  · intro k' A p B hs
    by_cases hk : k' = k
    · subst hk
      exact hprev A p B (by simpa using hs)
    · rw [Function.update_of_ne hk] at hs
      obtain ⟨hL, hkp⟩ := hmem k' p hk (by rw [hs]; simp)
      rw [(hframe p hL hkp).2, hr.prev k' A p B hs]

/-! ### The operations -/

theorem insertBefore (hr : Spells h ls) (hp : ∀ k, p ∉ ls k) (hk : ls k = A ++ c :: B) :
    Spells (h.insertBefore k p c) (Function.update ls k (A ++ p :: c :: B)) := by
  have hprevc : h.prev c = A.getLast? := hr.prev k A c B hk
  have hnodup : (A ++ c :: B).Nodup := hk ▸ hr.nodup k
  have hpk : p ∉ A ++ c :: B := hk ▸ hp k
  -- the node before `c` is a node of `A`
  have hlast : ∀ q, h.prev c = some q → q ∈ A := by
    intro q hq
    exact List.mem_of_getLast? (hprevc ▸ hq)
  refine hr.update k ?_ ?_ ?_ ?_ ?_ ?_ ?_
  · grind
  · intro k' hne q hq hq'
    have : q = p ∨ q ∈ ls k := by
      rw [hk]
      simp only [List.mem_append, List.mem_cons] at hq ⊢
      tauto
    rcases this with rfl | hqk
    · exact hp k' hq'
    · exact hne (hr.disjoint k' k q hq' hqk)
  · funext k'
    by_cases hk' : k' = k
    · subst hk'
      simp only [Heap.insertBefore, Function.update_self, true_and, hprevc, hr.head, hk]
      cases A <;> simp
    · simp [Heap.insertBefore, hk']
  · funext k'
    by_cases hk' : k' = k
    · subst hk'
      simp [Heap.insertBefore, hr.tail, hk]
    · simp [Heap.insertBefore, hk']
  · intro A' q B' hs
    simp only [Heap.insertBefore]
    rcases split_cases hs with ⟨C, rfl, rfl⟩ | ⟨rfl, rfl, rfl⟩ | ⟨C, rfl, hB⟩
    · -- `q` lies before `p`
      cases C with
      | nil => simp [hprevc]
      | cons d C =>
        have hq : h.prev c ≠ some q := by
          rw [hprevc]
          intro hq
          have : q ∈ d :: C := List.mem_of_getLast? (by simpa using hq)
          grind
        rw [if_neg hq, if_neg (by rintro rfl; simp at hpk),
          hr.next k A' q (d :: C ++ c :: B) (by rw [hk]; simp)]
        simp
    · rw [if_neg (fun hq => hpk (by simp [hlast p hq])), if_pos rfl]
      simp
    · cases C with
      | nil =>
        obtain ⟨rfl, rfl⟩ : c = q ∧ B = B' := by simpa using hB
        rw [if_neg (fun hq => by have := hlast c hq; grind), if_neg (by rintro rfl; simp at hpk),
          hr.next k A c B hk]
      | cons d C =>
        obtain ⟨rfl, rfl⟩ : c = d ∧ B = C ++ q :: B' := by simpa using hB
        rw [if_neg (fun hq => by have := hlast q hq; grind), if_neg (by rintro rfl; simp at hpk),
          hr.next k (A ++ c :: C) q B' (by rw [hk]; simp)]
  · intro A' q B' hs
    simp only [Heap.insertBefore]
    rcases split_cases hs with ⟨C, rfl, rfl⟩ | ⟨rfl, rfl, rfl⟩ | ⟨C, rfl, hB⟩
    · rw [if_neg (by rintro rfl; grind), if_neg (by rintro rfl; simp at hpk),
        hr.prev k A' q (C ++ c :: B) (by rw [hk]; simp)]
    · rw [if_neg (by rintro rfl; simp at hpk), if_pos rfl, hprevc]
    · cases C with
      | nil =>
        obtain ⟨rfl, rfl⟩ : c = q ∧ B = B' := by simpa using hB
        simp
      | cons d C =>
        obtain ⟨rfl, rfl⟩ : c = d ∧ B = C ++ q :: B' := by simpa using hB
        rw [if_neg (by rintro rfl; grind), if_neg (by rintro rfl; simp at hpk),
          hr.prev k (A ++ c :: C) q B' (by rw [hk]; simp)]
        simp
  · intro q hq _
    have hqA : q ∉ A := fun hA => hq (by simp [hA])
    have hqc : q ≠ c := by rintro rfl; simp at hq
    have hqp : q ≠ p := by rintro rfl; simp at hq
    have hqprev : h.prev c ≠ some q := fun hc => hqA (hlast q hc)
    exact ⟨by simp [Heap.insertBefore, hqprev, hqp], by simp [Heap.insertBefore, hqc, hqp]⟩

theorem pushBack (hr : Spells h ls) (hp : ∀ k, p ∉ ls k) (k : κ) :
    Spells (h.pushBack k p) (Function.update ls k (ls k ++ [p])) := by
  have hlast : ∀ q, h.tail k = some q → q ∈ ls k := by
    intro q hq
    exact List.mem_of_getLast? (hr.tail k ▸ hq)
  refine hr.update k ?_ ?_ ?_ ?_ ?_ ?_ ?_
  · have hnodup := hr.nodup k
    have hpk := hp k
    grind
  · intro k' hne q hq hq'
    rcases List.mem_append.mp hq with hqk | hqp
    · exact hne (hr.disjoint k' k q hq' hqk)
    · rw [List.mem_singleton] at hqp
      exact hp k' (hqp ▸ hq')
  · funext k'
    by_cases hk' : k' = k
    · subst hk'
      simp only [Heap.pushBack, Function.update_self, true_and, hr.head, hr.tail]
      cases ls k' <;> simp
    · simp [Heap.pushBack, hk']
  · funext k'
    by_cases hk' : k' = k
    · subst hk'
      simp [Heap.pushBack]
    · simp [Heap.pushBack, hk']
  · intro A' q B' hs
    simp only [Heap.pushBack]
    rcases split_cases hs with ⟨C, hA, rfl⟩ | ⟨rfl, rfl, rfl⟩ | ⟨C, _, hB⟩
    · have hqp : q ≠ p := ne_of_mem_of_not_mem (k := k) (by rw [hA]; simp) hp
      cases C with
      | nil => simp [hr.tail, hA]
      | cons d C =>
        have hq : h.tail k ≠ some q := by
          rw [hr.tail, hA]
          intro hq
          have hmem : q ∈ d :: C := List.mem_of_getLast? (by simpa using hq)
          have hnodup := hr.nodup k
          rw [hA] at hnodup
          grind
        rw [if_neg hq, if_neg hqp, hr.next k A' q (d :: C) hA]
        simp
    · rw [if_neg (fun hq => hp k (hlast p hq)), if_pos rfl]
      simp
    · simp at hB
  · intro A' q B' hs
    simp only [Heap.pushBack]
    rcases split_cases hs with ⟨C, hA, rfl⟩ | ⟨rfl, rfl, rfl⟩ | ⟨C, _, hB⟩
    · have hqp : q ≠ p := ne_of_mem_of_not_mem (k := k) (by rw [hA]; simp) hp
      rw [if_neg hqp, hr.prev k A' q C hA]
    · rw [if_pos rfl, hr.tail]
    · simp at hB
  · intro q hq hqk
    have hqp : q ≠ p := by rintro rfl; simp at hq
    have hqtail : h.tail k ≠ some q := fun hc => hqk (hlast q hc)
    exact ⟨by simp [Heap.pushBack, hqtail, hqp], by simp [Heap.pushBack, hqp]⟩

theorem pushFront (hr : Spells h ls) (hp : ∀ k, p ∉ ls k) (k : κ) :
    Spells (h.pushFront k p) (Function.update ls k (p :: ls k)) := by
  have hfirst : ∀ q, h.head k = some q → q ∈ ls k := by
    intro q hq
    exact List.mem_of_head? (hr.head k ▸ hq)
  refine hr.update k ?_ ?_ ?_ ?_ ?_ ?_ ?_
  · exact List.nodup_cons.mpr ⟨hp k, hr.nodup k⟩
  · intro k' hne q hq hq'
    rcases List.mem_cons.mp hq with rfl | hqk
    · exact hp k' hq'
    · exact hne (hr.disjoint k' k q hq' hqk)
  · funext k'
    by_cases hk' : k' = k
    · subst hk'
      simp [Heap.pushFront]
    · simp [Heap.pushFront, hk']
  · funext k'
    by_cases hk' : k' = k
    · subst hk'
      simp only [Heap.pushFront, Function.update_self, true_and, hr.head, hr.tail]
      cases ls k' <;> simp
    · simp [Heap.pushFront, hk']
  · intro A' q B' hs
    simp only [Heap.pushFront]
    cases A' with
    | nil =>
      obtain ⟨rfl, rfl⟩ : p = q ∧ ls k = B' := by simpa using hs
      rw [if_pos rfl, hr.head]
    | cons d C =>
      obtain ⟨rfl, hk⟩ : p = d ∧ ls k = C ++ q :: B' := by simpa using hs
      rw [if_neg (ne_of_mem_of_not_mem (k := k) (by rw [hk]; simp) hp), hr.next k C q B' hk]
  · intro A' q B' hs
    simp only [Heap.pushFront]
    cases A' with
    | nil =>
      obtain ⟨rfl, rfl⟩ : p = q ∧ ls k = B' := by simpa using hs
      rw [if_neg (fun hq => hp k (hfirst p hq)), if_pos rfl]
      rfl
    | cons d C =>
      obtain ⟨rfl, hk⟩ : p = d ∧ ls k = C ++ q :: B' := by simpa using hs
      have hqp : q ≠ p := ne_of_mem_of_not_mem (k := k) (by rw [hk]; simp) hp
      cases C with
      | nil => simp [hr.head, hk]
      | cons e C =>
        have hq : h.head k ≠ some q := by
          rw [hr.head, hk]
          intro hq
          obtain rfl : e = q := by simpa using hq
          have hnodup := hr.nodup k
          rw [hk] at hnodup
          simp at hnodup
        rw [if_neg hq, if_neg hqp, hr.prev k (e :: C) q B' hk]
        simp
  · intro q hq hqk
    have hqp : q ≠ p := by rintro rfl; simp at hq
    have hqhead : h.head k ≠ some q := fun hc => hqk (hfirst q hc)
    exact ⟨by simp [Heap.pushFront, hqp], by simp [Heap.pushFront, hqhead, hqp]⟩

theorem unlink (hr : Spells h ls) (hk : ls k = A ++ p :: B) :
    Spells (h.unlink k p) (Function.update ls k (A ++ B)) := by
  have hprevp : h.prev p = A.getLast? := hr.prev k A p B hk
  have hnextp : h.next p = B.head? := hr.next k A p B hk
  have hnodup : (A ++ p :: B).Nodup := hk ▸ hr.nodup k
  have hlast : ∀ q, h.prev p = some q → q ∈ A := by
    intro q hq
    exact List.mem_of_getLast? (hprevp ▸ hq)
  have hfirst : ∀ q, h.next p = some q → q ∈ B := by
    intro q hq
    exact List.mem_of_head? (hnextp ▸ hq)
  refine hr.update k ?_ ?_ ?_ ?_ ?_ ?_ ?_
  · grind
  · intro k' hne q hq hq'
    refine hne (hr.disjoint k' k q hq' ?_)
    rw [hk]
    simp only [List.mem_append, List.mem_cons] at hq ⊢
    tauto
  · funext k'
    by_cases hk' : k' = k
    · subst hk'
      simp only [Heap.unlink, Function.update_self, true_and, hprevp, hnextp, hr.head, hk]
      cases A <;> simp
    · simp [Heap.unlink, hk']
  · funext k'
    by_cases hk' : k' = k
    · subst hk'
      simp only [Heap.unlink, Function.update_self, true_and, hprevp, hnextp, hr.tail, hk]
      cases B <;> simp
    · simp [Heap.unlink, hk']
  · intro A' q B' hs
    simp only [Heap.unlink]
    rcases List.append_eq_append_iff.mp hs with ⟨C, rfl, rfl⟩ | ⟨C, rfl, hB⟩
    · -- `q` lies after `p`
      rw [if_neg (by rintro rfl; grind), if_neg (fun hq => by have := hlast q hq; grind),
        hr.next k (A ++ p :: C) q B' (by rw [hk]; simp)]
    · cases C with
      | nil =>
        simp only [List.nil_append] at hB
        subst hB
        rw [if_neg (by rintro rfl; grind), if_neg (fun hq => by have := hlast q hq; grind),
          hr.next k (A' ++ [p]) q B' (by rw [hk]; simp)]
      | cons d C =>
        obtain ⟨rfl, rfl⟩ : q = d ∧ B' = C ++ B := by simpa using hB
        rw [if_neg (by rintro rfl; grind)]
        cases C with
        | nil => simp [hprevp, hnextp]
        | cons e C =>
          have hq : h.prev p ≠ some q := by
            rw [hprevp]
            intro hq
            have : q ∈ e :: C := List.mem_of_getLast? (by simpa using hq)
            grind
          rw [if_neg hq, hr.next k A' q (e :: C ++ p :: B) (by rw [hk]; simp)]
          simp
  · intro A' q B' hs
    simp only [Heap.unlink]
    rcases List.append_eq_append_iff.mp hs with ⟨C, rfl, rfl⟩ | ⟨C, rfl, hB⟩
    · rw [if_neg (by rintro rfl; grind)]
      cases C with
      | nil => simp [hprevp, hnextp]
      | cons d C =>
        have hq : h.next p ≠ some q := by
          rw [hnextp]
          intro hq
          obtain rfl : d = q := by simpa using hq
          grind
        rw [if_neg hq, hr.prev k (A ++ p :: d :: C) q B' (by rw [hk]; simp)]
        simp
    · cases C with
      | nil =>
        simp only [List.nil_append] at hB
        subst hB
        rw [if_neg (by rintro rfl; grind)]
        simp [hprevp, hnextp]
      | cons d C =>
        obtain ⟨rfl, rfl⟩ : q = d ∧ B' = C ++ B := by simpa using hB
        rw [if_neg (by rintro rfl; grind), if_neg (fun hq => by have := hfirst q hq; grind),
          hr.prev k A' q (C ++ p :: B) (by rw [hk]; simp)]
  · intro q hq hqk
    have hqA : q ∉ A := fun hA => hq (by simp [hA])
    have hqB : q ∉ B := fun hB => hq (by simp [hB])
    have hqp : q ≠ p := by rintro rfl; rw [hk] at hqk; simp at hqk
    have hqprev : h.prev p ≠ some q := fun hc => hqA (hlast q hc)
    have hqnext : h.next p ≠ some q := fun hc => hqB (hfirst q hc)
    exact ⟨by simp [Heap.unlink, hqprev, hqp], by simp [Heap.unlink, hqnext, hqp]⟩

/-! ### Nodes on no list -/

theorem insertBefore_off (hr : Spells h ls) (hk : ls k = A ++ c :: B) (hq : ∀ k, q ∉ ls k) (hqp : q ≠ p) :
    (h.insertBefore k p c).next q = h.next q ∧ (h.insertBefore k p c).prev q = h.prev q := by
  have hqk : q ∉ A ++ c :: B := hk ▸ hq k
  have hqc : q ≠ c := by
    rintro rfl
    simp at hqk
  have hqprev : h.prev c ≠ some q := by
    rw [hr.prev k A c B hk]
    intro hc
    exact hqk (List.mem_append_left _ (List.mem_of_getLast? hc))
  exact ⟨by simp [Heap.insertBefore, hqprev, hqp], by simp [Heap.insertBefore, hqc, hqp]⟩

theorem pushBack_off (hr : Spells h ls) (hq : ∀ k, q ∉ ls k) (hqp : q ≠ p) (k : κ) :
    (h.pushBack k p).next q = h.next q ∧ (h.pushBack k p).prev q = h.prev q := by
  have hqtail : h.tail k ≠ some q := by
    rw [hr.tail k]
    intro hc
    exact hq k (List.mem_of_getLast? hc)
  exact ⟨by simp [Heap.pushBack, hqtail, hqp], by simp [Heap.pushBack, hqp]⟩

theorem pushFront_off (hr : Spells h ls) (hq : ∀ k, q ∉ ls k) (hqp : q ≠ p) (k : κ) :
    (h.pushFront k p).next q = h.next q ∧ (h.pushFront k p).prev q = h.prev q := by
  have hqhead : h.head k ≠ some q := by
    rw [hr.head k]
    intro hc
    exact hq k (List.mem_of_head? hc)
  exact ⟨by simp [Heap.pushFront, hqp], by simp [Heap.pushFront, hqhead, hqp]⟩

theorem unlink_off (hr : Spells h ls) (hk : ls k = A ++ p :: B) (hq : ∀ k, q ∉ ls k) :
    (h.unlink k p).next q = h.next q ∧ (h.unlink k p).prev q = h.prev q := by
  have hqk : q ∉ A ++ p :: B := hk ▸ hq k
  have hqp : q ≠ p := by
    rintro rfl
    simp at hqk
  have hqprev : h.prev p ≠ some q := by
    rw [hr.prev k A p B hk]
    intro hc
    exact hqk (List.mem_append_left _ (List.mem_of_getLast? hc))
  have hqnext : h.next p ≠ some q := by
    rw [hr.next k A p B hk]
    intro hc
    exact hqk (List.mem_append_right _ (List.mem_cons_of_mem _ (List.mem_of_head? hc)))
  exact ⟨by simp [Heap.unlink, hqprev, hqp], by simp [Heap.unlink, hqnext, hqp]⟩

end Spells

namespace Represents

variable [DecidableEq κ] [DecidableEq ι]

/-- One list is changed: a node that is on no list afterwards was on none before and keeps its pointers, or it has left
the list with null pointers. -/
theorem of_spells {L : List ι} (hr : Represents h ls) (hs : Spells h' (Function.update ls k L))
    (hoff : ∀ q, q ∉ L → (∀ k', q ∉ ls k') → h'.next q = h.next q ∧ h'.prev q = h.prev q)
    (hfree : ∀ q, q ∉ L → q ∈ ls k → h'.next q = none ∧ h'.prev q = none) :
    Represents h' (Function.update ls k L) := by
  refine ⟨hs, fun q hq => ?_⟩
  have hL : q ∉ L := by simpa using hq k
  by_cases hk : q ∈ ls k
  · exact hfree q hL hk
  · have hno : ∀ k', q ∉ ls k' := by
      intro k'
      by_cases hk' : k' = k
      · rwa [hk']
      · simpa [hk'] using hq k'
    obtain ⟨hn, hp⟩ := hoff q hL hno
    rw [hn, hp]
    exact hr.free q hno

theorem pushFront (hr : Represents h ls) (hp : ∀ k, p ∉ ls k) (k : κ) :
    Represents (h.pushFront k p) (Function.update ls k (p :: ls k)) := by
  refine hr.of_spells (hr.toSpells.pushFront hp k) (fun q hL hq => ?_) fun q hL hq => ?_
  · exact hr.toSpells.pushFront_off hq (by rintro rfl; simp at hL) k
  · exact absurd (List.mem_cons_of_mem _ hq) hL

theorem unlink (hr : Represents h ls) (hk : ls k = A ++ p :: B) :
    Represents (h.unlink k p) (Function.update ls k (A ++ B)) := by
  refine hr.of_spells (hr.toSpells.unlink hk) (fun q _ hq => hr.toSpells.unlink_off hk hq) fun q hL hq => ?_
  obtain rfl : q = p := by
    rw [hk] at hq
    simp only [List.mem_append, List.mem_cons] at hL hq
    tauto
  simp [Heap.unlink]

end Represents

end rules

end Xv6Mlfq.Lib
