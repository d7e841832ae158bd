import Mathlib

/-!
# Slots with keys

A fixed number of slots, kept in a list in some order; `key` tells what a slot holds, if anything. `pick` splits the
list at the first slot that passes a test. Everything that a table of slots is used for is unchanged by the order, so an
operation on one slot is described by what it replaces: `l` is `x :: R` up to order before and `y :: R` afterwards. As long
as no two slots hold the same key, the slot of a key does not depend on the order (`slotOf_perm`), and a table that holds
as many keys as it has slots holds nothing else (`mem_of_full`).
-/

namespace Xv6Mlfq.Lib

variable {α κ : Type*}

/-- The list in front of the first element that passes the test, the element, and the list behind it. -/
def pick (p : α → Bool) : List α → Option (List α × α × List α)
  | [] => none
  | x :: l => if p x then some ([], x, l) else (pick p l).map fun r => (x :: r.1, r.2)

theorem pick_eq_some {p : α → Bool} {l A B : List α} {x : α} (h : pick p l = some (A, x, B)) :
    l = A ++ x :: B ∧ p x = true := by
  induction l generalizing A with
  | nil => cases h
  | cons y l ih =>
    unfold pick at h
    split_ifs at h with hy
    · cases h
      exact ⟨rfl, hy⟩
    · obtain ⟨⟨A', r⟩, hr, heq⟩ := Option.map_eq_some_iff.mp h
      cases heq
      obtain ⟨hl, hx⟩ := ih hr
      exact ⟨congrArg (y :: ·) hl, hx⟩

theorem pick_eq_none {p : α → Bool} {l : List α} : pick p l = none ↔ ∀ x ∈ l, p x = false := by
  induction l with
  | nil => exact iff_of_true rfl fun x hx => absurd hx List.not_mem_nil
  | cons y l ih =>
    unfold pick
    rw [List.forall_mem_cons]
    split_ifs with hy
    · exact iff_of_false id fun hall => absurd (hy.symm.trans hall.1) (by decide)
    · rw [Option.map_eq_none_iff, ih, and_iff_right (Bool.eq_false_iff.mpr hy)]

theorem pick_perm {p : α → Bool} {l A B : List α} {x : α} (h : pick p l = some (A, x, B)) : l.Perm (x :: (A ++ B)) := by
  rw [(pick_eq_some h).1]
  exact List.perm_middle

/-! ## Keys -/

section keys

variable (key : α → Option κ) {l l' R : List α} {x y : α} {k : κ}

def DistinctKeys (l : List α) : Prop := (l.filterMap key).Nodup

variable {key}

theorem mem_keys : k ∈ l.filterMap key ↔ ∃ x ∈ l, key x = some k := List.mem_filterMap

theorem DistinctKeys.perm (h : DistinctKeys key l) (hl : l.Perm l') : DistinctKeys key l' :=
  (hl.filterMap key).nodup_iff.mp h

theorem DistinctKeys.rest (h : DistinctKeys key (x :: R)) : DistinctKeys key R :=
  List.Sublist.nodup (List.Sublist.filterMap key (List.sublist_cons_self x R)) h

theorem DistinctKeys.notMem (h : DistinctKeys key (x :: R)) (hx : key x = some k) : k ∉ R.filterMap key := by
  unfold DistinctKeys at h
  rw [List.filterMap_cons_some hx] at h
  exact (List.nodup_cons.mp h).1

theorem DistinctKeys.cons (h : DistinctKeys key R) (hx : ∀ k, key x = some k → k ∉ R.filterMap key) :
    DistinctKeys key (x :: R) := by
  unfold DistinctKeys
  cases hk : key x with
  | none =>
    rw [List.filterMap_cons_none hk]
    exact h
  | some k =>
    rw [List.filterMap_cons_some hk]
    exact List.nodup_cons.mpr ⟨hx k hk, h⟩

theorem DistinctKeys.eq (h : DistinctKeys key l) (hx : x ∈ l) (hy : y ∈ l) (hkx : key x = some k) (hky : key y = some k) :
    x = y := by
  obtain ⟨A, B, rfl⟩ := List.append_of_mem hx
  have hperm : (A ++ x :: B).Perm (x :: (A ++ B)) := List.perm_middle
  have hd := h.perm hperm
  rcases List.mem_cons.mp (hperm.mem_iff.mp hy) with heq | hrest
  · exact heq.symm
  · exact absurd (mem_keys.mpr ⟨y, hrest, hky⟩) (hd.notMem hkx)

theorem mem_of_full {ks : List κ} (hks : ks.Nodup) (hheld : ∀ k ∈ ks, k ∈ l.filterMap key) (hfull : l.length ≤ ks.length)
    (hx : x ∈ l) : ∃ k ∈ ks, key x = some k := by
  have hsub : ks.Subperm (l.filterMap key) := List.subperm_of_subset hks hheld
  have hlen : (l.filterMap key).length ≤ l.length := List.length_filterMap_le key l
  have hperm : ks.Perm (l.filterMap key) := hsub.perm_of_length_le (hlen.trans hfull)
  have hall : (l.filterMap key).length = l.length := le_antisymm hlen (hfull.trans hperm.length_eq.le)
  obtain ⟨k, hk⟩ := Option.isSome_iff_exists.mp (List.filterMap_length_eq_length.mp hall x hx)
  exact ⟨k, hperm.mem_iff.mpr (mem_keys.mpr ⟨x, hx, hk⟩), hk⟩

variable [DecidableEq κ]

variable (key) in
def slotOf (l : List α) (k : κ) : Option α := l.find? fun x => key x = some k

theorem slotOf_eq_none : slotOf key l k = none ↔ k ∉ l.filterMap key := by
  unfold slotOf
  rw [List.find?_eq_none, mem_keys]
  simp only [decide_eq_true_eq, not_exists, not_and]

theorem slotOf_mem (h : slotOf key l k = some x) : x ∈ l ∧ key x = some k := by
  have hx := List.find?_some h
  exact ⟨List.mem_of_find?_eq_some h, of_decide_eq_true hx⟩

theorem DistinctKeys.slotOf_eq (h : DistinctKeys key l) (hx : x ∈ l) (hk : key x = some k) : slotOf key l k = some x := by
  cases hy : slotOf key l k with
  | none => exact absurd (mem_keys.mpr ⟨x, hx, hk⟩) (slotOf_eq_none.mp hy)
  | some y =>
    obtain ⟨hmem, hky⟩ := slotOf_mem hy
    rw [h.eq hmem hx hky hk]

theorem DistinctKeys.slotOf_perm (h : DistinctKeys key l) (hl : l.Perm l') (k : κ) : slotOf key l k = slotOf key l' k := by
  cases hy : slotOf key l' k with
  | none =>
    rw [slotOf_eq_none] at hy ⊢
    exact fun hk => hy ((hl.filterMap key).mem_iff.mp hk)
  | some y =>
    obtain ⟨hmem, hky⟩ := slotOf_mem hy
    exact h.slotOf_eq (hl.mem_iff.mpr hmem) hky

theorem slotOf_cons (x : α) (R : List α) (k : κ) :
    slotOf key (x :: R) k = if key x = some k then some x else slotOf key R k := by
  unfold slotOf
  rw [List.find?_cons]
  split_ifs with hk
  · rw [decide_eq_true hk]
  · rw [decide_eq_false hk]

end keys

end Xv6Mlfq.Lib
