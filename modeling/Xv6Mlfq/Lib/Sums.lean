import Mathlib.Algebra.BigOperators.Group.Finset.Basic
import Mathlib.Algebra.Order.BigOperators.Group.Finset
import Mathlib.Algebra.BigOperators.Fin
import Mathlib.Data.Multiset.UnionInter
import Mathlib.Tactic.Abel

/-!
# Sums of multisets

What the owners `0` to `N - 1` hold together is a sum of multisets, `sumBelow N f`. One owner changes
(`sumBelow_change`); in a sum without duplicates no two owners hold the same thing (`sumBelow_disjoint`). The sum is
irreducible: `N` may be large.
-/

namespace Xv6Mlfq.Lib

open Finset

variable {α : Type*} {N i j : Nat} {f g : Nat → Multiset α}

@[irreducible] def sumBelow (N : Nat) (f : Nat → Multiset α) : Multiset α := ∑ i ∈ range N, f i

theorem mem_sumBelow {a : α} : a ∈ sumBelow N f ↔ ∃ i < N, a ∈ f i := by
  unfold sumBelow
  rw [Multiset.mem_sum]
  simp only [mem_range]

theorem sumBelow_congr (h : ∀ i < N, g i = f i) : sumBelow N g = sumBelow N f := by
  unfold sumBelow
  exact sum_congr rfl fun i hi => h i (mem_range.mp hi)

theorem sumBelow_add : sumBelow N (fun i => f i + g i) = sumBelow N f + sumBelow N g := by
  unfold sumBelow
  exact sum_add_distrib

theorem sumBelow_change (hi : i < N) (h : ∀ j < N, j ≠ i → g j = f j) :
    sumBelow N g + f i = sumBelow N f + g i := by
  have hrest : ∑ j ∈ (range N).erase i, g j = ∑ j ∈ (range N).erase i, f j := by
    refine sum_congr rfl fun j hj => ?_
    exact h j (mem_range.mp (mem_of_mem_erase hj)) (ne_of_mem_erase hj)
  unfold sumBelow
  rw [← add_sum_erase _ f (mem_range.mpr hi), ← add_sum_erase _ g (mem_range.mpr hi), hrest]
  abel

theorem sumBelow_disjoint (h : (sumBelow N f).Nodup) (hi : i < N) (hj : j < N) (hij : i ≠ j) :
    Disjoint (f i) (f j) := by
  unfold sumBelow at h
  have hle : f i + f j ≤ ∑ k ∈ range N, f k := by
    rw [← add_sum_erase _ f (mem_range.mpr hi),
      ← add_sum_erase _ f (mem_erase.mpr ⟨hij.symm, mem_range.mpr hj⟩), ← add_assoc]
    exact Multiset.le_add_right _ _
  exact (Multiset.nodup_add.mp (Multiset.nodup_of_le hle h)).2.2

theorem card_sumBelow_le (h : ∀ i < N, (f i).card ≤ 1) : (sumBelow N f).card ≤ N := by
  unfold sumBelow
  rw [Multiset.card_sum]
  calc ∑ i ∈ range N, (f i).card ≤ ∑ _i ∈ range N, 1 := sum_le_sum fun i hi => h i (mem_range.mp hi)
    _ = N := by simp

end Xv6Mlfq.Lib
