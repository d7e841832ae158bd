import Mathlib

/-!
# Rings with wrapping counters

A ring of `N` cells that counts the elements read and the elements written in 32-bit counters, which wrap
around; the cell of a counter is its remainder modulo `N`. If `N` divides `2 ^ 32` then the wrap does not
disturb the cells, so that `push` adds at the end of `contents` (`contents_push`), `pop` takes from its
front (`contents_pop`) and `unpush` from its end (`contents_unpush`) for counters of any value, while there are at
most `N` elements. Full and empty are tests of the counters (`full_iff`, `empty_iff`).
-/

namespace Xv6Mlfq.Lib

structure Ring (N : Nat) (α : Type*) where
  data : Fin N → α
  nread : UInt32
  nwrite : UInt32

namespace Ring

variable {N : Nat} {α : Type*} {r : Ring N α} {a : α}

def size (r : Ring N α) : Nat := (r.nwrite - r.nread).toNat

def pop (r : Ring N α) : Ring N α := { r with nread := r.nread + 1 }

def unpush (r : Ring N α) : Ring N α := { r with nwrite := r.nwrite - 1 }

def Full (r : Ring N α) : Prop := r.nwrite = r.nread + UInt32.ofNat N

def Empty (r : Ring N α) : Prop := r.nread = r.nwrite

instance (r : Ring N α) : Decidable r.Full := inferInstanceAs (Decidable (_ = _))

instance (r : Ring N α) : Decidable r.Empty := inferInstanceAs (Decidable (_ = _))

theorem size_eq (r : Ring N α) : r.size = (2 ^ 32 - r.nread.toNat + r.nwrite.toNat) % 2 ^ 32 := by
  unfold size
  rw [UInt32.toNat_sub]

theorem empty_iff : r.Empty ↔ r.size = 0 := by
  have hr := r.nread.toNat_lt
  have hw := r.nwrite.toNat_lt
  rw [size_eq, Empty, ← UInt32.toNat_inj]
  omega

theorem full_iff (hN : N < 2 ^ 32) : r.Full ↔ r.size = N := by
  have hr := r.nread.toNat_lt
  have hw := r.nwrite.toNat_lt
  have hone : (UInt32.ofNat N).toNat = N := UInt32.toNat_ofNat_of_lt' hN
  rw [size_eq, Full, ← UInt32.toNat_inj, UInt32.toNat_add, hone]
  omega

theorem size_pop (h : 0 < r.size) : r.pop.size + 1 = r.size := by
  have hr := r.nread.toNat_lt
  have hw := r.nwrite.toNat_lt
  rw [size_eq] at h ⊢
  rw [size_eq]
  simp only [pop, UInt32.toNat_add, UInt32.toNat_one]
  omega

theorem size_unpush (h : 0 < r.size) : r.unpush.size + 1 = r.size := by
  have hr := r.nread.toNat_lt
  have hw := r.nwrite.toNat_lt
  rw [size_eq] at h ⊢
  rw [size_eq]
  simp only [unpush, UInt32.toNat_sub, UInt32.toNat_one]
  omega

theorem nwrite_eq (r : Ring N α) : r.nwrite = r.nread + UInt32.ofNat r.size := by
  unfold size
  rw [UInt32.ofNat_toNat]
  abel_nf

/-! ## The cells -/

variable [NeZero N]

def cell (N : Nat) [NeZero N] (i : UInt32) : Fin N := Fin.ofNat N i.toNat

/-- The elements, in the order they were written. -/
def contents (r : Ring N α) : List α :=
  (List.range r.size).map fun j => r.data (cell N (r.nread + UInt32.ofNat j))

def front (r : Ring N α) : α := r.data (cell N r.nread)

def push (r : Ring N α) (a : α) : Ring N α :=
  { r with data := Function.update r.data (cell N r.nwrite) a, nwrite := r.nwrite + 1 }

@[simp] theorem length_contents (r : Ring N α) : r.contents.length = r.size := by
  simp [contents]

theorem size_push (h : r.size + 1 < 2 ^ 32) : (r.push a).size = r.size + 1 := by
  have hr := r.nread.toNat_lt
  have hw := r.nwrite.toNat_lt
  rw [size_eq] at h ⊢
  rw [size_eq]
  simp only [push, UInt32.toNat_add, UInt32.toNat_one]
  omega

theorem cell_val (hN : N ∣ 2 ^ 32) (i : UInt32) {j : Nat} :
    (cell N (i + UInt32.ofNat j)).val = (i.toNat + j) % N := by
  show (i + UInt32.ofNat j).toNat % N = _
  have hj : (UInt32.ofNat j).toNat = j % 2 ^ 32 := UInt32.toNat_ofNat'
  rw [UInt32.toNat_add, hj, Nat.mod_mod_of_dvd _ hN, Nat.add_mod, Nat.mod_mod_of_dvd _ hN, ← Nat.add_mod]

theorem cell_ne (hN : N ∣ 2 ^ 32) (i : UInt32) {j l : Nat} (hjl : j < l) (hl : l < N) :
    cell N (i + UInt32.ofNat j) ≠ cell N (i + UInt32.ofNat l) := by
  intro h
  have hval := congrArg Fin.val h
  rw [cell_val hN, cell_val hN] at hval
  have hmod : (i.toNat + l - (i.toNat + j)) % N = 0 := Nat.sub_mod_eq_zero_of_mod_eq hval.symm
  have hdiff : i.toNat + l - (i.toNat + j) = l - j := by omega
  rw [hdiff, Nat.mod_eq_of_lt (by omega)] at hmod
  omega

/-- **A write adds at the end.** -/
theorem contents_push (hN : N ∣ 2 ^ 32) (hlt : N < 2 ^ 32) (h : r.size < N) :
    (r.push a).contents = r.contents ++ [a] := by
  unfold contents
  rw [size_push (by omega), List.range_succ, List.map_append]
  have hwrite : cell N (r.nread + UInt32.ofNat r.size) = cell N r.nwrite := by rw [← nwrite_eq]
  congr 1
  · apply List.map_congr_left
    intro j hj
    have hne := cell_ne hN r.nread (List.mem_range.mp hj) h
    rw [hwrite] at hne
    exact Function.update_of_ne hne _ _
  · have hlast : (r.push a).data (cell N (r.nread + UInt32.ofNat r.size)) = a := by
      rw [hwrite]
      exact Function.update_self _ _ _
    exact congrArg (fun x => [x]) hlast

/-- **A read takes from the front.** -/
theorem contents_pop (h : 0 < r.size) : r.contents = r.front :: r.pop.contents := by
  unfold contents
  rw [← size_pop h, List.range_succ_eq_map, List.map_cons, List.map_map]
  congr 1
  · simp [front]
  · apply List.map_congr_left
    intro j _
    have hj : r.nread + UInt32.ofNat (j + 1) = r.nread + 1 + UInt32.ofNat j := by
      rw [UInt32.ofNat_add]
      abel
    exact congrArg (fun i => r.data (cell N i)) hj

theorem contents_unpush (h : 0 < r.size) : r.unpush.contents = r.contents.dropLast := by
  unfold contents
  rw [← size_unpush h, List.range_succ, List.map_append, List.map_singleton, List.dropLast_concat]
  rfl

theorem contents_getElem? {j : Nat} (h : j < r.size) :
    r.contents[j]? = some (r.data (cell N (r.nread + UInt32.ofNat j))) := by
  unfold contents
  simp [h]

end Ring

end Xv6Mlfq.Lib
