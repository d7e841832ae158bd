import Mathlib.Data.List.Basic

/-!
# Lists through a memory

`Linked mem cell last l`: the cells of `l`, each an address with a content, lie in `mem`, each holding the address
of the next one, and the final one holding `last`. A circular list is one whose `last` is its own first address.
The rules are about segments: a list is linked when its two parts are (`linked_append`), and a write elsewhere
leaves a segment as it is (`Linked.frame`).
-/

namespace Xv6Mlfq.Lib

variable {κ ν μ : Type}

/-- The address of the first cell, or `last`. -/
def next (last : κ) : List (κ × ν) → κ
  | [] => last
  | x :: _ => x.1

def Linked (mem : κ → μ) (cell : κ → ν → μ) (last : κ) : List (κ × ν) → Prop
  | [] => True
  | x :: r => mem x.1 = cell (next last r) x.2 ∧ Linked mem cell last r

variable {mem mem' : κ → μ} {cell : κ → ν → μ} {last : κ} {l r : List (κ × ν)} {x : κ × ν}

@[simp] theorem next_nil : next last ([] : List (κ × ν)) = last := rfl

@[simp] theorem next_cons : next last (x :: r) = x.1 := rfl

@[simp] theorem linked_nil : Linked mem cell last [] := trivial

@[simp] theorem linked_cons :
    Linked mem cell last (x :: r) ↔ mem x.1 = cell (next last r) x.2 ∧ Linked mem cell last r := Iff.rfl

theorem next_append : next last (l ++ r) = next (next last r) l := by
  cases l with
  | nil => rfl
  | cons x l => rfl

theorem linked_append :
    Linked mem cell last (l ++ r) ↔ Linked mem cell (next last r) l ∧ Linked mem cell last r := by
  induction l with
  | nil => simp
  | cons x l ih =>
    rw [List.cons_append, linked_cons, linked_cons, ih, next_append, and_assoc]

theorem Linked.frame (h : Linked mem cell last l) (hmem : ∀ x ∈ l, mem' x.1 = mem x.1) :
    Linked mem' cell last l := by
  induction l with
  | nil => trivial
  | cons x l ih =>
    refine ⟨?_, ih h.2 fun y hy => hmem y (List.mem_cons_of_mem x hy)⟩
    rw [hmem x List.mem_cons_self]
    exact h.1

theorem Linked.mem_eq (h : Linked mem cell last (l ++ x :: r)) : mem x.1 = cell (next last r) x.2 :=
  (linked_append.mp h).2.1

theorem Linked.rotate (h : Linked mem cell last (l ++ x :: r)) (hlast : next x.1 l = last) :
    Linked mem cell x.1 (r ++ l) ∧ mem x.1 = cell (next x.1 (r ++ l)) x.2 := by
  obtain ⟨hl, hx, hr⟩ := linked_append.mp h
  rw [next_append, hlast]
  exact ⟨linked_append.mpr ⟨hlast ▸ hr, hl⟩, hx⟩

end Xv6Mlfq.Lib
