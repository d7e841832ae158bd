import Mathlib

/-!
# Outcomes of fallible computations

`Sat r Q E`: the computation `r : Except ε α` either returns a value in `Q` or stops for a reason in
`E`. The rules below follow the shape of a program: `pure`, `bind`, a branch, a loop over a list. A
loop is handled by an invariant on the part of the list already visited (`Sat.foldlM`); a loop whose
pass at `i` changes the state at `i` only has the pointwise form `Sat.foldlM_pointwise`.
-/

namespace Xv6Mlfq.Lib

universe u

variable {ε ι γ : Type*} {α β σ : Type u}

/-- `r` returns a value in `Q`, or stops for a reason in `E`. -/
def Sat (r : Except ε α) (Q : α → Prop) (E : ε → Prop) : Prop :=
  match r with
  | .ok a => Q a
  | .error e => E e

instance (r : Except ε α) (Q : α → Prop) (E : ε → Prop) [DecidablePred Q] [DecidablePred E] :
    Decidable (Sat r Q E) :=
  match r with
  | .ok a => inferInstanceAs (Decidable (Q a))
  | .error e => inferInstanceAs (Decidable (E e))

@[simp] theorem sat_ok {a : α} {Q : α → Prop} {E : ε → Prop} :
    Sat (.ok a) Q E ↔ Q a := Iff.rfl

@[simp] theorem sat_pure {a : α} {Q : α → Prop} {E : ε → Prop} :
    Sat (pure a : Except ε α) Q E ↔ Q a := Iff.rfl

@[simp] theorem sat_error {e : ε} {Q : α → Prop} {E : ε → Prop} :
    Sat (.error e) Q E ↔ E e := Iff.rfl

theorem ok_of_ite {c : Prop} [Decidable c] {x y : α} {e : ε}
    (h : (if c then Except.ok x else Except.error e) = .ok y) : c ∧ y = x := by
  split_ifs at h with hc
  exact ⟨hc, (Except.ok.inj h).symm⟩

theorem bind_eq_ok {r : Except ε α} {f : α → Except ε β} {y : β} (h : r >>= f = .ok y) : ∃ x, r = .ok x ∧ f x = .ok y := by
  cases r with
  | error e => cases h
  | ok x => exact ⟨x, rfl, h⟩

namespace Sat

variable {r : Except ε α} {Q Q' : α → Prop} {E E' : ε → Prop}

theorem of_ok (h : Sat r Q E) {a : α} (hr : r = .ok a) : Q a := by
  subst hr
  exact h

theorem of_error (h : Sat r Q E) {e : ε} (hr : r = .error e) : E e := by
  subst hr
  exact h

theorem exists_ok (h : Sat r Q (fun _ => False)) : ∃ a, r = .ok a ∧ Q a := by
  cases r with
  | ok a => exact ⟨a, rfl, h⟩
  | error e => exact absurd h id

theorem eq_error {e : ε} (h : Sat r (fun _ => False) (fun e' => e' = e)) : r = .error e := by
  cases r with
  | ok a => exact absurd h id
  | error e' => rw [show e' = e from h]

theorem mono (h : Sat r Q E) (hQ : ∀ a, Q a → Q' a) (hE : ∀ e, E e → E' e) : Sat r Q' E' := by
  cases r with
  | ok a => exact hQ a h
  | error e => exact hE e h

theorem imp (h : Sat r Q E) (hQ : ∀ a, Q a → Q' a) : Sat r Q' E :=
  h.mono hQ fun _ he => he

theorem and (h : Sat r Q E) (h' : Sat r Q' E') :
    Sat r (fun a => Q a ∧ Q' a) (fun e => E e ∧ E' e) := by
  cases r with
  | ok a => exact ⟨h, h'⟩
  | error e => exact ⟨h, h'⟩

theorem of_true (r : Except ε α) : Sat r (fun _ => True) (fun _ => True) := by
  cases r <;> trivial

theorem bind {f : α → Except ε β} {P : β → Prop} (h : Sat r Q E)
    (hf : ∀ a, Q a → Sat (f a) P E) : Sat (r >>= f) P E := by
  cases r with
  | ok a => exact hf a h
  | error e => exact h

theorem ite {c : Prop} [Decidable c] {r' : Except ε α} (ht : c → Sat r Q E)
    (hf : ¬ c → Sat r' Q E) : Sat (if c then r else r') Q E := by
  split_ifs with hc
  · exact ht hc
  · exact hf hc

theorem foldlM {f : σ → ι → Except ε σ} (I : List ι → σ → Prop) (l : List ι)
    (hstep : ∀ pre i post s, l = pre ++ i :: post → I pre s → Sat (f s i) (I (pre ++ [i])) E) {s : σ}
    (hs : I [] s) : Sat (l.foldlM f s) (I l) E := by
  have key : ∀ (post pre : List ι) (s : σ), l = pre ++ post → I pre s →
      Sat (post.foldlM f s) (I l) E := by
    intro post
    induction post with
    | nil =>
      intro pre s hl hI
      rw [List.append_nil] at hl
      simpa [hl] using hI
    | cons i post ih =>
      intro pre s hl hI
      rw [List.foldlM_cons]
      refine Sat.bind (hstep pre i post s hl hI) fun s' hs' => ?_
      exact ih (pre ++ [i]) s' (by simp [hl]) hs'
  exact key l [] s rfl hs

/-- A loop over a duplicate-free list whose pass at `i` changes the view of the state at `i` only. -/
theorem foldlM_pointwise [DecidableEq ι] {f : σ → ι → Except ε σ} (I : σ → Prop) (view : σ → ι → γ)
    (g : ι → γ → γ) (hstep : ∀ i s, I s →
      Sat (f s i) (fun s' => I s' ∧ view s' = Function.update (view s) i (g i (view s i))) E)
    {l : List ι} (hl : l.Nodup) {s : σ} (hs : I s) :
    Sat (l.foldlM f s)
      (fun s' => I s' ∧ ∀ i, view s' i = if i ∈ l then g i (view s i) else view s i) E := by
  induction l generalizing s with
  | nil => simpa using hs
  | cons i l ih =>
    obtain ⟨hi, hl⟩ := List.nodup_cons.mp hl
    rw [List.foldlM_cons]
    refine Sat.bind (hstep i s hs) fun s₁ ⟨hs₁, hv⟩ => ?_
    refine (ih hl hs₁).imp fun s₂ ⟨hs₂, hv₂⟩ => ⟨hs₂, fun j => ?_⟩
    rw [hv₂ j, hv]
    by_cases hj : j = i
    · subst hj
      simp [hi]
    · simp [hj]

end Sat

end Xv6Mlfq.Lib
