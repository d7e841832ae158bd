import Xv6Mlfq.Lib.Outcome

/-!
# Runs of a transition function

A transition function `step : σ → α → Except ε σ` takes a state and an action to the next state, or
stops. `Run step s₀ h s`: from `s₀` the actions recorded in the history `h` lead to `s`; the history
holds each state together with the action taken there, the latest first. A step that stops adds
nothing: the run ends there.

`exec` takes a list of actions; what it returns is a run (`exists_run_of_exec`), so a run can be
exhibited by evaluation. `Run.induct` is the invariant rule: what one step preserves, a whole run
preserves, possibly under a condition `C` that every step of the run meets (`Always C h`).
-/

namespace Xv6Mlfq.Lib

variable {σ α ε : Type*}

/-- The states reached from `s₀`, with their history. -/
inductive Run (step : σ → α → Except ε σ) (s₀ : σ) : List (σ × α) → σ → Prop
  | start : Run step s₀ [] s₀
  | next {h : List (σ × α)} {s s' : σ} {a : α} :
      Run step s₀ h s → step s a = .ok s' → Run step s₀ ((s, a) :: h) s'

def Always (C : σ → α → Prop) (h : List (σ × α)) : Prop := ∀ x ∈ h, C x.1 x.2

variable {step : σ → α → Except ε σ} {s₀ s s' : σ} {h : List (σ × α)} {a : α}

@[simp] theorem always_nil {C : σ → α → Prop} : Always C [] := by
  intro x hx
  cases hx

@[simp] theorem always_cons {C : σ → α → Prop} :
    Always C ((s, a) :: h) ↔ C s a ∧ Always C h := by
  simp [Always]

namespace Run

/-- What holds at the start and is kept by every step that meets `C` holds along every run whose
steps all meet `C`. -/
theorem induct_of {C : σ → α → Prop} {I : σ → Prop} (hr : Run step s₀ h s) (hC : Always C h)
    (h₀ : I s₀) (hstep : ∀ s a s', I s → C s a → step s a = .ok s' → I s') : I s := by
  induction hr with
  | start => exact h₀
  | next _ hs ih =>
    obtain ⟨hc, hC⟩ := always_cons.mp hC
    exact hstep _ _ _ (ih hC) hc hs

theorem induct {I : σ → Prop} (hr : Run step s₀ h s) (h₀ : I s₀)
    (hstep : ∀ s a s', I s → step s a = .ok s' → I s') : I s :=
  hr.induct_of (C := fun _ _ => True) (fun _ _ => trivial) h₀
    fun s a s' hI _ hs => hstep s a s' hI hs

theorem append {w : List (σ × α)} (hr : Run step s₀ h s) (hw : Run step s w s') :
    Run step s₀ (w ++ h) s' := by
  induction hw with
  | start => exact hr
  | next _ hs ih => exact ih.next hs

end Run

/-- Take a list of actions from a state, adding to its history. -/
def exec (step : σ → α → Except ε σ) : List (σ × α) → σ → List α → Except ε (List (σ × α) × σ)
  | h, s, [] => .ok (h, s)
  | h, s, a :: as =>
    match step s a with
    | .ok s' => exec step ((s, a) :: h) s' as
    | .error e => .error e

theorem Run.exec (hr : Run step s₀ h s) (as : List α) :
    Sat (exec step h s as) (fun r => Run step s₀ r.1 r.2) (fun _ => True) := by
  induction as generalizing h s with
  | nil => exact hr
  | cons a as ih =>
    unfold Lib.exec
    cases hs : step s a with
    | ok s' => exact ih (hr.next hs)
    | error e => trivial

theorem exists_run_of_exec (step : σ → α → Except ε σ) (s₀ : σ) {P : List (σ × α) → σ → Prop} (as : List α)
    (h : Sat (exec step [] s₀ as) (fun r => P r.1 r.2) (fun _ => False)) :
    ∃ h s, Run step s₀ h s ∧ P h s := by
  obtain ⟨r, hr, hP⟩ := h.exists_ok
  have hrun : Run step s₀ r.1 r.2 := (Run.start.exec as).of_ok hr
  exact ⟨r.1, r.2, hrun, hP⟩

/-! ## Sums over the parties of a state -/

theorem sum_update {ι : Type} [Fintype ι] [DecidableEq ι] {M : Type} [AddCommMonoid M] {β : Type} (g : ι → β)
    (r : β → M) (i : ι) (y : β) : ∑ j, r (Function.update g i y j) + r (g i) = ∑ j, r (g j) + r y := by
  rw [← Finset.add_sum_erase _ _ (Finset.mem_univ i), ← Finset.add_sum_erase _ (fun j => r (g j)) (Finset.mem_univ i),
    Function.update_self]
  have hrest : ∑ j ∈ Finset.univ.erase i, r (Function.update g i y j) = ∑ j ∈ Finset.univ.erase i, r (g j) := by
    refine Finset.sum_congr rfl fun j hj => ?_
    rw [Function.update_of_ne (Finset.ne_of_mem_erase hj)]
  rw [hrest]
  abel

end Xv6Mlfq.Lib
