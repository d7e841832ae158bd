import Xv6Mlfq.Lib.Outcome

/-!
# Programs over a state

`Prog σ ε α`: a program that reads and writes a state `σ` and returns an `α` or stops for a reason `ε`.
`Wp m s Q E` is its weakest precondition: from `s`, the program returns with `Q`, or stops for a reason in `E`.
The rules follow the program text: a step of the text is one `simp only` rule (`wp_bind`, `wp_look`, …), a call
is `Wp.bind` with the lemma about the callee, a loop over a list is `Wp.each` with an invariant on the part of
the list already visited. `Sim` compares two programs, each on a state of its own, step by step.
-/

namespace Xv6Mlfq.Lib

variable {σ ε ι α β : Type}

abbrev Prog (σ ε : Type) : Type → Type := StateT σ (Except ε)

def look (f : σ → α) : Prog σ ε α := fun s => .ok (f s, s)

def update (f : σ → σ) : Prog σ ε Unit := fun s => .ok ((), f s)

def stop (e : ε) : Prog σ ε α := fun _ => .error e

def each : List ι → (ι → Prog σ ε Unit) → Prog σ ε Unit
  | [], _ => pure ()
  | i :: l, f => do
    f i
    each l f

theorem bind_ok {m : Prog σ ε α} {f : α → Prog σ ε β} {s s' : σ} {a : α} (h : m s = .ok (a, s')) :
    (m >>= f) s = f a s' := by
  show (m s >>= fun r => f r.1 r.2) = _
  rw [h]
  rfl

theorem each_append {l l' : List ι} {f : ι → Prog σ ε Unit} {s s' : σ} (h : each l f s = .ok ((), s')) :
    each (l ++ l') f s = each l' f s' := by
  induction l generalizing s with
  | nil =>
    cases h
    rfl
  | cons i l ih =>
    show (f i >>= fun _ => each (l ++ l') f) s = _
    change (f i >>= fun _ => each l f) s = _ at h
    cases hi : f i s with
    | ok r =>
      rw [bind_ok hi] at h ⊢
      exact ih h
    | error e =>
      change (f i s >>= fun r => each l f r.2) = _ at h
      rw [hi] at h
      cases h

/-- From `s`, `m` returns with `Q` or stops with `E`. -/
def Wp (m : Prog σ ε α) (s : σ) (Q : α → σ → Prop) (E : ε → Prop) : Prop :=
  Sat (m s) (fun r => Q r.1 r.2) E

section rules

variable {m : Prog σ ε α} {f : α → Prog σ ε β} {s : σ} {Q Q' : α → σ → Prop} {R : β → σ → Prop}
  {E E' : ε → Prop}

@[simp] theorem wp_pure {a : α} : Wp (pure a : Prog σ ε α) s Q E ↔ Q a s := Iff.rfl

@[simp] theorem wp_look {g : σ → α} : Wp (look g : Prog σ ε α) s Q E ↔ Q (g s) s := Iff.rfl

@[simp] theorem wp_update {g : σ → σ} {Q : Unit → σ → Prop} :
    Wp (update g : Prog σ ε Unit) s Q E ↔ Q () (g s) := Iff.rfl

@[simp] theorem wp_stop {e : ε} : Wp (stop e : Prog σ ε α) s Q E ↔ E e := Iff.rfl

@[simp] theorem wp_bind : Wp (m >>= f) s R E ↔ Wp m s (fun a s' => Wp (f a) s' R E) E := by
  show Sat ((m s) >>= fun r => f r.1 r.2) _ _ ↔ _
  unfold Wp
  cases m s with
  | ok r => exact Iff.rfl
  | error e => exact Iff.rfl

theorem wp_ite {c : Prop} [Decidable c] {m' : Prog σ ε α} :
    Wp (if c then m else m') s Q E ↔ (c → Wp m s Q E) ∧ (¬ c → Wp m' s Q E) := by
  split_ifs with hc
  · exact ⟨fun h => ⟨fun _ => h, fun hn => absurd hc hn⟩, fun h => h.1 hc⟩
  · exact ⟨fun h => ⟨fun hp => absurd hp hc, fun _ => h⟩, fun h => h.2 hc⟩

namespace Wp

theorem mono (h : Wp m s Q E) (hQ : ∀ a s', Q a s' → Q' a s') (hE : ∀ e, E e → E' e) : Wp m s Q' E' :=
  Sat.mono h (fun r hr => hQ r.1 r.2 hr) hE

theorem imp (h : Wp m s Q E) (hQ : ∀ a s', Q a s' → Q' a s') : Wp m s Q' E := h.mono hQ fun _ he => he

theorem and (h : Wp m s Q E) (h' : Wp m s Q' E') :
    Wp m s (fun a s' => Q a s' ∧ Q' a s') (fun e => E e ∧ E' e) := Sat.and h h'

theorem keep {R : α → σ → Prop} (h : Wp m s Q E) (h' : Wp m s R fun _ => True) :
    Wp m s (fun a s' => Q a s' ∧ R a s') E :=
  (h.and h').mono (fun _ _ h => h) fun _ he => he.1

/-- A call: the rest of the program starts from what the lemma about the callee gives. -/
theorem bind (h : Wp m s Q E) (hf : ∀ a s', Q a s' → Wp (f a) s' R E) : Wp (m >>= f) s R E :=
  wp_bind.mpr (h.imp hf)

theorem ite {c : Prop} [Decidable c] {m' : Prog σ ε α} (ht : c → Wp m s Q E) (hf : ¬ c → Wp m' s Q E) :
    Wp (if c then m else m') s Q E := wp_ite.mpr ⟨ht, hf⟩

theorem of_ok (h : Wp m s Q E) {a : α} {s' : σ} (hm : m s = .ok (a, s')) : Q a s' := Sat.of_ok h hm

theorem of_error (h : Wp m s Q E) {e : ε} (hm : m s = .error e) : E e := Sat.of_error h hm

theorem call {a : α} {s' : σ} (hm : m s = .ok (a, s')) (h : Wp (f a) s' R E) : Wp (m >>= f) s R E := by
  unfold Wp
  rw [bind_ok hm]
  exact h

theorem of_eq {m' : Prog σ ε α} (he : m s = m' s) (h : Wp m' s Q E) : Wp m s Q E := by
  unfold Wp
  rw [he]
  exact h

theorem of_forall (h : ∀ a s', Q a s') : Wp m s Q fun _ => True := by
  unfold Wp
  cases m s with
  | ok r => exact h r.1 r.2
  | error e => trivial

theorem returns (h : Wp m s Q fun _ => False) : ∃ a s', m s = .ok (a, s') ∧ Q a s' := by
  cases hm : m s with
  | ok r => exact ⟨r.1, r.2, rfl, h.of_ok hm⟩
  | error e => exact (h.of_error hm).elim

theorem each {g : ι → Prog σ ε Unit} (I : List ι → σ → Prop) (l : List ι)
    (hstep : ∀ pre i post s, l = pre ++ i :: post → I pre s → Wp (g i) s (fun _ s' => I (pre ++ [i]) s') E)
    (hs : I [] s) : Wp (Lib.each l g) s (fun _ s' => I l s') E := by
  have key : ∀ (post pre : List ι) (s : σ), l = pre ++ post → I pre s →
      Wp (Lib.each post g) s (fun _ s' => I l s') E := by
    intro post
    induction post with
    | nil =>
      intro pre s hl hI
      rw [List.append_nil] at hl
      rw [hl]
      exact hI
    | cons i post ih =>
      intro pre s hl hI
      refine Wp.bind (hstep pre i post s hl hI) fun _ s' hs' => ?_
      exact ih (pre ++ [i]) s' (by simp [hl]) hs'
  exact key l [] s rfl hs

theorem range {g : Nat → Prog σ ε Unit} (I : Nat → σ → Prop) (n : Nat)
    (hstep : ∀ j s, j < n → I j s → Wp (g j) s (fun _ s' => I (j + 1) s') E) (hs : I 0 s) :
    Wp (Lib.each (List.range n) g) s (fun _ s' => I n s') E := by
  have hall : Wp (Lib.each (List.range n) g) s (fun _ s' => I (List.range n).length s') E := by
    refine Wp.each (fun pre s' => I pre.length s') _ (fun pre i post s' hl hI => ?_) hs
    -- the next index is the number of passes so far
    have hlt : pre.length < n := by
      have := congrArg List.length hl
      simp at this
      omega
    have hi : i = pre.length := by
      have := congrArg (fun l => l[pre.length]?) hl
      simp [hlt] at this
      omega
    subst hi
    simpa using hstep _ s' hlt hI
  simpa using hall

end Wp

end rules

/-! ## Simulation -/

section simulation

variable {τ δ γ α' β' : Type} {m : Prog σ ε α} {n : Prog τ δ α'} {f : α → Prog σ ε β} {g : α' → Prog τ δ β'} {s : σ} {t : τ}
  {R R' : α → α' → σ → τ → Prop} {Q : β → β' → σ → τ → Prop}

/-- Whenever `m` returns from `s`, `n` returns from `t`, and `R` holds of the results and the states. -/
def Sim (m : Prog σ ε α) (n : Prog τ δ α') (s : σ) (t : τ) (R : α → α' → σ → τ → Prop) : Prop :=
  Wp m s (fun a s' => Wp n t (fun b t' => R a b s' t') fun _ => False) fun _ => True

namespace Sim

theorem mono (h : Sim m n s t R) (hR : ∀ a b s' t', R a b s' t' → R' a b s' t') : Sim m n s t R' :=
  Wp.imp h fun a s' hn => hn.imp fun b t' => hR a b s' t'

theorem keep {P : α → σ → Prop} (h : Sim m n s t R) (hm : Wp m s P fun _ => True) :
    Sim m n s t fun a b s' t' => P a s' ∧ R a b s' t' := by
  refine (Wp.keep h hm).imp fun a s' ⟨hn, hp⟩ => hn.imp fun b t' hr => ⟨hp, hr⟩

theorem bind (h : Sim m n s t R) (hf : ∀ a b s' t', R a b s' t' → Sim (f a) (g b) s' t' Q) :
    Sim (m >>= f) (n >>= g) s t Q := by
  refine Wp.bind h fun a s' hn => ?_
  obtain ⟨b, t', ht, hr⟩ := hn.returns
  refine (hf a b s' t' hr).imp fun c s'' hg => ?_
  -- the second program has reached `t'`
  rw [wp_bind]
  show Sat (n t) _ _
  rw [ht]
  exact hg

theorem look_left {r : σ → γ} {f : γ → Prog σ ε α} (h : Sim (f (r s)) n s t R) : Sim (look r >>= f) n s t R :=
  wp_bind.mpr h

theorem look_right {r : τ → γ} {g : γ → Prog τ δ α'} (h : Sim m (g (r t)) s t R) : Sim m (look r >>= g) s t R :=
  Wp.imp h fun _ _ hn => wp_bind.mpr hn

theorem update_left {u : σ → σ} (h : Sim m n (u s) t R) : Sim (update u >>= fun _ => m) n s t R := wp_bind.mpr h

theorem update_right {u : τ → τ} (h : Sim m n s (u t) R) : Sim m (update u >>= fun _ => n) s t R :=
  Wp.imp h fun _ _ hn => wp_bind.mpr hn

theorem ite {c c' : Prop} [Decidable c] [Decidable c'] {m' : Prog σ ε α} {n' : Prog τ δ α'} (hc : c ↔ c')
    (ht : c → Sim m n s t R) (hf : ¬ c → Sim m' n' s t R) :
    Sim (if c then m else m') (if c' then n else n') s t R := by
  by_cases h : c
  · rw [if_pos h, if_pos (hc.mp h)]
    exact ht h
  · rw [if_neg h, if_neg (fun h' => h (hc.mpr h'))]
    exact hf h

theorem returns {E : ε → Prop} {P : α → σ → Prop} (h : Sim m n s t R) (hm : Wp m s P E) (hE : ∀ e, ¬ E e) :
    Wp n t (fun b t' => ∃ a s', P a s' ∧ R a b s' t') fun _ => False := by
  obtain ⟨a, s', ha, hp⟩ := (hm.mono (fun _ _ h => h) (fun e he => (hE e he : False))).returns
  exact (Wp.of_ok h ha).imp fun b t' hr => ⟨a, s', hp, hr⟩

end Sim

end simulation

/-! ## Frames -/

/-- `m` neither reads nor writes what `g` changes: it does the same before and after `g`. -/
def Commutes (g : σ → σ) (m : Prog σ ε α) : Prop := ∀ s, m (g s) = (m s).map fun r => (r.1, g r.2)

namespace Commutes

variable {g : σ → σ} {m m' : Prog σ ε α} {s : σ} {Q : α → σ → Prop} {E : ε → Prop}

theorem pure (a : α) : Commutes g (Pure.pure a : Prog σ ε α) := fun _ => rfl

theorem stop (e : ε) : Commutes g (Lib.stop e : Prog σ ε α) := fun _ => rfl

theorem look {f : σ → α} (h : ∀ s, f (g s) = f s) : Commutes g (Lib.look f : Prog σ ε α) := by
  intro s
  show Except.ok (f (g s), g s) = _
  rw [h]
  rfl

theorem update {u : σ → σ} (h : ∀ s, u (g s) = g (u s)) : Commutes g (Lib.update u : Prog σ ε Unit) := by
  intro s
  show Except.ok ((), u (g s)) = _
  rw [h]
  rfl

theorem bind {f : α → Prog σ ε β} (hm : Commutes g m) (hf : ∀ a, Commutes g (f a)) : Commutes g (m >>= f) := by
  intro s
  show (m (g s) >>= fun r => f r.1 r.2) = (m s >>= fun r => f r.1 r.2).map _
  rw [hm s]
  cases m s with
  | ok r => exact hf r.1 r.2
  | error e => rfl

theorem ite {c : Prop} [Decidable c] (hm : Commutes g m) (hm' : Commutes g m') : Commutes g (if c then m else m') := by
  split_ifs
  · exact hm
  · exact hm'

theorem wp (h : Commutes g m) (hw : Wp m (g s) Q E) : Wp m s (fun a s' => Q a (g s')) E := by
  unfold Wp at hw ⊢
  rw [h s] at hw
  cases hm : m s with
  | ok r =>
    rw [hm] at hw
    exact hw
  | error e =>
    rw [hm] at hw
    exact hw

theorem fixed (h : Commutes g m) (hs : g s = s) : Wp m s (fun _ s' => g s' = s') fun _ => True := by
  have hm := h s
  rw [hs] at hm
  unfold Wp
  cases hr : m s with
  | ok r =>
    rw [hr] at hm
    exact (congrArg Prod.snd (Except.ok.inj hm)).symm
  | error e => trivial

end Commutes

end Xv6Mlfq.Lib
