import Mathlib.Data.List.Basic
import Mathlib.Data.List.Nodup
import Xv6Mlfq.Shell.Model

/-!
# Words and tokens

The words of a line are its maximal runs of characters that are neither whitespace nor symbols. `Covers p p' T` says
that `T` holds the words that start between the positions `p` and `p'`, each once; it composes over adjacent
stretches of the line. `gettoken` and `peek` cover the stretch they move over: a token is a word, a symbol or the
end of the line.
-/

namespace Xv6Mlfq.Shell

open Lib

/-- A string of `es` characters, with its NUL. -/
structure Terminated (buf : List UInt8) (es : Nat) : Prop where
  nul : buf[es]? = some 0
  chars : ∀ i < es, ∃ c, buf[i]? = some c ∧ c ≠ 0

section

variable {buf : List UInt8} {es : Nat}

def InWord (buf : List UInt8) (es i : Nat) : Prop := i < es ∧ ∃ c, buf[i]? = some c ∧ isWord c = true

/-- A word, from its first character to the one after its last. -/
structure WordAt (buf : List UInt8) (es : Nat) (x : Nat × Nat) : Prop where
  lt : x.1 < x.2
  inside : ∀ i, x.1 ≤ i → i < x.2 → InWord buf es i
  left : x.1 = 0 ∨ ¬ InWord buf es (x.1 - 1)
  right : ¬ InWord buf es x.2

def Cut (buf : List UInt8) (es p : Nat) : Prop := p ≤ es ∧ (p = 0 ∨ ¬ InWord buf es (p - 1) ∨ ¬ InWord buf es p)

/-- The words that start between `p` and `p'`. -/
def Covers (buf : List UInt8) (es p p' : Nat) (T : List (Nat × Nat)) : Prop :=
  T.Nodup ∧ ∀ x, x ∈ T ↔ WordAt buf es x ∧ p ≤ x.1 ∧ x.1 < p'

variable {p q e p' p'' : Nat} {T T' : List (Nat × Nat)} {x y : Nat × Nat}

/-! ## Words -/

theorem WordAt.le (h : WordAt buf es x) : x.2 ≤ es := by
  have hlt := h.lt
  have := (h.inside (x.2 - 1) (by omega) (by omega)).1
  omega

theorem WordAt.eq_of_start (h : WordAt buf es x) (h' : WordAt buf es y) (hxy : x.1 = y.1) : x = y := by
  have hlt := h.lt
  have hlt' := h'.lt
  refine Prod.ext hxy ?_
  by_contra hne
  rcases Nat.lt_or_gt_of_ne hne with hc | hc
  · exact h.right (h'.inside x.2 (by omega) hc)
  · exact h'.right (h.inside y.2 (by omega) hc)

theorem Cut.of_not (hp : p ≤ es) (h : ¬ InWord buf es p) : Cut buf es p := ⟨hp, .inr (.inr h)⟩

theorem covers_blank (h : ∀ i, p ≤ i → i < p' → ¬ InWord buf es i) : Covers buf es p p' [] := by
  refine ⟨List.nodup_nil, fun x => ⟨fun hx => absurd hx List.not_mem_nil, fun ⟨hx, hlo, hhi⟩ => ?_⟩⟩
  exact absurd (hx.inside x.1 (le_refl _) hx.lt) (h x.1 hlo hhi)

theorem covers_word (h : WordAt buf es x) : Covers buf es x.1 x.2 [x] := by
  refine ⟨List.nodup_singleton x, fun y => ⟨fun hy => ?_, fun ⟨hy, hlo, hhi⟩ => ?_⟩⟩
  · rw [List.mem_singleton.mp hy]
    exact ⟨h, le_refl _, h.lt⟩
  · -- a word that started later would be preceded by a character of this one
    have hstart : y.1 = x.1 := by
      by_contra hne
      rcases hy.left with h0 | hleft
      · omega
      · exact hleft (h.inside (y.1 - 1) (by omega) (by omega))
    exact List.mem_singleton.mpr (hy.eq_of_start h hstart)

theorem Covers.append (h : Covers buf es p p' T) (h' : Covers buf es p' p'' T') (hp : p ≤ p') (hp' : p' ≤ p'') :
    Covers buf es p p'' (T ++ T') := by
  refine ⟨List.nodup_append'.mpr ⟨h.1, h'.1, fun x hx hx' => ?_⟩, fun x => ?_⟩
  · have := ((h.2 x).mp hx).2.2
    have := ((h'.2 x).mp hx').2.1
    omega
  · rw [List.mem_append, h.2, h'.2]
    constructor
    · rintro (⟨hx, hlo, hhi⟩ | ⟨hx, hlo, hhi⟩)
      · exact ⟨hx, hlo, hhi.trans_le hp'⟩
      · exact ⟨hx, hp.trans hlo, hhi⟩
    · rintro ⟨hx, hlo, hhi⟩
      rcases Nat.lt_or_ge x.1 p' with hlt | hge
      · exact .inl ⟨hx, hlo, hlt⟩
      · exact .inr ⟨hx, hge, hhi⟩

theorem Covers.perm (h : Covers buf es p p' T) (hT : T.Perm T') : Covers buf es p p' T' :=
  ⟨hT.nodup_iff.mp h.1, fun x => hT.mem_iff.symm.trans (h.2 x)⟩

/-! ## Scanning -/

variable {E : Stop → Prop} {s : Nat}

theorem wp_load {c : UInt8} {Q : UInt8 → Nat → Prop} {i : Nat} (hc : buf[i]? = some c) :
    Wp (load buf i) s Q E ↔ Q c s := by
  unfold load
  rw [hc]
  exact wp_pure

theorem Terminated.load (h : Terminated buf es) {i : Nat} (hi : i ≤ es) : ∃ c, buf[i]? = some c ∧ (c = 0 ↔ i = es) := by
  rcases Nat.lt_or_ge i es with hlt | hge
  · obtain ⟨c, hc, hne⟩ := h.chars i hlt
    exact ⟨c, hc, iff_of_false hne (by omega)⟩
  · have hie : i = es := by omega
    exact ⟨0, hie ▸ h.nul, iff_of_true rfl hie⟩

theorem skip_spec (h : Terminated buf es) (f : UInt8 → Bool) (n : Nat) :
    ∀ p, p + n = es → Wp (skip buf f n p) s (fun p' s' => s' = s ∧ p ≤ p' ∧ p' ≤ es ∧
      (∀ i, p ≤ i → i < p' → ∃ c, buf[i]? = some c ∧ f c = true) ∧
      (p' < es → ∃ c, buf[p']? = some c ∧ f c = false)) E := by
  induction n with
  | zero =>
    intro p hp
    exact ⟨rfl, le_refl _, by omega, fun i _ _ => by omega, fun _ => by omega⟩
  | succ n ih =>
    intro p hp
    obtain ⟨c, hc, -⟩ := h.chars p (by omega)
    rw [skip, wp_bind, wp_load hc]
    refine Wp.ite (fun hf => ?_) fun hf => ?_
    · refine (ih (p + 1) (by omega)).imp fun p' s' ⟨hs, hlo, hhi, hall, hend⟩ => ?_
      refine ⟨hs, by omega, hhi, fun i hpi hi => ?_, hend⟩
      rcases Nat.eq_or_lt_of_le hpi with rfl | hlt
      · exact ⟨c, hc, hf⟩
      · exact hall i hlt hi
    · exact wp_pure.mpr ⟨rfl, le_refl _, by omega, fun i _ _ => by omega, fun _ => ⟨c, hc, by simpa using hf⟩⟩

theorem not_inWord_of_space {c : UInt8} (hc : buf[p]? = some c) (hs : isSpace c = true) : ¬ InWord buf es p := by
  rintro ⟨-, d, hd, hw⟩
  cases hc.symm.trans hd
  unfold isWord at hw
  unfold isSpace at hs
  simp [hs] at hw

theorem not_inWord_of_symbol {c : UInt8} (hc : buf[p]? = some c) (hs : c ∈ symbols) : ¬ InWord buf es p := by
  rintro ⟨-, d, hd, hw⟩
  cases hc.symm.trans hd
  unfold isWord strchr at hw
  simp [hs] at hw

theorem space_spec (h : Terminated buf es) (hp : Cut buf es p) :
    Wp (skip buf isSpace (es - p) p) s (fun p' s' => s' = s ∧ p ≤ p' ∧ Cut buf es p' ∧ Covers buf es p p' [] ∧
      (∃ c, buf[p']? = some c ∧ isSpace c = false ∧ (c = 0 ↔ p' = es)) ∧
      ∀ c, buf[p]? = some c → isSpace c = false → p' = p) E := by
  refine (skip_spec h isSpace (es - p) p (by have := hp.1; omega)).imp fun p' s' ⟨hs, hlo, hhi, hall, hend⟩ => ?_
  have hblank : ∀ i, p ≤ i → i < p' → ¬ InWord buf es i := by
    intro i hpi hi
    obtain ⟨c, hc, hf⟩ := hall i hpi hi
    exact not_inWord_of_space hc hf
  refine ⟨hs, hlo, ⟨hhi, ?_⟩, covers_blank hblank, ?_, fun c hc hf => ?_⟩
  · rcases Nat.eq_or_lt_of_le hlo with heq | hlt
    · exact heq ▸ hp.2
    · exact .inr (.inl (hblank (p' - 1) (by omega) (by omega)))
  · obtain ⟨c, hc, hz⟩ := h.load hhi
    refine ⟨c, hc, ?_, hz⟩
    rcases Nat.eq_or_lt_of_le hhi with heq | hlt
    · rw [hz.mpr heq]
      decide
    · obtain ⟨d, hd, hf⟩ := hend hlt
      cases hc.symm.trans hd
      exact hf
  · by_contra hne
    obtain ⟨d, hd, hd'⟩ := hall p (le_refl _) (by omega)
    cases hc.symm.trans hd
    rw [hf] at hd'
    cases hd'

/-- `peek` moves to the next token and tells whether it is one of the symbols asked for. -/
theorem peek_spec (h : Terminated buf es) (toks : List Char) (hp : Cut buf es p) :
    Wp (peek buf es toks) p (fun b p' => p ≤ p' ∧ Cut buf es p' ∧ Covers buf es p p' [] ∧
      (b = true → ∃ c ∈ toks.map ch, buf[p']? = some c)) E := by
  rw [peek, wp_bind, wp_look]
  refine Wp.bind (space_spec h hp) fun p' s' ⟨_, hlo, hcut, hcov, ⟨c, hc, _⟩, _⟩ => ?_
  rw [wp_bind, wp_update, wp_bind, wp_load hc, wp_pure]
  refine ⟨hlo, hcut, hcov, fun hb => ⟨c, ?_, hc⟩⟩
  have hmem := (Bool.and_eq_true_iff.mp hb).2
  unfold strchr at hmem
  simpa using hmem

/-- What `gettoken` found between `p` and `p'`. -/
inductive Token (buf : List UInt8) (es p p' : Nat) : UInt8 × Nat × Nat → Prop
  | nul {q e : Nat} (hend : p' = es) (hcov : Covers buf es p p' []) : Token buf es p p' (0, q, e)
  | word {q e : Nat} (hlt : p < p') (hcov : Covers buf es p p' [(q, e)]) : Token buf es p p' (ch 'a', q, e)
  | symbol {t : UInt8} {q e : Nat} (hlt : p < p') (ht : t ≠ 0 ∧ t ≠ ch 'a') (hcov : Covers buf es p p' []) :
      Token buf es p p' (t, q, e)

theorem Token.pad {r : UInt8 × Nat × Nat} (h : Token buf es q e r) (hpq : Covers buf es p q []) (hlo : p ≤ q)
    (hep : Covers buf es e p' []) (hhi : e ≤ p') (hqe : q ≤ e) (hp' : p' ≤ es) : Token buf es p p' r := by
  have hcov : ∀ {T}, Covers buf es q e T → Covers buf es p p' T := by
    intro T hT
    have := (hpq.append hT hlo hqe).append hep (hlo.trans hqe) hhi
    rwa [List.nil_append, List.append_nil] at this
  cases h with
  | nul hend hc => exact .nul (by omega) (hcov hc)
  | word hlt hc => exact .word (by omega) (hcov hc)
  | symbol hlt ht hc => exact .symbol (by omega) ht (hcov hc)

theorem symbol_ne {c : UInt8} (hc : c ∈ symbols) : c ≠ 0 ∧ c ≠ ch 'a' := by
  have hall : ∀ c ∈ symbols, c ≠ 0 ∧ c ≠ ch 'a' := by decide +kernel
  exact hall c hc

theorem not_space_of_symbol {c : UInt8} (hc : c ∈ symbols) : isSpace c = false := by
  have hall : ∀ c ∈ symbols, isSpace c = false := by decide +kernel
  exact hall c hc

theorem mem_symbols_iff {c : UInt8} : c ∈ symbols ↔ c ∈ ['|', '(', ')', ';', '&', '<'].map ch ∨ c = ch '>' := by
  simp only [symbols, List.map_cons, List.map_nil, List.mem_cons, List.not_mem_nil, or_false]
  tauto

theorem symbol_step {c : UInt8} (hc : buf[p]? = some c) (hs : c ∈ symbols) (hp : p < es) :
    Cut buf es (p + 1) ∧ Covers buf es p (p + 1) [] := by
  have hnot : ¬ InWord buf es p := not_inWord_of_symbol hc hs
  refine ⟨⟨hp, .inr (.inl hnot)⟩, covers_blank fun i hlo hhi => ?_⟩
  have : i = p := by omega
  rw [this]
  exact hnot

theorem token_spec (h : Terminated buf es) {c : UInt8} (hq : Cut buf es q) (hc : buf[q]? = some c)
    (hsp : isSpace c = false) (hz : c = 0 ↔ q = es) :
    Wp (token buf es c q) s (fun r s' => s' = s ∧ q ≤ r.2 ∧ Cut buf es r.2 ∧ Token buf es q r.2 (r.1, q, r.2) ∧
      (c ∈ symbols → r.1 ≠ 0 ∧ r.1 ≠ ch 'a' ∧ (r.1 = c ∨ c = ch '>' ∧ r.1 = ch '+'))) E := by
  rw [token]
  refine Wp.ite (fun h0 => ?_) fun hne => ?_
  · rw [wp_pure, h0]
    refine ⟨rfl, le_refl _, hq, .nul (hz.mp h0) (covers_blank fun i hlo hhi => ?_), fun hs => ?_⟩
    · exact absurd hhi (Nat.not_lt.mpr hlo)
    · exact absurd rfl (symbol_ne hs).1
  have hlt : q < es := by
    have := hq.1
    have : q ≠ es := fun heq => hne (hz.mpr heq)
    omega
  -- a symbol of one character
  have hone : c ∈ symbols → (s = s ∧ q ≤ q + 1 ∧ Cut buf es (q + 1) ∧ Token buf es q (q + 1) (c, q, q + 1) ∧
      (c ∈ symbols → c ≠ 0 ∧ c ≠ ch 'a' ∧ (c = c ∨ c = ch '>' ∧ c = ch '+'))) := by
    intro hs
    obtain ⟨hcut, hcov⟩ := symbol_step hc hs hlt
    have hs' := symbol_ne hs
    exact ⟨rfl, by omega, hcut, .symbol (by omega) hs' hcov, fun _ => ⟨hs'.1, hs'.2, .inl rfl⟩⟩
  refine Wp.ite (fun hsym => wp_pure.mpr (hone (mem_symbols_iff.mpr (.inl hsym)))) fun hnsym => ?_
  refine Wp.ite (fun hgt => ?_) fun hngt => ?_
  · have hs : c ∈ symbols := mem_symbols_iff.mpr (.inr hgt)
    obtain ⟨d, hd, hdz⟩ := h.load (i := q + 1) hlt
    rw [wp_bind, wp_load hd]
    refine Wp.ite (fun hdd => ?_) fun _ => wp_pure.mpr (hone hs)
    -- `>>`
    have hds : d ∈ symbols := mem_symbols_iff.mpr (.inr hdd)
    have hlt' : q + 1 < es := by
      have : q + 1 ≠ es := fun heq => (symbol_ne hds).1 (hdz.mpr heq)
      omega
    obtain ⟨-, hcov⟩ := symbol_step hc hs hlt
    obtain ⟨hcut, hcov'⟩ := symbol_step hd hds hlt'
    have hplus : ch '+' ≠ 0 ∧ ch '+' ≠ ch 'a' := by decide +kernel
    exact ⟨rfl, by show q ≤ q + 2; omega, hcut, .symbol (by show q < q + 2; omega) hplus
      (hcov.append hcov' (Nat.le_succ q) (Nat.le_succ (q + 1))), fun _ => ⟨hplus.1, hplus.2, .inr ⟨hgt, rfl⟩⟩⟩
  · have hns : c ∉ symbols := fun hs => (mem_symbols_iff.mp hs).elim hnsym hngt
    have hwc : isWord c = true := by
      unfold isWord strchr
      unfold isSpace strchr at hsp
      simp [hns] at hsp ⊢
      exact hsp
    rw [wp_bind]
    refine (skip_spec h isWord (es - q) q (by omega)).imp fun e s' ⟨hs, hlo, hhi, hall, hend⟩ => ?_
    have hqe : q < e := by
      rcases Nat.eq_or_lt_of_le hlo with heq | hlt'
      · obtain ⟨d, hd, hf⟩ := hend (heq ▸ hlt)
        rw [← heq] at hd
        cases hc.symm.trans hd
        rw [hwc] at hf
        cases hf
      · exact hlt'
    have hnot : ¬ InWord buf es e := by
      rintro ⟨helt, d, hd, hw⟩
      obtain ⟨d', hd', hf⟩ := hend helt
      cases hd.symm.trans hd'
      rw [hw] at hf
      cases hf
    have hin : ∀ i, q ≤ i → i < e → InWord buf es i := fun i hqi hie => ⟨by omega, hall i hqi hie⟩
    have hword : WordAt buf es (q, e) := by
      refine ⟨hqe, hin, ?_, hnot⟩
      rcases hq.2 with h0 | hleft | hself
      · exact .inl h0
      · exact .inr hleft
      · exact absurd (hin q (le_refl _) hqe) hself
    exact ⟨hs, hlo, .of_not hhi hnot, .word hqe (covers_word hword), fun h => absurd h hns⟩

theorem gettoken_spec (h : Terminated buf es) (hp : Cut buf es p) :
    Wp (gettoken buf es) p (fun r p' => p ≤ p' ∧ Cut buf es p' ∧ Token buf es p p' r ∧
      ∀ c, buf[p]? = some c → c ∈ symbols → r.1 ≠ 0 ∧ r.1 ≠ ch 'a' ∧ (r.1 = c ∨ c = ch '>' ∧ r.1 = ch '+')) E := by
  rw [gettoken, wp_bind, wp_look, id_eq]
  refine Wp.bind (space_spec h hp) fun q s' ⟨_, hlo, hcut, hcov, ⟨c, hc, hsp, hz⟩, hstay⟩ => ?_
  rw [wp_bind, wp_load hc]
  refine Wp.bind (token_spec h hcut hc hsp hz) fun r s'' ⟨_, hqe, hcute, htok, hsym⟩ => ?_
  refine Wp.bind (space_spec h hcute) fun p' _ ⟨_, hep, hcut', hcov', _⟩ => ?_
  rw [wp_bind, wp_update, wp_pure]
  refine ⟨by omega, hcut', htok.pad hcov hlo hcov' hep hqe hcut'.1, fun d hd hds => ?_⟩
  -- at a symbol there is no whitespace to skip
  obtain rfl : q = p := hstay d hd (not_space_of_symbol hds)
  cases hc.symm.trans hd
  exact hsym hds

end

end Xv6Mlfq.Shell
