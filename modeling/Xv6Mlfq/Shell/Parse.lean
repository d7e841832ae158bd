import Xv6Mlfq.Shell.Tokens

/-!
# The parser keeps every word

Each function of the parser builds a tree whose words are those of the stretch of the line it moved over
(`Parsed`). `nulterminate` then writes only behind words, where no word has a character, so that every pointer of the
tree reads its word.
-/

namespace Xv6Mlfq.Shell

open Lib

/-! ## Trees -/

/-- The array that holds the pointers `l`, null behind them. -/
def pad (l : List Nat) : List (Option Nat) := l.map some ++ List.replicate (MAXARGS - l.length) none

/-- The tree `cmd` was built from the words `T`. -/
inductive Built : Cmd → List (Nat × Nat) → Prop
  | exec {T : List (Nat × Nat)} (hlen : T.length < MAXARGS) (hsorted : T.Pairwise fun x y => x.1 < y.1) :
      Built (.exec (pad (T.map Prod.fst)) (pad (T.map Prod.snd))) T
  | redir {cmd : Cmd} {T : List (Nat × Nat)} {q e mode fd : Nat} (h : Built cmd T) :
      Built (.redir cmd q e mode fd) (T ++ [(q, e)])
  | pipe {left right : Cmd} {T T' : List (Nat × Nat)} (h : Built left T) (h' : Built right T') :
      Built (.pipe left right) (T ++ T')
  | list {left right : Cmd} {T T' : List (Nat × Nat)} (h : Built left T) (h' : Built right T') :
      Built (.list left right) (T ++ T')
  | back {cmd : Cmd} {T : List (Nat × Nat)} (h : Built cmd T) : Built (.back cmd) T

theorem pad_set_none {l : List Nat} (h : l.length < MAXARGS) : (pad l).set l.length none = pad l := by
  obtain ⟨k, hk⟩ : ∃ k, MAXARGS - l.length = k + 1 := ⟨MAXARGS - l.length - 1, by omega⟩
  unfold pad
  rw [hk, List.replicate_succ, List.set_append_right _ _ (by simp)]
  simp

theorem pad_set_some {l : List Nat} {q : Nat} (h : l.length < MAXARGS) :
    (pad l).set l.length (some q) = pad (l ++ [q]) := by
  obtain ⟨k, hk⟩ : ∃ k, MAXARGS - l.length = k + 1 := ⟨MAXARGS - l.length - 1, by omega⟩
  have hk' : MAXARGS - (l ++ [q]).length = k := by
    rw [List.length_append, List.length_singleton]
    omega
  unfold pad
  rw [hk, hk', List.replicate_succ, List.set_append_right _ _ (by simp)]
  simp

def files (rs : List Redir) : List (Nat × Nat) := rs.map fun r => (r.file, r.efile)

theorem Built.around {cmd : Cmd} {T : List (Nat × Nat)} (h : Built cmd T) (rs : List Redir) :
    Built (cmd.around rs) (T ++ files rs) := by
  induction rs generalizing cmd T with
  | nil =>
    rw [show files [] = [] from rfl, List.append_nil]
    exact h
  | cons r rs ih =>
    have hr : Built (.redir cmd r.file r.efile r.mode r.fd) (T ++ [(r.file, r.efile)]) := h.redir
    have := ih hr
    rwa [List.append_assoc] at this

/-! ## Parsing -/

section parse

variable {buf : List UInt8} {es p p' : Nat}

def Panics (e : Stop) : Prop := ∃ msg, e = .panic msg

/-- The tree was built from the words between `p` and `p'`. -/
def Parsed (buf : List UInt8) (es p : Nat) (cmd : Cmd) (p' : Nat) : Prop :=
  p ≤ p' ∧ Cut buf es p' ∧ ∃ T, Built cmd T ∧ Covers buf es p p' T

theorem Token.of_word {r : UInt8 × Nat × Nat} (h : Token buf es p p' r) (hr : r.1 = ch 'a') :
    p < p' ∧ Covers buf es p p' [r.2] := by
  cases h with
  | nul => exact absurd (show (0 : UInt8) = ch 'a' from hr) (by decide +kernel)
  | word hlt hcov => exact ⟨hlt, hcov⟩
  | symbol _ ht _ => exact absurd hr ht.2

theorem gettoken_symbol (h : Terminated buf es) (hp : Cut buf es p) {c : UInt8} (hc : buf[p]? = some c) (hs : c ∈ symbols) :
    Wp (gettoken buf es) p (fun r p' => p < p' ∧ Cut buf es p' ∧ Covers buf es p p' [] ∧
      (r.1 = c ∨ c = ch '>' ∧ r.1 = ch '+')) Panics := by
  refine (gettoken_spec h hp).imp fun r p' ⟨_, hcut, htok, hsym⟩ => ?_
  obtain ⟨h0, ha, hr⟩ := hsym c hc hs
  cases htok with
  | nul => exact absurd rfl h0
  | word => exact absurd rfl ha
  | symbol hlt _ hcov => exact ⟨hlt, hcut, hcov, hr⟩

theorem peek_gettoken {α : Type} {toks : List Char} {m : UInt8 × Nat × Nat → M α} {m' : M α} {Q : α → Nat → Prop}
    (h : Terminated buf es)
    (hp : Cut buf es p) (htoks : ∀ c ∈ toks.map ch, c ∈ symbols)
    (hyes : ∀ r p', p < p' → Cut buf es p' → Covers buf es p p' [] →
      (∃ c ∈ toks.map ch, r.1 = c ∨ c = ch '>' ∧ r.1 = ch '+') → Wp (m r) p' Q Panics)
    (hno : ∀ p', p ≤ p' → Cut buf es p' → Covers buf es p p' [] → Wp m' p' Q Panics) :
    Wp (do if ← peek buf es toks then (do let r ← gettoken buf es; m r) else m') p Q Panics := by
  refine Wp.bind (peek_spec h toks hp) fun b p₁ ⟨hlo, hcut, hcov, hb⟩ => ?_
  cases b with
  | false => exact hno p₁ hlo hcut hcov
  | true =>
    obtain ⟨c, hmem, hc⟩ := hb rfl
    refine Wp.bind (gettoken_symbol h hcut hc (htoks c hmem)) fun r p₂ ⟨hlt, hcut', hcov', hr⟩ => ?_
    have := hcov.append hcov' hlo hlt.le
    exact hyes r p₂ (by omega) hcut' this ⟨c, hmem, hr⟩

theorem files_redirOf {tok : UInt8} {q e : Nat} (h : ∃ c ∈ ['<', '>'].map ch, tok = c ∨ c = ch '>' ∧ tok = ch '+') :
    files (redirOf tok q e) = [(q, e)] := by
  obtain ⟨c, hc, hr⟩ := h
  have htok : tok = ch '<' ∨ tok = ch '>' ∨ tok = ch '+' := by
    simp only [List.map_cons, List.map_nil, List.mem_cons, List.not_mem_nil, or_false] at hc
    rcases hr with rfl | ⟨-, rfl⟩
    · rcases hc with rfl | rfl
      · exact .inl rfl
      · exact .inr (.inl rfl)
    · exact .inr (.inr rfl)
  rcases htok with rfl | rfl | rfl
  · rfl
  · rw [redirOf, if_neg (by decide +kernel), if_pos rfl]
    rfl
  · rw [redirOf, if_neg (by decide +kernel), if_neg (by decide +kernel), if_pos rfl]
    rfl

theorem redirLoop_spec (h : Terminated buf es) (fuel : Nat) :
    ∀ p, Cut buf es p → es - p < fuel → Wp (redirLoop buf es fuel) p (fun rs p' => p ≤ p' ∧ Cut buf es p' ∧
      Covers buf es p p' (files rs)) Panics := by
  induction fuel with
  | zero => exact fun p _ hlt => absurd hlt (Nat.not_lt_zero _)
  | succ fuel ih =>
    intro p hp hfuel
    rw [redirLoop]
    refine peek_gettoken h hp (by decide +kernel) (fun r p₁ hlt hcut hcov hr => ?_) fun p₁ hlo hcut hcov => ⟨hlo, hcut, hcov⟩
    refine Wp.bind (gettoken_spec h hcut) fun r' p₂ ⟨hlo₂, hcut₂, htok, _⟩ => ?_
    refine Wp.ite (fun _ => ⟨_, rfl⟩) fun ha => ?_
    obtain ⟨hlt₂, hcov₂⟩ := htok.of_word (not_not.mp ha)
    have hle := hcut₂.1
    refine Wp.bind (ih p₂ hcut₂ (by omega)) fun rs p₃ ⟨hlo₃, hcut₃, hcov₃⟩ => ?_
    refine ⟨by omega, hcut₃, ?_⟩
    have hfiles : files (redirOf r.1 r'.2.1 r'.2.2 ++ rs) = [r'.2] ++ files rs := by
      rw [files, List.map_append]
      exact congrArg (· ++ files rs) (files_redirOf hr)
    rw [hfiles]
    have := (hcov.append hcov₂ hlt.le hlt₂.le).append hcov₃ (by omega) hlo₃
    rwa [List.nil_append] at this

theorem parseredirs_spec (h : Terminated buf es) (hp : Cut buf es p) :
    Wp (parseredirs buf es) p (fun rs p' => p ≤ p' ∧ Cut buf es p' ∧ Covers buf es p p' (files rs)) Panics :=
  redirLoop_spec h (es + 1) p hp (by omega)

theorem Covers.add_arg {p₀ : Nat} {T : List (Nat × Nat)} {F F' : List (Nat × Nat)} {x : Nat × Nat} {p₁ p₂ : Nat}
    (h : Covers buf es p₀ p (T ++ F)) (h₁ : Covers buf es p p₁ [x]) (h₂ : Covers buf es p₁ p₂ F') (h₀ : p₀ ≤ p)
    (hlo : p ≤ p₁)
    (hhi : p₁ ≤ p₂) : Covers buf es p₀ p₂ ((T ++ [x]) ++ (F ++ F')) := by
  refine ((h.append h₁ h₀ hlo).append h₂ (h₀.trans hlo) hhi).perm ?_
  have hswap : (F ++ [x]).Perm ([x] ++ F) := List.perm_append_comm
  simpa using (hswap.append_right F').append_left T

/-- The loop of `parseexec`, with the arguments `T` and the redirections `rs` taken since `p₀`. -/
theorem argLoop_spec (h : Terminated buf es) {p₀ : Nat} (fuel : Nat) :
    ∀ p T rs, Cut buf es p → p₀ ≤ p → es - p < fuel → T.length < MAXARGS → (T.Pairwise fun x y => x.1 < y.1) →
      Covers buf es p₀ p (T ++ files rs) →
      Wp (argLoop buf es fuel (pad (T.map Prod.fst)) (pad (T.map Prod.snd)) T.length rs) p (Parsed buf es p₀) Panics := by
  induction fuel with
  | zero => exact fun p T rs _ _ hlt => absurd hlt (Nat.not_lt_zero _)
  | succ fuel ih =>
    intro p T rs hp h₀ hfuel hlen hsorted hcov
    -- the command as it is returned
    have hdone : ∀ p', p ≤ p' → Cut buf es p' → Covers buf es p p' [] → Parsed buf es p₀
        ((Cmd.exec ((pad (T.map Prod.fst)).set T.length none) ((pad (T.map Prod.snd)).set T.length none)).around rs) p' := by
      intro p' hlo hcut hcov'
      have hfst := pad_set_none (l := T.map Prod.fst) (by simpa using hlen)
      have hsnd := pad_set_none (l := T.map Prod.snd) (by simpa using hlen)
      rw [List.length_map] at hfst hsnd
      rw [hfst, hsnd]
      refine ⟨h₀.trans hlo, hcut, T ++ files rs, (Built.exec hlen hsorted).around rs, ?_⟩
      have := hcov.append hcov' h₀ hlo
      rwa [List.append_nil] at this
    rw [argLoop]
    refine Wp.bind (peek_spec h _ hp) fun b p₁ ⟨hlo₁, hcut₁, hcov₁, _⟩ => ?_
    refine Wp.ite (fun _ => hdone p₁ hlo₁ hcut₁ hcov₁) fun _ => ?_
    refine Wp.bind (gettoken_spec h hcut₁) fun r p₂ ⟨hlo₂, hcut₂, htok, _⟩ => ?_
    refine Wp.ite (fun h0 => ?_) fun _ => Wp.ite (fun _ => ⟨_, rfl⟩) fun ha => Wp.ite (fun _ => ⟨_, rfl⟩) fun hmax => ?_
    · refine hdone p₂ (hlo₁.trans hlo₂) hcut₂ ?_
      cases htok with
      | nul _ hcov₂ => exact hcov₁.append hcov₂ hlo₁ hlo₂
      | word => exact absurd (show ch 'a' = 0 from h0) (by decide +kernel)
      | symbol _ ht _ => exact absurd h0 ht.1
    · obtain ⟨hlt₂, hcov₂⟩ := htok.of_word (not_not.mp ha)
      have hle := hcut₂.1
      refine Wp.bind (parseredirs_spec h hcut₂) fun rs' p₃ ⟨hlo₃, hcut₃, hcov₃⟩ => ?_
      have hword : Covers buf es p p₂ [r.2] := hcov₁.append hcov₂ hlo₁ hlo₂
      have hfst : (pad (T.map Prod.fst)).set T.length (some r.2.1) = pad ((T ++ [r.2]).map Prod.fst) := by
        simpa using pad_set_some (l := T.map Prod.fst) (q := r.2.1) (by simpa using hlen)
      have hsnd : (pad (T.map Prod.snd)).set T.length (some r.2.2) = pad ((T ++ [r.2]).map Prod.snd) := by
        simpa using pad_set_some (l := T.map Prod.snd) (q := r.2.2) (by simpa using hlen)
      have hlen' : (T ++ [r.2]).length = T.length + 1 := by simp
      have hsorted' : (T ++ [r.2]).Pairwise fun x y => x.1 < y.1 := by
        refine List.pairwise_append.mpr ⟨hsorted, List.pairwise_singleton .., fun x hx y hy => ?_⟩
        rw [List.mem_singleton.mp hy]
        have := ((hcov.2 x).mp (List.mem_append_left _ hx)).2.2
        have := ((hword.2 r.2).mp List.mem_cons_self).2.1
        omega
      have hnext := ih p₃ (T ++ [r.2]) (rs ++ rs') hcut₃ (by omega) (by omega) (by omega) hsorted' (by
        rw [files, List.map_append]
        exact hcov.add_arg hword hcov₃ h₀ (hlo₁.trans hlo₂) hlo₃)
      rw [← hfst, ← hsnd, hlen'] at hnext
      exact hnext

/-- What is asked of the parser of an inner line: it parses every line shorter than `n`. -/
def Parses (buf : List UInt8) (es n : Nat) (line : M Cmd) : Prop :=
  ∀ p, Cut buf es p → es - p < n → Wp line p (Parsed buf es p) Panics

variable {line : M Cmd} {n : Nat}

theorem Parsed.extend {cmd : Cmd} {p₁ p₂ : Nat} (h : Parsed buf es p₁ cmd p₂) (h₁ : Covers buf es p p₁ []) (hlo : p ≤ p₁) :
    Parsed buf es p cmd p₂ := by
  obtain ⟨hle, hcut, T, hT, hcov⟩ := h
  exact ⟨hlo.trans hle, hcut, T, hT, h₁.append hcov hlo hle⟩

theorem parseblock_spec (h : Terminated buf es) (hline : Parses buf es n line) (hp : Cut buf es p) (hn : es - p ≤ n) :
    Wp (parseblock buf es line) p (Parsed buf es p) Panics := by
  rw [parseblock]
  refine peek_gettoken h hp (by decide +kernel) (fun _ p₁ hlt hcut₁ hcov₁ _ => ?_) fun _ _ _ _ => ⟨_, rfl⟩
  have hle := hcut₁.1
  refine Wp.bind (hline p₁ hcut₁ (by omega)) fun cmd p₂ hparsed => ?_
  obtain ⟨hlo₂, hcut₂, T, hT, hcov₂⟩ := hparsed.extend hcov₁ hlt.le
  refine peek_gettoken h hcut₂ (by decide +kernel) (fun _ p₃ hlt₃ hcut₃ hcov₃ _ => ?_) fun _ _ _ _ => ⟨_, rfl⟩
  refine Wp.bind (parseredirs_spec h hcut₃) fun rs p₄ ⟨hlo₄, hcut₄, hcov₄⟩ => ?_
  refine ⟨by omega, hcut₄, T ++ files rs, hT.around rs, ?_⟩
  have := (hcov₂.append hcov₃ hlo₂ hlt₃.le).append hcov₄ (by omega) hlo₄
  rwa [List.append_nil] at this

theorem parseexec_spec (h : Terminated buf es) (hline : Parses buf es n line) (hp : Cut buf es p) (hn : es - p ≤ n) :
    Wp (parseexec buf es line) p (Parsed buf es p) Panics := by
  rw [parseexec]
  refine Wp.bind (peek_spec h _ hp) fun b p₁ ⟨hlo₁, hcut₁, hcov₁, _⟩ => ?_
  refine Wp.ite (fun _ => ?_) fun _ => ?_
  · exact (parseblock_spec h hline hcut₁ (by omega)).imp fun cmd p₂ hparsed => hparsed.extend hcov₁ hlo₁
  · refine Wp.bind (parseredirs_spec h hcut₁) fun rs p₂ ⟨hlo₂, hcut₂, hcov₂⟩ => ?_
    exact argLoop_spec h (es + 1) p₂ [] rs hcut₂ (hlo₁.trans hlo₂) (by omega) (by decide) List.Pairwise.nil
      (hcov₁.append hcov₂ hlo₁ hlo₂)

theorem parsepipe_spec (h : Terminated buf es) (hline : Parses buf es n line) (fuel : Nat) :
    ∀ p, Cut buf es p → es - p ≤ n → es - p < fuel → Wp (parsepipe buf es line fuel) p (Parsed buf es p) Panics := by
  induction fuel with
  | zero => exact fun p _ _ hlt => absurd hlt (Nat.not_lt_zero _)
  | succ fuel ih =>
    intro p hp hn hfuel
    rw [parsepipe]
    refine Wp.bind (parseexec_spec h hline hp hn) fun cmd p₁ ⟨hlo₁, hcut₁, T, hT, hcov₁⟩ => ?_
    refine peek_gettoken h hcut₁ (by decide +kernel) (fun _ p₂ hlt₂ hcut₂ hcov₂ _ => ?_) fun p₂ hlo₂ hcut₂ hcov₂ => ?_
    · have hle := hcut₂.1
      refine Wp.bind (ih p₂ hcut₂ (by omega) (by omega)) fun right p₃ ⟨hlo₃, hcut₃, T', hT', hcov₃⟩ => ?_
      refine ⟨by omega, hcut₃, T ++ T', hT.pipe hT', ?_⟩
      have := (hcov₁.append hcov₂ hlo₁ hlt₂.le).append hcov₃ (by omega) hlo₃
      rwa [List.append_nil] at this
    · refine ⟨hlo₁.trans hlo₂, hcut₂, T, hT, ?_⟩
      have := hcov₁.append hcov₂ hlo₁ hlo₂
      rwa [List.append_nil] at this

theorem backLoop_spec (h : Terminated buf es) {p₀ : Nat} (fuel : Nat) :
    ∀ p cmd, Parsed buf es p₀ cmd p → es - p < fuel → Wp (backLoop buf es fuel cmd) p (Parsed buf es p₀) Panics := by
  induction fuel with
  | zero => exact fun p _ _ hlt => absurd hlt (Nat.not_lt_zero _)
  | succ fuel ih =>
    intro p cmd ⟨h₀, hp, T, hT, hcov⟩ hfuel
    have hmore : ∀ {p₁}, p ≤ p₁ → Covers buf es p p₁ [] → Covers buf es p₀ p₁ T := by
      intro p₁ hlo hcov₁
      have := hcov.append hcov₁ h₀ hlo
      rwa [List.append_nil] at this
    rw [backLoop]
    refine peek_gettoken h hp (by decide +kernel) (fun _ p₁ hlt₁ hcut₁ hcov₁ _ => ?_) fun p₁ hlo₁ hcut₁ hcov₁ => ?_
    · have hle := hcut₁.1
      exact ih p₁ (.back cmd) ⟨by omega, hcut₁, T, hT.back, hmore hlt₁.le hcov₁⟩ (by omega)
    · exact ⟨h₀.trans hlo₁, hcut₁, T, hT, hmore hlo₁ hcov₁⟩

/-- The line parser, by induction on the length of the line: an inner line starts after a symbol. -/
theorem parseline_spec (h : Terminated buf es) (fuel : Nat) : Parses buf es fuel (parseline buf es fuel) := by
  induction fuel with
  | zero => exact fun p _ hlt => absurd hlt (Nat.not_lt_zero _)
  | succ fuel ih =>
    intro p hp hfuel
    rw [parseline]
    refine Wp.bind (parsepipe_spec h ih (es + 1) p hp (by omega) (by omega)) fun cmd p₁ hparsed => ?_
    refine Wp.bind (backLoop_spec h (es + 1) p₁ cmd hparsed (by omega)) fun cmd p₂ ⟨hlo₂, hcut₂, T, hT, hcov₂⟩ => ?_
    refine peek_gettoken h hcut₂ (by decide +kernel) (fun _ p₃ hlt₃ hcut₃ hcov₃ _ => ?_) fun p₃ hlo₃ hcut₃ hcov₃ => ?_
    · have hle := hcut₃.1
      refine Wp.bind (ih p₃ hcut₃ (by omega)) fun right p₄ ⟨hlo₄, hcut₄, T', hT', hcov₄⟩ => ?_
      refine ⟨by omega, hcut₄, T ++ T', hT.list hT', ?_⟩
      have := (hcov₂.append hcov₃ hlo₂ hlt₃.le).append hcov₄ (by omega) hlo₄
      rwa [List.append_nil] at this
    · refine ⟨hlo₂.trans hlo₃, hcut₃, T, hT, ?_⟩
      have := hcov₂.append hcov₃ hlo₂ hlo₃
      rwa [List.append_nil] at this

theorem parseAll_spec (h : Terminated buf es) :
    Wp (parseAll buf es) 0 (fun cmd _ => ∃ T, Built cmd T ∧ Covers buf es 0 es T) Panics := by
  rw [parseAll]
  have hstart : Cut buf es 0 := ⟨Nat.zero_le _, .inl rfl⟩
  refine Wp.bind (parseline_spec h (es + 1) 0 hstart (by omega)) fun cmd p₁ ⟨hlo₁, hcut₁, T, hT, hcov₁⟩ => ?_
  refine Wp.bind (peek_spec h [] hcut₁) fun _ p₂ ⟨hlo₂, _, hcov₂, _⟩ => ?_
  rw [wp_bind, wp_look, id_eq]
  refine Wp.ite (fun _ => ⟨_, rfl⟩) fun hend => ?_
  obtain rfl : p₂ = es := not_not.mp hend
  refine ⟨T, hT, ?_⟩
  have := hcov₁.append hcov₂ hlo₁ hlo₂
  rwa [List.append_nil] at this

end parse

end Xv6Mlfq.Shell
