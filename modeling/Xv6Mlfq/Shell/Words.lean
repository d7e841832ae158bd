import Xv6Mlfq.Shell.Parse

/-!
# The words of the tree

After `nulterminate` every pointer of the tree, read as a C string, is a word of the line, and every word of the line
is read by exactly one pointer.
-/

namespace Xv6Mlfq.Shell

open Lib

/-! ## What the tree says -/

/-- The strings of an `argv`: the pointers before the first null one. -/
def args : List (Option Nat) → List Nat
  | some q :: r => q :: args r
  | _ => []

/-- The `argv` and `file` pointers of a tree. -/
def Cmd.pointers : Cmd → List Nat
  | .exec argv _ => args argv
  | .redir cmd file _ _ _ => cmd.pointers ++ [file]
  | .pipe left right => left.pointers ++ right.pointers
  | .list left right => left.pointers ++ right.pointers
  | .back cmd => cmd.pointers

def Cmd.argvs : Cmd → List (List (Option Nat))
  | .exec argv _ => [argv]
  | .redir cmd _ _ _ _ => cmd.argvs
  | .pipe left right => left.argvs ++ right.argvs
  | .list left right => left.argvs ++ right.argvs
  | .back cmd => cmd.argvs

def cstring (buf : List UInt8) (q : Nat) : List UInt8 := (buf.drop q).takeWhile (· ≠ 0)

def line (buf : List UInt8) : List UInt8 := cstring buf 0

/-- `w` is a maximal run of characters that are neither whitespace nor symbols, and starts at `q`. -/
def IsWord (line : List UInt8) (q : Nat) (w : List UInt8) : Prop :=
  ∃ a b, line = a ++ w ++ b ∧ a.length = q ∧ w ≠ [] ∧ (∀ c ∈ w, isWord c = true) ∧
    (∀ c, a.getLast? = some c → isWord c = false) ∧ ∀ c, b.head? = some c → isWord c = false

/-- The tree `cmd`, with its pointers into `buf'`, has the words of the line in `buf`. -/
structure Kept (buf : List UInt8) (cmd : Cmd) (buf' : List UInt8) : Prop where
  nodup : cmd.pointers.Nodup
  words : ∀ q w, q ∈ cmd.pointers ∧ cstring buf' q = w ↔ IsWord (line buf) q w
  argv : ∀ a ∈ cmd.argvs, (args a).Pairwise (· < ·) ∧ a.length = MAXARGS ∧ a[(args a).length]? = some none

section

variable {buf buf' : List UInt8} {es q e : Nat} {w : List UInt8} {cmd : Cmd} {T : List (Nat × Nat)}

theorem args_pad (l : List Nat) : args (pad l) = l := by
  unfold pad
  generalize MAXARGS - l.length = k
  induction l with
  | nil =>
    cases k with
    | zero => rfl
    | succ k => rfl
  | cons q l ih => exact congrArg (q :: ·) ih

theorem Built.pointers (h : Built cmd T) : cmd.pointers = T.map Prod.fst := by
  induction h with
  | exec => exact args_pad _
  | redir _ ih => rw [Cmd.pointers, ih, List.map_append, List.map_singleton]
  | pipe _ _ ih ih' => rw [Cmd.pointers, ih, ih', List.map_append]
  | list _ _ ih ih' => rw [Cmd.pointers, ih, ih', List.map_append]
  | back _ ih => rw [Cmd.pointers, ih]

theorem Built.argv (h : Built cmd T) :
    ∀ a ∈ cmd.argvs, (args a).Pairwise (· < ·) ∧ a.length = MAXARGS ∧ a[(args a).length]? = some none := by
  induction h with
  | @exec T hlen hsorted =>
    intro a ha
    rw [List.mem_singleton.mp ha, args_pad]
    have hlt : (T.map Prod.fst).length < MAXARGS := by rwa [List.length_map]
    refine ⟨List.pairwise_map.mpr hsorted, ?_, ?_⟩
    · unfold pad
      rw [List.length_append, List.length_map, List.length_replicate]
      omega
    · unfold pad
      rw [List.getElem?_append_right (by simp), List.length_map (f := some), Nat.sub_self, List.getElem?_replicate,
        if_pos (by omega)]
  | redir _ ih => exact ih
  | pipe _ _ ih ih' => exact fun a ha => (List.mem_append.mp ha).elim (ih a) (ih' a)
  | list _ _ ih ih' => exact fun a ha => (List.mem_append.mp ha).elim (ih a) (ih' a)
  | back _ ih => exact ih

/-! ## `nulterminate` -/

/-- `buf'` is `buf` with a NUL at the places `D`. -/
def Nulled (buf : List UInt8) (D : List Nat) (buf' : List UInt8) : Prop :=
  buf'.length = buf.length ∧ ∀ i, (i ∈ D → buf'[i]? = some 0) ∧ (i ∉ D → buf'[i]? = buf[i]?)

theorem Nulled.refl (buf : List UInt8) : Nulled buf [] buf :=
  ⟨rfl, fun _ => ⟨fun h => absurd h List.not_mem_nil, fun _ => rfl⟩⟩

theorem Nulled.trans {D D' : List Nat} {buf'' : List UInt8} (h : Nulled buf D buf') (h' : Nulled buf' D' buf'') :
    Nulled buf (D ++ D') buf'' := by
  refine ⟨h'.1.trans h.1, fun i => ⟨fun hi => ?_, fun hi => ?_⟩⟩
  · by_cases hD' : i ∈ D'
    · exact (h'.2 i).1 hD'
    · rw [(h'.2 i).2 hD']
      exact (h.2 i).1 ((List.mem_append.mp hi).resolve_right hD')
  · rw [List.mem_append, not_or] at hi
    rw [(h'.2 i).2 hi.2, (h.2 i).2 hi.1]

theorem poke_spec {E : Stop → Prop} (he : e < buf.length) : Wp (poke e) buf (fun _ buf' => Nulled buf [e] buf') E := by
  rw [poke, wp_bind, wp_look, id_eq, if_pos he, wp_update]
  refine ⟨List.length_set, fun i => ⟨fun hi => ?_, fun hi => ?_⟩⟩
  · rw [List.mem_singleton.mp hi, List.getElem?_set_self he]
  · rw [List.getElem?_set_ne fun h => hi (List.mem_singleton.mpr h.symm)]

theorem nulArgs_spec {E : Stop → Prop} (T : List (Nat × Nat)) (r r' : List (Option Nat)) :
    ∀ buf : List UInt8, (∀ x ∈ T, x.2 < buf.length) →
      Wp (nulArgs ((T.map Prod.fst).map some ++ none :: r) ((T.map Prod.snd).map some ++ r')) buf
        (fun _ buf' => Nulled buf (T.map Prod.snd) buf') E := by
  induction T with
  | nil => exact fun buf _ => Nulled.refl buf
  | cons x T ih =>
    intro buf hT
    refine Wp.bind (poke_spec (hT x List.mem_cons_self)) fun _ buf₁ h₁ => ?_
    refine (ih buf₁ fun y hy => ?_).imp fun _ buf₂ h₂ => h₁.trans h₂
    rw [h₁.1]
    exact hT y (List.mem_cons_of_mem x hy)

theorem pad_cons {l : List Nat} (h : l.length < MAXARGS) : ∃ r, pad l = l.map some ++ none :: r := by
  obtain ⟨k, hk⟩ : ∃ k, MAXARGS - l.length = k + 1 := ⟨MAXARGS - l.length - 1, by omega⟩
  exact ⟨List.replicate k none, by rw [pad, hk, List.replicate_succ]⟩

theorem nulterminate_spec {E : Stop → Prop} (h : Built cmd T) :
    ∀ buf : List UInt8, (∀ x ∈ T, x.2 < buf.length) →
      Wp (nulterminate cmd) buf (fun _ buf' => Nulled buf (T.map Prod.snd) buf') E := by
  -- two subtrees, one after the other
  have hseq : ∀ {T T' : List (Nat × Nat)} {m m' : Prog (List UInt8) Stop Unit},
      (∀ buf : List UInt8, (∀ x ∈ T, x.2 < buf.length) → Wp m buf (fun _ buf' => Nulled buf (T.map Prod.snd) buf') E) →
      (∀ buf : List UInt8, (∀ x ∈ T', x.2 < buf.length) → Wp m' buf (fun _ buf' => Nulled buf (T'.map Prod.snd) buf') E) →
      ∀ buf : List UInt8, (∀ x ∈ T ++ T', x.2 < buf.length) →
        Wp (m >>= fun _ => m') buf (fun _ buf' => Nulled buf ((T ++ T').map Prod.snd) buf') E := by
    intro T T' m m' hm hm' buf hT
    refine Wp.bind (hm buf fun x hx => hT x (List.mem_append_left _ hx)) fun _ buf₁ h₁ => ?_
    refine (hm' buf₁ fun x hx => ?_).imp fun _ buf₂ h₂ => ?_
    · rw [h₁.1]
      exact hT x (List.mem_append_right _ hx)
    · rw [List.map_append]
      exact h₁.trans h₂
  induction h with
  | @exec T hlen _ =>
    intro buf hT
    obtain ⟨r, hr⟩ := pad_cons (l := T.map Prod.fst) (by rwa [List.length_map])
    rw [nulterminate, hr]
    exact nulArgs_spec T r _ buf hT
  | redir _ ih => exact hseq ih fun buf hT => poke_spec (hT _ List.mem_cons_self)
  | pipe _ _ ih ih' => exact hseq ih ih'
  | list _ _ ih ih' => exact hseq ih ih'
  | back _ ih => exact ih

/-! ## Strings -/

theorem cstring_eq (w : List UInt8) :
    ∀ q, (∀ i < w.length, buf[q + i]? = w[i]?) → 0 ∉ w → buf[q + w.length]? = some 0 → cstring buf q = w := by
  induction w with
  | nil =>
    intro q _ _ hend
    change buf[q]? = some 0 at hend
    obtain ⟨hlt, h0⟩ := List.getElem?_eq_some_iff.mp hend
    rw [cstring, List.drop_eq_getElem_cons hlt, List.takeWhile_cons_of_neg]
    simpa using h0
  | cons c w ih =>
    intro q hw h0 hend
    have hq : buf[q]? = some c := hw 0 (by simp)
    obtain ⟨hlt, hc⟩ := List.getElem?_eq_some_iff.mp hq
    have hne : c ≠ 0 := fun h => h0 (by simp [h])
    have hrest := ih (q + 1) (fun i hi => ?_) (fun h => h0 (List.mem_cons_of_mem c h)) ?_
    · unfold cstring at hrest ⊢
      rw [List.drop_eq_getElem_cons hlt, hc, List.takeWhile_cons_of_pos (by simpa using hne), hrest]
    · have := hw (i + 1) (by simpa using hi)
      rwa [List.getElem?_cons_succ, show q + (i + 1) = q + 1 + i by omega] at this
    · rwa [List.length_cons, show q + (w.length + 1) = q + 1 + w.length by omega] at hend

/-- The characters of the word from `q` to `e`. -/
def slice (buf : List UInt8) (q e : Nat) : List UInt8 := (buf.drop q).take (e - q)

theorem slice_getElem? {i : Nat} (hi : q + i < e) : (slice buf q e)[i]? = buf[q + i]? := by
  rw [slice, List.getElem?_take_of_lt (by omega), List.getElem?_drop]

theorem Terminated.lt (h : Terminated buf es) : es < buf.length := by
  obtain ⟨hlt, -⟩ := List.getElem?_eq_some_iff.mp h.nul
  exact hlt

theorem length_slice (he : e ≤ buf.length) : (slice buf q e).length = e - q := by
  rw [slice, List.length_take, List.length_drop]
  omega

theorem inWord_iff {i : Nat} : InWord buf es i ↔ ∃ c, (buf.take es)[i]? = some c ∧ isWord c = true := by
  unfold InWord
  rw [List.getElem?_take]
  split_ifs with hi
  · simp [hi]
  · simp [hi]

theorem IsWord.wordAt (h : IsWord (buf.take es) q w) : WordAt buf es (q, q + w.length) ∧ w = slice buf q (q + w.length) := by
  obtain ⟨a, b, hline, rfl, hne, hw, ha, hb⟩ := h
  have hpos : 0 < w.length := List.length_pos_iff.mpr hne
  have hget : ∀ i, (buf.take es)[a.length + i]? = (w ++ b)[i]? := by
    intro i
    rw [hline, List.append_assoc, List.getElem?_append_right (by omega)]
    congr 1
    omega
  refine ⟨⟨by show a.length < a.length + w.length; omega, fun i hlo hhi => ?_, ?_, fun hr => ?_⟩, ?_⟩
  · obtain ⟨j, rfl⟩ := Nat.exists_eq_add_of_le (show a.length ≤ i from hlo)
    have hj : j < w.length := by
      have : a.length + j < a.length + w.length := hhi
      omega
    refine inWord_iff.mpr ⟨w[j], ?_, hw _ (List.getElem_mem hj)⟩
    rw [hget, List.getElem?_append_left hj, List.getElem?_eq_getElem hj]
  · rcases Nat.eq_zero_or_pos a.length with h0 | hpos'
    · exact .inl h0
    · refine .inr fun hin => ?_
      obtain ⟨d, hd, hdw⟩ := inWord_iff.mp hin
      change (buf.take es)[a.length - 1]? = some d at hd
      rw [hline, List.append_assoc, List.getElem?_append_left (by omega), ← List.getLast?_eq_getElem?] at hd
      have := ha d hd
      rw [hdw] at this
      cases this
  · obtain ⟨d, hd, hdw⟩ := inWord_iff.mp hr
    change (buf.take es)[a.length + w.length]? = some d at hd
    rw [hget, List.getElem?_append_right (le_refl _), Nat.sub_self, ← List.head?_eq_getElem?] at hd
    have := hb d hd
    rw [hdw] at this
    cases this
  · have hbuf : buf = a ++ (w ++ (b ++ buf.drop es)) := by
      rw [← List.append_assoc, ← List.append_assoc, ← hline, List.take_append_drop]
    rw [slice, Nat.add_sub_cancel_left]
    conv_rhs => rw [hbuf, List.drop_left, List.take_left]

theorem WordAt.isWord (h : WordAt buf es (q, e)) (hes : es < buf.length) : IsWord (buf.take es) q (slice buf q e) := by
  have hqe : q < e := h.lt
  have hle : e ≤ es := h.le
  have hlen : (buf.take es).length = es := by
    rw [List.length_take]
    omega
  refine ⟨(buf.take es).take q, (buf.take es).drop e, ?_, ?_, fun hnil => ?_, fun c hc => ?_, fun c hc => ?_, fun c hc => ?_⟩
  · have hmid : slice buf q e = ((buf.take es).drop q).take (e - q) := by
      rw [slice, List.drop_take, List.take_take, Nat.min_eq_left (by omega)]
    have hdrop : (buf.take es).drop e = ((buf.take es).drop q).drop (e - q) := by
      rw [List.drop_drop]
      congr 1
      omega
    rw [hmid, hdrop, List.append_assoc, List.take_append_drop, List.take_append_drop]
  · rw [List.length_take, hlen]
    omega
  · have : (slice buf q e).length = e - q := length_slice (by omega)
    rw [hnil] at this
    change 0 = e - q at this
    omega
  · obtain ⟨i, hi, rfl⟩ := List.mem_iff_getElem.mp hc
    rw [length_slice (by omega)] at hi
    obtain ⟨-, d, hd, hdw⟩ := h.inside (q + i) (Nat.le_add_right q i) (by show q + i < e; omega)
    rw [← slice_getElem? (e := e) (by omega)] at hd
    rw [(List.getElem?_eq_some_iff.mp hd).2]
    exact hdw
  · -- the character before the word
    by_contra hw
    rcases h.left with h0 | hleft
    · change q = 0 at h0
      rw [h0, List.take_zero] at hc
      cases hc
    · refine hleft (inWord_iff.mpr ⟨c, ?_, by simpa using hw⟩)
      show (buf.take es)[q - 1]? = some c
      have hqlen : ((buf.take es).take q).length = q := by
        rw [List.length_take, hlen]
        omega
      rw [List.getLast?_eq_getElem?, hqlen] at hc
      obtain ⟨hlt, -⟩ := List.getElem?_eq_some_iff.mp hc
      rwa [List.getElem?_take_of_lt (by omega)] at hc
  · by_contra hw
    refine h.right (inWord_iff.mpr ⟨c, ?_, by simpa using hw⟩)
    rw [List.head?_eq_getElem?, List.getElem?_drop] at hc
    exact hc

end

/-! ## `parsecmd` -/

section

variable {buf buf' : List UInt8} {es : Nat} {x : Nat × Nat} {cmd : Cmd} {T : List (Nat × Nat)}

theorem exists_nul (h : 0 ∈ buf) : ∃ r, buf = buf.takeWhile (· ≠ 0) ++ 0 :: r := by
  induction buf with
  | nil => cases h
  | cons c buf ih =>
    by_cases hc : c = 0
    · exact ⟨buf, by simp [hc]⟩
    · obtain ⟨r, hr⟩ := ih ((List.mem_cons.mp h).resolve_left (Ne.symm hc))
      refine ⟨r, ?_⟩
      rw [List.takeWhile_cons_of_pos (by simpa using hc), List.cons_append, ← hr]

theorem terminated_strlen (h : 0 ∈ buf) : Terminated buf (strlen buf) ∧ line buf = buf.take (strlen buf) := by
  obtain ⟨r, hr⟩ := exists_nul h
  have hne : ∀ c ∈ buf.takeWhile (· ≠ 0), c ≠ 0 := fun c hc => by simpa using List.mem_takeWhile_imp hc
  rw [line, cstring, List.drop_zero, strlen]
  generalize buf.takeWhile (· ≠ 0) = t at hr hne ⊢
  subst hr
  refine ⟨⟨?_, fun i hi => ⟨t[i], ?_, hne _ (List.getElem_mem hi)⟩⟩, List.take_left.symm⟩
  · rw [List.getElem?_append_right (le_refl _), Nat.sub_self, List.getElem?_cons_zero]
  · rw [List.getElem?_append_left hi, List.getElem?_eq_getElem hi]

theorem cstring_word (h : Terminated buf es) (hT : ∀ y ∈ T, WordAt buf es y) (hn : Nulled buf (T.map Prod.snd) buf')
    (hx : x ∈ T) : cstring buf' x.1 = slice buf x.1 x.2 := by
  have hword := hT x hx
  have hle := hword.le
  have hlt := hword.lt
  have hlen : (slice buf x.1 x.2).length = x.2 - x.1 := length_slice (by have := h.lt; omega)
  -- a place behind a word is no place of a word
  have hkeep : ∀ i, InWord buf es i → buf'[i]? = buf[i]? := by
    intro i hi
    refine (hn.2 i).2 fun hmem => ?_
    obtain ⟨y, hy, rfl⟩ := List.mem_map.mp hmem
    exact (hT y hy).right hi
  refine cstring_eq _ x.1 (fun i hi => ?_) (fun h0 => ?_) ?_
  · rw [hkeep _ (hword.inside _ (by omega) (by omega)), slice_getElem? (by omega)]
  · obtain ⟨i, hi, h0⟩ := List.mem_iff_getElem.mp h0
    obtain ⟨c, hc, hne⟩ := h.chars (x.1 + i) (by omega)
    rw [← slice_getElem? (e := x.2) (by omega), List.getElem?_eq_getElem hi, h0] at hc
    cases hc
    exact hne rfl
  · rw [hlen, show x.1 + (x.2 - x.1) = x.2 by omega]
    exact (hn.2 x.2).1 (List.mem_map_of_mem hx)

theorem Built.kept (h : Terminated buf es) (hline : line buf = buf.take es) (hT : Built cmd T) (hcov : Covers buf es 0 es T)
    (hn : Nulled buf (T.map Prod.snd) buf') : Kept buf cmd buf' := by
  have hword : ∀ y ∈ T, WordAt buf es y := fun y hy => ((hcov.2 y).mp hy).1
  have hptr := hT.pointers
  refine ⟨?_, fun q w => ?_, hT.argv⟩
  · rw [hptr]
    refine hcov.1.map_on fun y hy z hz hyz => ?_
    exact (hword y hy).eq_of_start (hword z hz) hyz
  · rw [hptr, hline]
    constructor
    · rintro ⟨hq, rfl⟩
      obtain ⟨y, hy, rfl⟩ := List.mem_map.mp hq
      rw [cstring_word h hword hn hy]
      exact (hword y hy).isWord h.lt
    · intro hw
      obtain ⟨hat, hslice⟩ := hw.wordAt
      have hlt := hat.lt
      have hle := hat.le
      have hmem : (q, q + w.length) ∈ T := (hcov.2 _).mpr ⟨hat, Nat.zero_le _, by omega⟩
      refine ⟨List.mem_map.mpr ⟨_, hmem, rfl⟩, ?_⟩
      rw [cstring_word h hword hn hmem]
      exact hslice.symm

/-- `parsecmd` returns a tree with the words of the line, or reports a syntax error. -/
theorem parsecmd_words (h0 : 0 ∈ buf) : Sat (parsecmd buf) (fun r => Kept buf r.1 r.2) Panics := by
  obtain ⟨h, hline⟩ := terminated_strlen h0
  have hparse := parseAll_spec h
  unfold parsecmd
  cases hp : parseAll buf (strlen buf) 0 with
  | error e => exact hparse.of_error hp
  | ok r =>
    obtain ⟨cmd, p⟩ := r
    obtain ⟨T, hT, hcov⟩ := hparse.of_ok hp
    have hends : ∀ x ∈ T, x.2 < buf.length := fun x hx => by
      have := ((hcov.2 x).mp hx).1.le
      have := h.lt
      omega
    obtain ⟨_, buf', hnul, hn⟩ := (nulterminate_spec (E := fun _ => False) hT buf hends).returns
    dsimp only
    rw [hnul]
    exact hT.kept h hline hcov hn

end

def bytes (s : List Char) : List UInt8 := s.map ch ++ [0]

/-- A line with redirections among the arguments and words that end at symbols, and its tree. -/
@[irreducible] def sample : List UInt8 := bytes "cat<in x|(wc>>out)".toList

def sampleTree : Cmd :=
  .pipe (.redir (.exec (pad [0, 7]) (pad [3, 8])) 4 6 O_RDONLY 0)
    (.redir (.exec (pad [10]) (pad [12])) 14 17 (O_WRONLY ||| O_CREATE) 1)

theorem parsecmd_words_sample : ∃ buf', parsecmd sample = .ok (sampleTree, buf') ∧ Kept sample sampleTree buf' := by
  have hparse : parsecmd sample = .ok (sampleTree, bytes "cat\x00in\x00x\x00(wc\x00>out\x00".toList) := by decide +kernel
  have hmem : 0 ∈ sample := by decide +kernel
  exact ⟨_, hparse, (parsecmd_words hmem).of_ok hparse⟩

end Xv6Mlfq.Shell
