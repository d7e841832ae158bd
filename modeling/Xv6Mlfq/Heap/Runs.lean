import Xv6Mlfq.Heap.Malloc

/-!
# Programs that use the heap

A program calls `malloc` and `free` in any order and writes the regions it has. As long as no request is so large
that its units do not fit an `int`, every call returns, the regions lie inside the process and apart from each other
and from the headers of the free list, and the list keeps its shape.
-/

namespace Xv6Mlfq.Heap

open Lib

variable {base lo n : Nat} {s : Memory} {w w' : World} {N L : List Block} {E : Stop → Prop}

/-- The largest request whose units, in bytes, are an `int`. -/
abbrev MAXREQ : Nat := 2147483632

/-- The block that a region of `x.2` bytes at `x.1` was cut as. -/
def blockOf (x : Nat × Nat) : Block := (x.1 - 8, unitsOf x.2)

theorem unitsOf_spec (hn : n ≤ MAXREQ) : 0 < unitsOf n ∧ n + 8 ≤ 8 * unitsOf n ∧ unitsOf n * 8 < KERNBASE := by
  unfold unitsOf
  simp only [MAXREQ, UINT, HSIZE, KERNBASE] at *
  omega

/-! ## One call -/

/-- Before the first `malloc` there is no list. -/
def Begun (base lo : Nat) (s : Memory) (L : List Block) : Prop :=
  (∃ N, Ok base lo s N L) ∨ Room base lo s ∧ s.freep = 0 ∧ L = []

theorem init_spec (h : Begun base lo s L) : Wp (init base) s (fun _ s' => ∃ N, Ok base lo s' N L) E := by
  rw [init, wp_bind, wp_look]
  rcases h with ⟨N, h⟩ | ⟨hs, hfreep, rfl⟩
  · have hne : s.freep ≠ 0 := by
      obtain ⟨x, hx, hfreep⟩ := h.list.freep
      have := h.room.pos
      have := h.room.low
      rcases h.list.blocks x hx with rfl | hf
      · change s.freep = base at hfreep
        omega
      · have := hf.lo
        omega
    rw [if_neg hne]
    exact ⟨N, h⟩
  · rw [if_pos hfreep, wp_bind, wp_store (hs.mapped (x := (base, 0)) (.inl rfl))]
    refine ⟨[(base, 0)], ⟨hs.pos, hs.low, hs.sz, hs.kern⟩, ⟨rfl, ⟨Function.update_self .., trivial⟩,
      List.pairwise_singleton .., fun x hx => .inl (List.mem_singleton.mp hx), (base, 0), by simp, rfl⟩, ?_⟩
    exact ⟨List.forall_mem_nil _, List.forall_mem_nil _, List.Pairwise.nil⟩

theorem malloc_spec (h : Begun base lo s L) (hn : n ≤ MAXREQ) :
    Wp (malloc base n) s (Gave base lo L (unitsOf n)) E := by
  obtain ⟨hpos, -, hlt⟩ := unitsOf_spec hn
  rw [malloc]
  refine Wp.bind (init_spec h) fun _ s' ⟨N, h'⟩ => ?_
  rw [wp_bind, wp_look, wp_bind]
  exact mallocLoop_spec h' hpos hlt

/-! ## Whole runs -/

/-- The regions in use are the blocks in use. -/
structure Inv (base lo : Nat) (w : World) : Prop where
  heap : Begun base lo w.heap (w.live.map blockOf)
  small : ∀ x ∈ w.live, x.2 ≤ MAXREQ

theorem Inv.malloc (h : Inv base lo w) (hn : n ≤ MAXREQ) :
    ∃ w', step base w (.malloc n) = .ok w' ∧ Inv base lo w' := by
  obtain ⟨p, s, hp, hgave⟩ := (malloc_spec h.heap hn).returns
  have hlt : n < UINT := by
    simp only [MAXREQ, UINT] at *
    omega
  rw [step, if_pos hlt, runM, hp]
  refine ⟨_, rfl, ?_⟩
  rcases hgave with ⟨rfl, hok⟩ | ⟨a, N, rfl, hok⟩
  · exact ⟨.inl hok, h.small⟩
  · refine ⟨.inl ⟨N, hok⟩, fun x hx => ?_⟩
    rcases List.mem_cons.mp hx with rfl | hx
    · exact hn
    · exact h.small x hx

theorem Live.sublist {L' : List Block} (hL : Live lo s N L) (hsub : L'.Sublist L) : Live lo s N L' :=
  ⟨fun x hx => hL.blocks x (hsub.subset hx), fun x hx => hL.apart x (hsub.subset hx), hL.disjoint.sublist hsub⟩

theorem Live.apart_of_ne {x y : Block} (hL : Live lo s N L) (hx : x ∈ L) (hy : y ∈ L) (hxy : x ≠ y) : Apart x y := by
  have hpair : L.Pairwise fun x y => x ≠ y → Apart x y := by
    refine hL.disjoint.imp ?_
    intro x y h _
    exact h
  have hflip : L.Pairwise fun x y => y ≠ x → Apart y x := by
    refine hL.disjoint.imp ?_
    intro x y h _
    exact h.symm
  exact hpair.forall_of_forall_of_flip (fun z _ hz => absurd rfl hz) hflip hx hy hxy

theorem Inv.free {x : Nat × Nat} (h : Inv base lo w) (hx : x ∈ w.live) :
    ∃ w', step base w (.free x.1) = .ok w' ∧ Inv base lo w' := by
  obtain ⟨N, hs, hN, hL⟩ := h.heap.resolve_right fun ⟨_, _, hnil⟩ => by
    rw [List.map_eq_nil_iff] at hnil
    rw [hnil] at hx
    cases hx
  obtain ⟨a, l, r, hne, hax, hlive, herase⟩ := List.exists_of_eraseP (p := fun y : Nat × Nat => y.1 = x.1) hx (by simp)
  have hax : a.1 = x.1 := of_decide_eq_true hax
  rw [hlive] at hL
  rw [List.map_append, List.map_cons] at hL
  obtain ⟨hf, hsize⟩ := hL.blocks (blockOf a) (by simp)
  have hpos := hs.pos
  have hlow := hs.low
  have halo : lo ≤ a.1 - 8 := hf.lo
  -- the block is apart from the others
  obtain ⟨-, hright, hleft⟩ := List.pairwise_append.mp hL.disjoint
  have hapart : ∀ z ∈ l.map blockOf ++ r.map blockOf, Apart z (blockOf a) := by
    intro z hz
    rcases List.mem_append.mp hz with hz | hz
    · exact hleft z hz _ List.mem_cons_self
    · exact ((List.pairwise_cons.mp hright).1 z hz).symm
  have hL' : Live lo w.heap N (l.map blockOf ++ r.map blockOf) :=
    hL.sublist (List.Sublist.append_left (List.sublist_cons_self ..) _)
  obtain ⟨_, s, hp, mem', q, N', rfl, hN', hLN, -⟩ := (free_spec hN hs hL' hf hsize
    (fun y hy => hL.apart (blockOf a) (by simp) y hy) hapart).returns
  rw [show a.1 - 8 + 8 = x.1 by omega] at hp
  rw [step, if_pos ⟨x, hx, rfl⟩, runM, hp]
  refine ⟨_, rfl, .inl ⟨N', ⟨hs.pos, hs.low, hs.sz, hs.kern⟩, hN', ?_⟩, fun y hy => ?_⟩
  · rw [herase, List.map_append]
    exact hLN
  · exact h.small y (List.mem_of_mem_eraseP hy)

theorem not_owns {a : Nat} (hw : ∀ x ∈ w.live, x.2 ≤ MAXREQ ∧ 8 ≤ x.1 ∧
    (a + 8 ≤ x.1 ∨ (blockOf x).1 + 8 * (blockOf x).2 ≤ a)) :
    ¬ w.Owns a := by
  rintro ⟨x, hx, hlo, hhi⟩
  obtain ⟨hmax, h8, hcase⟩ := hw x hx
  have hunits := (unitsOf_spec hmax).2.1
  change a + 8 ≤ x.1 ∨ x.1 - 8 + 8 * unitsOf x.2 ≤ a at hcase
  simp only [HSIZE] at hlo
  omega

theorem Inv.write (h : Inv base lo w) (f : Nat → Header) :
    Inv base lo { w with heap := { w.heap with mem := fun a => if w.Owns a then f a else w.heap.mem a } } := by
  refine ⟨?_, h.small⟩
  rcases h.heap with ⟨N, hs, hN, hL⟩ | ⟨hs, hfreep, hnil⟩
  · have hlow := hs.low
    have h8 : ∀ x ∈ w.live, lo + 8 ≤ x.1 := by
      intro x hx
      have hlo : lo ≤ x.1 - 8 := (hL.blocks (blockOf x) (List.mem_map_of_mem hx)).1.lo
      omega
    -- no header in use lies in a region
    have hkeepN : ∀ y ∈ N, ¬ w.Owns y.1 := by
      refine fun y hy => not_owns fun x hx => ?_
      have hx8 := h8 x hx
      refine ⟨h.small x hx, by omega, ?_⟩
      have hapart := hL.apart (blockOf x) (List.mem_map_of_mem hx) y hy
      rcases hN.blocks y hy with rfl | hf
      · exact .inl (by show base + 8 ≤ x.1; omega)
      · have := hf.pos
        rcases hapart with hb | hb
        · exact .inr hb
        · change y.1 + 8 * y.2 ≤ x.1 - 8 at hb
          exact .inl (by omega)
    have hkeepL : ∀ y ∈ w.live.map blockOf, ¬ w.Owns y.1 := by
      refine fun y hy => not_owns fun x hx => ?_
      have hx8 := h8 x hx
      refine ⟨h.small x hx, by omega, ?_⟩
      by_cases hxy : blockOf x = y
      · rw [← hxy]
        exact .inl (by show x.1 - 8 + 8 ≤ x.1; omega)
      · have hpos := (hL.blocks y hy).1.pos
        rcases hL.apart_of_ne (List.mem_map_of_mem hx) hy hxy with hb | hb
        · exact .inr hb
        · change y.1 + 8 * y.2 ≤ x.1 - 8 at hb
          exact .inl (by omega)
    exact .inl ⟨N, ⟨hs.pos, hs.low, hs.sz, hs.kern⟩, hN.grow (fun y hy => if_neg (hkeepN y hy)) rfl (le_refl _),
      hL.grow (fun y hy => if_neg (hkeepL y hy)) (le_refl _)⟩
  · exact .inr ⟨⟨hs.pos, hs.low, hs.sz, hs.kern⟩, hfreep, hnil⟩

/-- No request is larger than an `int` of bytes can hold. -/
def Small (_ : World) : Act → Prop
  | .malloc n => n ≤ MAXREQ
  | _ => True

instance (w : World) (a : Act) : Decidable (Small w a) :=
  match a with
  | .malloc n => inferInstanceAs (Decidable (n ≤ MAXREQ))
  | .free _ => inferInstanceAs (Decidable True)
  | .write _ => inferInstanceAs (Decidable True)

theorem step_inv {a : Act} (h : Inv base lo w) (ha : Small w a) (hstep : step base w a = .ok w') : Inv base lo w' := by
  cases a with
  | malloc n =>
    obtain ⟨w₁, hw₁, hinv⟩ := h.malloc ha
    cases hw₁.symm.trans hstep
    exact hinv
  | free ap =>
    by_cases hx : ∃ x ∈ w.live, x.1 = ap
    · obtain ⟨x, hx, rfl⟩ := hx
      obtain ⟨w₁, hw₁, hinv⟩ := h.free hx
      cases hw₁.symm.trans hstep
      exact hinv
    · rw [step, if_neg hx] at hstep
      cases hstep
  | write f =>
    cases hstep
    exact h.write f

structure Sound (base lo : Nat) (w : World) : Prop where
  inside : ∀ x ∈ w.live, lo + 8 ≤ x.1 ∧ x.1 + x.2 ≤ w.heap.sz
  disjoint : w.live.Pairwise fun x y => x.1 + x.2 + 8 ≤ y.1 ∨ y.1 + y.2 + 8 ≤ x.1
  list : w.heap.freep = 0 ∧ w.live = [] ∨ ∃ N, FreeList base lo w.heap N ∧
    ∀ x ∈ w.live, ∀ y ∈ N, y.1 + 8 ≤ x.1 ∨ x.1 + x.2 ≤ y.1
  malloc : ∀ n ≤ MAXREQ, ∃ w', step base w (.malloc n) = .ok w'
  free : ∀ x ∈ w.live, ∃ w', step base w (.free x.1) = .ok w'

theorem Inv.sound (h : Inv base lo w) : Sound base lo w := by
  have hret : (∀ n ≤ MAXREQ, ∃ w', step base w (.malloc n) = .ok w') ∧
      ∀ x ∈ w.live, ∃ w', step base w (.free x.1) = .ok w' :=
    ⟨fun n hn => (h.malloc hn).imp fun _ hw => hw.1, fun x hx => (h.free hx).imp fun _ hw => hw.1⟩
  rcases h.heap with ⟨N, hs, hN, hL⟩ | ⟨hs, hfreep, hnil⟩
  · have hpos := hs.pos
    have hlow := hs.low
    have hregion : ∀ x ∈ w.live, lo + 8 ≤ x.1 ∧ x.1 + x.2 ≤ (blockOf x).1 + 8 * (blockOf x).2 ∧
        (blockOf x).1 + 8 * (blockOf x).2 ≤ w.heap.sz := by
      intro x hx
      have hf := (hL.blocks (blockOf x) (List.mem_map_of_mem hx)).1
      have hlo : lo ≤ x.1 - 8 := hf.lo
      have hunits := (unitsOf_spec (h.small x hx)).2.1
      exact ⟨by omega, by show x.1 + x.2 ≤ x.1 - 8 + 8 * unitsOf x.2; omega, hf.hi⟩
    refine ⟨fun x hx => ?_, ?_, .inr ⟨N, hN, fun x hx y hy => ?_⟩, hret.1, hret.2⟩
    · obtain ⟨hlo, hend, hhi⟩ := hregion x hx
      exact ⟨hlo, hend.trans hhi⟩
    · refine (List.pairwise_map.mp hL.disjoint).imp_of_mem fun {x y} hx hy hxy => ?_
      obtain ⟨hxlo, hxend, -⟩ := hregion x hx
      obtain ⟨hylo, hyend, -⟩ := hregion y hy
      rcases hxy with hb | hb
      · change _ ≤ y.1 - 8 at hb
        exact .inl (by omega)
      · change _ ≤ x.1 - 8 at hb
        exact .inr (by omega)
    · obtain ⟨hxlo, hxend, -⟩ := hregion x hx
      rcases hN.blocks y hy with rfl | hf
      · exact .inl (by show base + 8 ≤ x.1; omega)
      · have := hf.pos
        rcases hL.apart (blockOf x) (List.mem_map_of_mem hx) y hy with hb | hb
        · exact .inr (hxend.trans hb)
        · change y.1 + 8 * y.2 ≤ x.1 - 8 at hb
          exact .inl (by omega)
  · have hempty : w.live = [] := List.map_eq_nil_iff.mp hnil
    refine ⟨fun x hx => ?_, ?_, .inl ⟨hfreep, hempty⟩, hret.1, hret.2⟩
    · rw [hempty] at hx
      cases hx
    · rw [hempty]
      exact List.Pairwise.nil

/-- In every run without a request beyond `MAXREQ` the heap keeps its promises. -/
theorem heap_sound {h : List (World × Act)} {mem : Nat → Header} {fails : Nat → Bool} (hbase : 0 < base)
    (hlow : base + 8 ≤ lo)
    (hkern : lo < KERNBASE) (hrun : Run (step base) (start mem lo fails) h w) (hsmall : Always Small h) :
    Sound base lo w := by
  have h₀ : Inv base lo (start mem lo fails) :=
    ⟨.inr ⟨⟨hbase, hlow, le_refl _, hkern⟩, rfl, rfl⟩, fun x hx => nomatch hx⟩
  exact (hrun.induct_of hsmall h₀ fun s a s' hI ha hs => step_inv hI ha hs).sound

/-- A program that asks for two regions, frees the first and asks for a smaller one. -/
theorem heap_sound_reuse : ∃ h w, Run (step 64) (start (fun _ => ⟨0, 0⟩) 4096 fun _ => false) h w ∧
    w.live = [(36848, 10), (36800, 20)] ∧ Sound 64 4096 w := by
  obtain ⟨h, w, hrun, hsmall, hlive⟩ := exists_run_of_exec (step 64) (start (fun _ => ⟨0, 0⟩) 4096 fun _ => false)
    (P := fun h w => (∀ x ∈ h, Small x.1 x.2) ∧ w.live = [(36848, 10), (36800, 20)])
    [.malloc 30, .malloc 20, .free 36832, .malloc 10] (by decide +kernel)
  exact ⟨h, w, hrun, hlive, heap_sound (by decide) (by decide) (by decide) hrun hsmall⟩

/-- A request of 2³² − 1 bytes wraps to one unit: the region given does not lie in the process. -/
theorem malloc_wraps : ∃ h w, Run (step 64) (start (fun _ => ⟨0, 0⟩) 4096 fun _ => false) h w ∧
    w.live = [(36864, 4294967295)] ∧ w.heap.sz = 36864 ∧ ¬ Sound 64 4096 w := by
  obtain ⟨h, w, hrun, hlive, hsz⟩ := exists_run_of_exec (step 64) (start (fun _ => ⟨0, 0⟩) 4096 fun _ => false)
    (P := fun _ w => w.live = [(36864, 4294967295)] ∧ w.heap.sz = 36864) [.malloc 4294967295] (by decide +kernel)
  refine ⟨h, w, hrun, hlive, hsz, fun hsound => ?_⟩
  have hinside := (hsound.inside (36864, 4294967295) (by rw [hlive]; simp)).2
  rw [hsz] at hinside
  exact absurd hinside (by decide)

end Xv6Mlfq.Heap
