import Xv6Mlfq.Heap.FreeList

/-!
# `malloc`

The loop visits the free blocks from the one after `freep` round to `freep` itself. It takes the first block that
is large enough, whole or its end; when it comes back to `freep` it asks for more memory, which `morecore` puts
into the list through `free`, and the second round finds it.
-/

namespace Xv6Mlfq.Heap

open Lib

variable {base lo n : Nat} {s : Memory} {N L l r : List Block} {u x y z : Block} {E : Stop → Prop}

/-! ## Taking a block -/

theorem FreeList.pred (h : FreeList base lo s N) (hu : u ∈ N) (hx : x ∈ N) (hptr : (s.mem u.1).ptr = x.1)
    (hbase : x.1 ≠ base) : ∃ l r, N = l ++ u :: x :: r := by
  obtain ⟨l, r, rfl⟩ := List.append_of_mem hu
  have hcell : s.mem u.1 = ⟨next base r, u.2⟩ := h.links.mem_eq
  rw [hcell] at hptr
  cases r with
  | nil => exact absurd hptr.symm hbase
  | cons y r =>
    have hyx : y = x := h.eq_of_addr (by simp) hx hptr
    exact ⟨l, r, by rw [hyx]⟩

theorem FreeList.remove (h : FreeList base lo s (l ++ u :: x :: r)) :
    FreeList base lo { s with mem := Function.update s.mem u.1 ⟨next base r, u.2⟩, freep := u.1 } (l ++ u :: r) := by
  have hsorted := (List.pairwise_append.mp h.sorted).2.1
  have hlinks := (linked_append.mp h.links).2.2.2
  refine h.splice rfl id (fun z hz => ?_) ⟨Function.update_self .., hlinks.frame fun z hz => ?_⟩ ?_ ?_ ⟨u, by simp, rfl⟩
  · have := h.lt_of_mem_left hz
    rw [Function.update_of_ne (by omega)]
  · have := h.lt_of_mem_right (List.mem_cons_of_mem x hz)
    rw [Function.update_of_ne (by omega)]
  · exact hsorted.sublist (List.Sublist.cons_cons u (List.sublist_cons_self x r))
  · intro z hz
    refine h.blocks z ?_
    rcases List.mem_cons.mp hz with rfl | hz
    · simp
    · simp [hz]

theorem FreeList.cut {v : Header} (h : FreeList base lo s (l ++ x :: r)) (hx : Fits lo s.sz x) (hlo : base < lo) (hn : 0 < n)
    (hlt : n < x.2) (hu : u ∈ l) :
    FreeList base lo { s with
      mem := Function.update (Function.update s.mem x.1 ⟨next base r, x.2 - n⟩) (x.1 + 8 * (x.2 - n)) v
      freep := u.1 } (l ++ (x.1, x.2 - n) :: r) := by
  obtain ⟨hxr, hsorted⟩ := List.pairwise_cons.mp (List.pairwise_append.mp h.sorted).2.1
  have hxlo := hx.lo
  have hxhi := hx.hi
  refine h.splice rfl (fun h0 => ?_) (fun z hz => ?_) ⟨?_, (linked_append.mp h.links).2.2.frame fun z hz => ?_⟩ ?_ ?_
    ⟨u, by simp [hu], rfl⟩
  · rw [h0] at hxlo
    exact absurd hlo (Nat.not_lt.mpr hxlo)
  · have := h.lt_of_mem_left hz
    rw [Function.update_of_ne (by omega), Function.update_of_ne (by omega)]
  · show Function.update (Function.update s.mem x.1 _) _ v x.1 = _
    rw [Function.update_of_ne (by omega), Function.update_self]
  · have := h.lt_of_mem_right hz
    rw [Function.update_of_ne (by omega), Function.update_of_ne (by omega)]
  · refine List.pairwise_cons.mpr ⟨fun z hz => ?_, hsorted⟩
    have := h.lt_of_mem_right hz
    show x.1 + 8 * (x.2 - n) < z.1
    omega
  · intro z hz
    rcases List.mem_cons.mp hz with rfl | hz
    · exact .inr ⟨by show 0 < x.2 - n; omega, hxlo, by show x.1 + 8 * (x.2 - n) ≤ s.sz; omega⟩
    · exact h.blocks z (by simp [hz])

theorem Live.take {N' : List Block} {mem' : Nat → Header} {p a : Nat} (hL : Live lo s N L) (hx : x ∈ N) (hf : Fits lo s.sz x)
    (hn : 0 < n) (ha : x.1 ≤ a) (hend : a + 8 * n = x.1 + 8 * x.2) (hsize : (mem' a).size = n)
    (hmem : ∀ z ∈ L, mem' z.1 = s.mem z.1) (hold : ∀ z ∈ L, ∀ y ∈ N', Apart z y) (hnew : ∀ y ∈ N', Apart (a, n) y) :
    Live lo { s with mem := mem', freep := p } N' ((a, n) :: L) := by
  have hlo := hf.lo
  have hhi := hf.hi
  refine ⟨fun z hz => ?_, fun z hz => ?_, List.pairwise_cons.mpr ⟨fun z hz => ?_, hL.disjoint⟩⟩
  · rcases List.mem_cons.mp hz with rfl | hz
    · exact ⟨⟨hn, by show lo ≤ a; omega, by show a + 8 * n ≤ s.sz; omega⟩, hsize⟩
    · refine ⟨(hL.blocks z hz).1, ?_⟩
      show (mem' z.1).size = z.2
      rw [hmem z hz]
      exact (hL.blocks z hz).2
  · rcases List.mem_cons.mp hz with rfl | hz
    · exact hnew
    · exact hold z hz
  · have hzx := hL.apart z hz x hx
    have := (hL.blocks z hz).1.pos
    simp only [Apart] at hzx ⊢
    omega

theorem Live.remove (hL : Live lo s (l ++ u :: x :: r) L) (h : FreeList base lo s (l ++ u :: x :: r)) (hs : Room base lo s)
    (hx : Fits lo s.sz x) :
    Live lo { s with mem := Function.update s.mem u.1 ⟨next base r, u.2⟩, freep := u.1 } (l ++ u :: r) (x :: L) := by
  have h' : FreeList base lo s ((l ++ [u]) ++ x :: r) := by simpa using h
  have hux : u.1 + 8 * u.2 < x.1 := h.lt_of_mem_right List.mem_cons_self
  refine hL.take (by simp) hx hx.pos (le_refl _) rfl ?_ (fun z hz => ?_) (fun z hz y hy => ?_) fun y hy => ?_
  · rw [Function.update_of_ne (by omega), h'.links.mem_eq]
  · rw [Function.update_of_ne (hL.addr_ne h hs hz (by simp))]
  · refine hL.apart z hz y ?_
    rcases List.mem_append.mp hy with hy | hy
    · simp [hy]
    · rcases List.mem_cons.mp hy with rfl | hy
      · simp
      · simp [hy]
  · show x.1 + 8 * x.2 ≤ y.1 ∨ y.1 + 8 * y.2 ≤ x.1
    rcases List.mem_append.mp hy with hy | hy
    · exact .inr (h'.lt_of_mem_left (List.mem_append_left _ hy)).le
    · rcases List.mem_cons.mp hy with rfl | hy
      · exact .inr hux.le
      · exact .inl (h'.lt_of_mem_right hy).le

theorem Live.cut {v : Header} {p : Nat} (hL : Live lo s (l ++ x :: r) L) (h : FreeList base lo s (l ++ x :: r))
    (hx : Fits lo s.sz x) (hn : 0 < n) (hlt : n < x.2) (hv : v.size = n) :
    Live lo { s with
      mem := Function.update (Function.update s.mem x.1 ⟨next base r, x.2 - n⟩) (x.1 + 8 * (x.2 - n)) v
      freep := p } (l ++ (x.1, x.2 - n) :: r) ((x.1 + 8 * (x.2 - n), n) :: L) := by
  have hxm : x ∈ l ++ x :: r := by simp
  refine hL.take hxm hx hn (by omega) (by omega) ?_ (fun z hz => ?_) (fun z hz y hy => ?_) fun y hy => ?_
  · rw [Function.update_self]
    exact hv
  · have hzx := hL.apart z hz x hxm
    have := (hL.blocks z hz).1.pos
    simp only [Apart] at hzx
    rw [Function.update_of_ne (by omega), Function.update_of_ne (by omega)]
  · rcases List.mem_append.mp hy with hy | hy
    · exact hL.apart z hz y (by simp [hy])
    · rcases List.mem_cons.mp hy with rfl | hy
      · have hzx := hL.apart z hz x hxm
        simp only [Apart] at hzx ⊢
        omega
      · exact hL.apart z hz y (by simp [hy])
  · show x.1 + 8 * (x.2 - n) + 8 * n ≤ y.1 ∨ y.1 + 8 * y.2 ≤ x.1 + 8 * (x.2 - n)
    rcases List.mem_append.mp hy with hy | hy
    · have := h.lt_of_mem_left hy
      exact .inr (by omega)
    · rcases List.mem_cons.mp hy with rfl | hy
      · exact .inr (le_refl _)
      · have := h.lt_of_mem_right hy
        exact .inl (by omega)

theorem takeBlock_spec (h : FreeList base lo s N) (hs : Room base lo s) (hL : Live lo s N L) (hu : u ∈ N) (hx : x ∈ N)
    (hptr : (s.mem u.1).ptr = x.1) (hn : 0 < n) (hle : n ≤ x.2) :
    Wp (takeBlock n u.1 x.1) s (fun q s' => ∃ a N', q = a + 8 ∧ s'.sz = s.sz ∧ FreeList base lo s' N' ∧
      Live lo s' N' ((a, n) :: L)) E := by
  have hlow := hs.low
  have hkern := hs.kern
  simp only [KERNBASE] at hkern
  have hxf : Fits lo s.sz x := by
    refine (h.blocks x hx).resolve_left fun h0 => ?_
    rw [h0] at hle
    change n ≤ 0 at hle
    omega
  have hxlo := hxf.lo
  have hxhi := hxf.hi
  obtain ⟨l, r, rfl⟩ := h.pred hu hx hptr (by omega)
  have heq : l ++ u :: x :: r = (l ++ [u]) ++ x :: r := by simp
  have h' : FreeList base lo s ((l ++ [u]) ++ x :: r) := heq ▸ h
  have hL' : Live lo s ((l ++ [u]) ++ x :: r) L := heq ▸ hL
  have hcell : s.mem x.1 = ⟨next base r, x.2⟩ := h'.links.mem_eq
  have hucell : s.mem u.1 = ⟨x.1, u.2⟩ := h.links.mem_eq
  have hxmap := h.mapped hs hx
  have humap := h.mapped hs hu
  rw [takeBlock, wp_bind, wp_load hxmap, hcell]
  refine Wp.ite (fun hsize => ?_) fun hsize => ?_
  · have hsize : x.2 = n := hsize
    rw [wp_bind, wp_store humap, hucell]
    refine ⟨x.1, l ++ u :: r, plus_eq (by simp only [UINT]; omega), rfl, h.remove, ?_⟩
    rw [← hsize]
    exact hL.remove h hs hxf
  · have hlt : n < x.2 := Nat.lt_of_le_of_ne hle (Ne.symm hsize)
    have hq : plus x.1 (x.2 - n) = x.1 + 8 * (x.2 - n) := plus_eq (by simp only [UINT]; omega)
    have hqmap : s.Mapped (x.1 + 8 * (x.2 - n)) := by
      refine hs.mapped (x := (x.1 + 8 * (x.2 - n), n)) (.inr ⟨hn, ?_, ?_⟩)
      · show lo ≤ x.1 + 8 * (x.2 - n)
        omega
      · show x.1 + 8 * (x.2 - n) + 8 * n ≤ s.sz
        omega
    rw [wp_bind, wp_store hxmap, hcell, hq, wp_bind]
    refine (wp_store ?_).mpr ?_
    · exact hqmap
    exact ⟨x.1 + 8 * (x.2 - n), (l ++ [u]) ++ (x.1, x.2 - n) :: r, plus_eq (by simp only [UINT]; omega), rfl,
      h'.cut hxf (by omega) hn hlt (by simp), hL'.cut h' hxf hn hlt rfl⟩

/-! ## More memory -/

/-- A list in a memory that holds the same headers, of a process that has not shrunk. -/
theorem FreeList.grow {s' : Memory} (h : FreeList base lo s N) (hmem : ∀ x ∈ N, s'.mem x.1 = s.mem x.1)
    (hfreep : s'.freep = s.freep) (hsz : s.sz ≤ s'.sz) : FreeList base lo s' N :=
  ⟨h.head, h.links.frame hmem, h.sorted, fun x hx => (h.blocks x hx).imp_right fun hf => ⟨hf.pos, hf.lo, hf.hi.trans hsz⟩,
    hfreep ▸ h.freep⟩

theorem Live.grow {s' : Memory} (hL : Live lo s N L) (hmem : ∀ x ∈ L, s'.mem x.1 = s.mem x.1) (hsz : s.sz ≤ s'.sz) :
    Live lo s' N L := by
  refine ⟨fun x hx => ?_, hL.apart, hL.disjoint⟩
  obtain ⟨hf, hsize⟩ := hL.blocks x hx
  rw [hmem x hx]
  exact ⟨⟨hf.pos, hf.lo, hf.hi.trans hsz⟩, hsize⟩

theorem sbrk_spec {k : Nat} (hsz : s.sz < KERNBASE) (hk : 0 < k) (hlt : k < KERNBASE) :
    Wp (sbrk (toInt (k % UINT))) s (fun p s' => ∃ c,
      p = none ∧ s' = { s with calls := c } ∨
      p = some s.sz ∧ s.sz + k < KERNBASE ∧ s' = { s with calls := c, sz := s.sz + k }) E := by
  have hint : toInt (k % UINT) = k := by
    rw [toInt, Nat.mod_eq_of_lt (by simp only [KERNBASE, UINT] at *; omega), if_pos hlt]
  have hnew : ((s.sz + (k : Int)) % UINT).toNat = s.sz + k := by
    simp only [KERNBASE, UINT] at *
    omega
  rw [hint, sbrk, wp_bind, wp_look, id_eq, hnew, if_pos (by omega)]
  refine Wp.ite (fun _ => wp_pure.mpr ⟨s.calls, .inl ⟨rfl, rfl⟩⟩) fun hkern => ?_
  refine Wp.ite (fun hc => by omega) fun _ => ?_
  rw [wp_bind, wp_update]
  refine Wp.ite (fun _ => wp_pure.mpr ⟨s.calls + 1, .inl ⟨rfl, rfl⟩⟩) fun _ => ?_
  rw [wp_bind, wp_update, wp_pure]
  exact ⟨s.calls + 1, .inr ⟨rfl, by omega, rfl⟩⟩

/-- What holds between two steps of `malloc`. -/
structure Ok (base lo : Nat) (s : Memory) (N L : List Block) : Prop where
  room : Room base lo s
  list : FreeList base lo s N
  live : Live lo s N L

theorem morecore_spec (h : Ok base lo s N L) (hn : n * 8 < KERNBASE) :
    Wp (morecore n) s (fun p s' => ∃ N', Ok base lo s' N' L ∧ (p = none ∨ p = some s'.freep ∧ ∃ y ∈ N', n ≤ y.2)) E := by
  obtain ⟨hs, hN, hL⟩ := h
  have hsz := hs.sz
  have hlow := hs.low
  rw [morecore]
  -- the number of units asked for
  generalize hnu : (if n < 4096 then 4096 else n) = nu
  have hge : n ≤ nu := by
    split_ifs at hnu <;> omega
  have hpos : 0 < nu := by
    split_ifs at hnu <;> omega
  have hlt : nu * 8 < KERNBASE := by
    simp only [KERNBASE] at hn ⊢
    split_ifs at hnu <;> omega
  refine Wp.bind (sbrk_spec hs.kern (Nat.mul_pos hpos (by decide)) hlt) fun p s' hp => ?_
  obtain ⟨c, ⟨rfl, rfl⟩ | ⟨rfl, hkern, rfl⟩⟩ := hp
  · exact ⟨N, ⟨⟨hs.pos, hs.low, hs.sz, hs.kern⟩, hN.grow (fun _ _ => rfl) rfl (le_refl _),
      hL.grow (fun _ _ => rfl) (le_refl _)⟩, .inl rfl⟩
  · have hroom : Room base lo { s with calls := c, sz := s.sz + nu * HSIZE } :=
      ⟨hs.pos, hs.low, Nat.le_add_right_of_le hs.sz, hkern⟩
    have hfits : Fits lo (s.sz + nu * HSIZE) (s.sz, nu) := ⟨hpos, hs.sz, by show s.sz + 8 * nu ≤ s.sz + nu * 8; omega⟩
    have hmap := hroom.mapped (.inr hfits)
    -- every header in use lies below the old size
    have hNlt : ∀ x ∈ N, x.1 + 8 * x.2 ≤ s.sz ∧ x.1 < s.sz := by
      intro x hx
      rcases hN.blocks x hx with rfl | hf
      · exact ⟨by show base + 8 * 0 ≤ s.sz; omega, by show base < s.sz; omega⟩
      · have := hf.hi
        have := hf.pos
        omega
    have hLlt : ∀ x ∈ L, x.1 + 8 * x.2 ≤ s.sz ∧ x.1 < s.sz := by
      intro x hx
      have hf := (hL.blocks x hx).1
      have := hf.hi
      have := hf.pos
      omega
    show Wp (store s.sz _ >>= _) _ _ _
    rw [wp_bind, wp_store hmap, show plus s.sz 1 = s.sz + 8 from plus_eq (by simp only [KERNBASE, UINT] at *; omega)]
    refine Wp.bind (free_spec (N := N) (L := L) (n := nu) (hN.grow (fun x hx => ?_) rfl (Nat.le_add_right ..))
      ⟨hs.pos, hs.low, hroom.sz, hkern⟩ (hL.grow (fun x hx => ?_) (Nat.le_add_right ..)) hfits ?_ (fun y hy => ?_)
      fun z hz => ?_) fun _ s' hs' => ?_
    · have := hNlt x hx
      exact Function.update_of_ne (by omega) ..
    · have := hLlt x hx
      exact Function.update_of_ne (by omega) ..
    · show (Function.update s.mem s.sz _ s.sz).size = nu
      rw [Function.update_self]
    · exact .inr (hNlt y hy).1
    · exact .inl (hLlt z hz).1
    · obtain ⟨mem', p, N', rfl, hN', hL', y, hy, hny⟩ := hs'
      exact ⟨N', ⟨⟨hs.pos, hs.low, hroom.sz, hkern⟩, hN', hL'⟩, .inr ⟨rfl, y, hy, hge.trans hny⟩⟩

/-! ## The loop -/

section loop

variable {Q : Option Nat → Memory → Prop} {f : Block} {fuel : Nat}

/-- One round, from the block after `freep` to `freep`: it takes a block, or none is large enough. -/
theorem mallocLoop_round (h : FreeList base lo s N) (hs : Room base lo s) (hf : f ∈ N) (hfreep : s.freep = f.1)
    (htake : ∀ u ∈ N, ∀ x ∈ N, (s.mem u.1).ptr = x.1 → n ≤ x.2 → Wp (takeBlock n u.1 x.1) s (fun q s' => Q (some q) s') E)
    (V : List Block) :
    ∀ u ∈ N, Linked s.mem Header.mk f.1 V → (∀ x ∈ V, x ∈ N ∧ x.1 ≠ f.1) → (s.mem u.1).ptr = next f.1 V →
      ((∀ x ∈ V, x.2 < n) → f.2 < n →
        Wp (morecore n) s (fun p s' => ∀ a, (p = none → Q none s') ∧ (p = some a → Wp (load a) s'
          (fun x s'' => Wp (mallocLoop n fuel a x.ptr) s'' Q E) E)) E) →
      Wp (mallocLoop n (fuel + V.length + 1) u.1 (next f.1 V)) s Q E := by
  have hcell : ∀ x ∈ N, (s.mem x.1).size = x.2 := by
    intro x hx
    obtain ⟨l, r, rfl⟩ := List.append_of_mem hx
    rw [h.links.mem_eq]
  induction V with
  | nil =>
    intro u hu _ _ hptr hmore
    rw [next_nil] at hptr ⊢
    rw [mallocLoop, wp_bind, wp_load (h.mapped hs hf), hcell f hf]
    refine Wp.ite (fun hfit => ?_) fun hfit => ?_
    · rw [wp_bind]
      exact htake u hu f hf hptr hfit
    · rw [wp_bind, wp_look, if_pos hfreep.symm, wp_bind]
      refine (hmore (fun x hx => nomatch hx) (by omega)).imp fun p s' hp => ?_
      cases p with
      | none => exact (hp 0).1 rfl
      | some a =>
        show Wp (load a >>= _) s' Q E
        rw [wp_bind]
        exact (hp a).2 rfl
  | cons x V ih =>
    intro u hu hlinks hV hptr hmore
    obtain ⟨hx, hxf⟩ := hV x List.mem_cons_self
    rw [next_cons] at hptr ⊢
    rw [mallocLoop, wp_bind, wp_load (h.mapped hs hx), hcell x hx]
    refine Wp.ite (fun hfit => ?_) fun hfit => ?_
    · rw [wp_bind]
      exact htake u hu x hx hptr hfit
    · have hne : ¬ x.1 = s.freep := by
        rw [hfreep]
        exact hxf
      have hxptr : (s.mem x.1).ptr = next f.1 V := by rw [hlinks.1]
      rw [wp_bind, wp_look, if_neg hne, hxptr]
      refine ih x hx hlinks.2 (fun y hy => hV y (List.mem_cons_of_mem x hy)) hxptr fun hsmall hfn => ?_
      refine hmore (fun y hy => ?_) hfn
      rcases List.mem_cons.mp hy with rfl | hy
      · omega
      · exact hsmall y hy

theorem FreeList.round (h : FreeList base lo s N) (hf : f ∈ N) :
    ∃ V, Linked s.mem Header.mk f.1 V ∧ (∀ x ∈ V, x ∈ N ∧ x.1 ≠ f.1) ∧ (s.mem f.1).ptr = next f.1 V ∧
      (∀ x ∈ N, x = f ∨ x ∈ V) ∧ V.length < N.length := by
  obtain ⟨l, r, rfl⟩ := List.append_of_mem hf
  obtain ⟨hlinks, hcell⟩ := h.links.rotate h.next_eq_base
  refine ⟨r ++ l, hlinks, fun x hx => ?_, by rw [hcell], fun x hx => ?_, by simp; omega⟩
  · rcases List.mem_append.mp hx with hx | hx
    · have := h.lt_of_mem_right hx
      exact ⟨by simp [hx], by omega⟩
    · have := h.lt_of_mem_left hx
      exact ⟨by simp [hx], by omega⟩
  · rcases List.mem_append.mp hx with hx | hx
    · exact .inr (by simp [hx])
    · rcases List.mem_cons.mp hx with rfl | hx
      · exact .inl rfl
      · exact .inr (by simp [hx])

end loop

/-- What `malloc` leaves: nothing new, or a block of `n` units more in use. -/
def Gave (base lo : Nat) (L : List Block) (n : Nat) (p : Option Nat) (s : Memory) : Prop :=
  p = none ∧ (∃ N, Ok base lo s N L) ∨ ∃ a N, p = some (a + 8) ∧ Ok base lo s N ((a, n) :: L)

theorem takeBlock_gave (h : Ok base lo s N L) (hn : 0 < n) (hu : u ∈ N) (hx : x ∈ N) (hptr : (s.mem u.1).ptr = x.1)
    (hle : n ≤ x.2) : Wp (takeBlock n u.1 x.1) s (fun q s' => Gave base lo L n (some q) s') E := by
  refine (takeBlock_spec h.list h.room h.live hu hx hptr hn hle).imp fun q s' ⟨a, N', hq, hsz, hN', hL'⟩ => ?_
  exact .inr ⟨a, N', by rw [hq], ⟨h.room.pos, h.room.low, hsz ▸ h.room.sz, hsz ▸ h.room.kern⟩, hN', hL'⟩

theorem mallocLoop_fits {fuel : Nat} (h : Ok base lo s N L) (hn : 0 < n) (hy : ∃ y ∈ N, n ≤ y.2) (hfuel : KERNBASE < fuel) :
    Wp (load s.freep) s (fun x s' => Wp (mallocLoop n fuel s.freep x.ptr) s' (Gave base lo L n) E) E := by
  obtain ⟨f, hf, hfreep⟩ := h.list.freep
  obtain ⟨V, hlinks, hV, hptr, hall, hlen⟩ := h.list.round hf
  have hlen' := h.list.length_lt h.room
  obtain ⟨k, rfl⟩ : ∃ k, fuel = k + V.length + 1 := ⟨fuel - V.length - 1, by omega⟩
  rw [hfreep, wp_load (h.list.mapped h.room hf), hptr]
  refine mallocLoop_round h.list h.room hf hfreep (fun u hu x hx hp hle => takeBlock_gave h hn hu hx hp hle) V f hf
    hlinks hV hptr fun hsmall hfn => ?_
  obtain ⟨y, hy, hle⟩ := hy
  rcases hall y hy with rfl | hyV
  · omega
  · have := hsmall y hyV
    omega

theorem mallocLoop_spec (h : Ok base lo s N L) (hn : 0 < n) (hlt : n * 8 < KERNBASE) :
    Wp (load s.freep) s (fun x s' => Wp (mallocLoop n passes s.freep x.ptr) s' (Gave base lo L n) E) E := by
  obtain ⟨f, hf, hfreep⟩ := h.list.freep
  obtain ⟨V, hlinks, hV, hptr, -, hlen⟩ := h.list.round hf
  have hlen' := h.list.length_lt h.room
  have hpasses := kernbase_lt_passes
  obtain ⟨k, hk, hkern⟩ : ∃ k, passes = k + V.length + 1 ∧ KERNBASE < k := ⟨passes - V.length - 1, by omega, by omega⟩
  rw [hfreep, wp_load (h.list.mapped h.room hf), hptr, hk]
  refine mallocLoop_round h.list h.room hf hfreep (fun u hu x hx hp hle => takeBlock_gave h hn hu hx hp hle) V f hf
    hlinks hV hptr fun _ _ => ?_
  refine (morecore_spec h hlt).imp fun p s' ⟨N', h', hp⟩ a => ⟨fun hnone => ?_, fun hsome => ?_⟩
  · exact .inl ⟨rfl, N', h'⟩
  · rcases hp with hp | ⟨hp, hy⟩
    · cases hp.symm.trans hsome
    · cases hp.symm.trans hsome
      exact mallocLoop_fits h' hn hy hkern

end Xv6Mlfq.Heap
