import Xv6Mlfq.Heap.Model
import Xv6Mlfq.Lib.Linked

/-!
# The free list

The invariant of the allocator and `free`. A block is the address of its header and its size in units, the header
included. The free list is `base`, of no units, and the free blocks in the order of their addresses, a gap
between any two; it is circular. `free` finds the place of the block and joins it with both neighbours.
-/

namespace Xv6Mlfq.Heap

open Lib

/-- A header's address and the units it heads. -/
abbrev Block := Nat × Nat

def Before (x y : Block) : Prop := x.1 + 8 * x.2 < y.1

def Apart (x y : Block) : Prop := x.1 + 8 * x.2 ≤ y.1 ∨ y.1 + 8 * y.2 ≤ x.1

structure Fits (lo hi : Nat) (x : Block) : Prop where
  pos : 0 < x.2
  lo : lo ≤ x.1
  hi : x.1 + 8 * x.2 ≤ hi

structure FreeList (base lo : Nat) (h : Memory) (N : List Block) : Prop where
  head : N.head? = some (base, 0)
  links : Linked h.mem Header.mk base N
  sorted : N.Pairwise Before
  blocks : ∀ x ∈ N, x = (base, 0) ∨ Fits lo h.sz x
  freep : ∃ x ∈ N, h.freep = x.1

structure Live (lo : Nat) (h : Memory) (N L : List Block) : Prop where
  blocks : ∀ x ∈ L, Fits lo h.sz x ∧ (h.mem x.1).size = x.2
  apart : ∀ x ∈ L, ∀ y ∈ N, Apart x y
  disjoint : L.Pairwise Apart

structure Room (base lo : Nat) (h : Memory) : Prop where
  pos : 0 < base
  low : base + 8 ≤ lo
  sz : lo ≤ h.sz
  kern : h.sz < KERNBASE

variable {base lo n b : Nat} {s : Memory} {N L l r : List Block} {x y z : Block}

theorem Apart.symm (h : Apart x y) : Apart y x := Or.symm h

theorem Room.mapped (hs : Room base lo s) (hx : x = (base, 0) ∨ Fits lo s.sz x) : s.Mapped x.1 := by
  have hend : x.1 + 8 ≤ s.sz := by
    rcases hx with rfl | hx
    · have := hs.low
      have := hs.sz
      show base + 8 ≤ _
      omega
    · have := hx.pos
      have := hx.hi
      omega
  show x.1 + 8 ≤ _
  omega

theorem wp_load {a : Nat} {Q : Header → Memory → Prop} {E : Stop → Prop} (ha : s.Mapped a) :
    Wp (load a) s Q E ↔ Q (s.mem a) s := by
  unfold load
  rw [wp_bind, wp_look, id_eq, if_pos ha]
  exact Iff.rfl

theorem wp_store {a : Nat} {f : Header → Header} {Q : Unit → Memory → Prop} {E : Stop → Prop} (ha : s.Mapped a) :
    Wp (store a f) s Q E ↔ Q () { s with mem := Function.update s.mem a (f (s.mem a)) } := by
  unfold store
  rw [wp_bind, wp_look, id_eq, if_pos ha]
  exact Iff.rfl

theorem plus_eq {p : Nat} (h : p + 8 * n < UINT) : plus p n = p + 8 * n := by
  unfold plus
  rw [Nat.mul_comm n, Nat.mod_eq_of_lt h]

/-! ## Order -/

namespace FreeList

theorem addr_lt (h : FreeList base lo s N) (hs : Room base lo s) (hx : x ∈ N) : x.1 + 8 * x.2 < KERNBASE := by
  have := hs.low
  have := hs.sz
  have := hs.kern
  rcases h.blocks x hx with rfl | hf
  · show base + 8 * 0 < _
    omega
  · have := hf.hi
    omega

theorem mapped (h : FreeList base lo s N) (hs : Room base lo s) (hx : x ∈ N) : s.Mapped x.1 :=
  hs.mapped (h.blocks x hx)

theorem eq_of_addr (h : FreeList base lo s N) (hx : x ∈ N) (hy : y ∈ N) (hxy : x.1 = y.1) : x = y := by
  have hnodup : (N.map Prod.fst).Nodup := by
    refine List.pairwise_map.mpr (h.sorted.imp fun {x y} hb => ?_)
    unfold Before at hb
    omega
  exact List.inj_on_of_nodup_map hnodup hx hy hxy

theorem base_mem (h : FreeList base lo s N) : (base, 0) ∈ N := List.mem_of_head? h.head

theorem next_eq_base (h : FreeList base lo s (l ++ x :: r)) : next x.1 l = base := by
  have hh := h.head
  cases l with
  | nil =>
    cases hh
    rfl
  | cons y l =>
    cases hh
    rfl

theorem lt_of_mem_left (h : FreeList base lo s (l ++ x :: r)) (hy : y ∈ l) : y.1 + 8 * y.2 < x.1 :=
  (List.pairwise_append.mp h.sorted).2.2 y hy x List.mem_cons_self

theorem lt_of_mem_right (h : FreeList base lo s (l ++ x :: r)) (hy : y ∈ r) : x.1 + 8 * x.2 < y.1 :=
  (List.pairwise_cons.mp (List.pairwise_append.mp h.sorted).2.1).1 y hy

theorem splice {T : List Block} {mem' : Nat → Header} {p : Nat} (h : FreeList base lo s (l ++ x :: r)) (hy : y.1 = x.1)
    (hbase : x = (base, 0) → y = (base, 0)) (hl : ∀ z ∈ l, mem' z.1 = s.mem z.1)
    (hlinks : Linked mem' Header.mk base (y :: T)) (hsorted : (y :: T).Pairwise Before)
    (hblocks : ∀ z ∈ y :: T, z = (base, 0) ∨ Fits lo s.sz z) (hp : ∃ z ∈ l ++ y :: T, p = z.1) :
    FreeList base lo { s with mem := mem', freep := p } (l ++ y :: T) := by
  refine ⟨?_, ?_, ?_, ?_, hp⟩
  · have hh := h.head
    cases l with
    | nil =>
      cases hh
      rw [hbase rfl]
      rfl
    | cons z l => exact hh
  · obtain ⟨hll, -⟩ := linked_append.mp h.links
    refine linked_append.mpr ⟨?_, hlinks⟩
    rw [next_cons, hy]
    exact hll.frame hl
  · refine List.pairwise_append.mpr ⟨(List.pairwise_append.mp h.sorted).1, hsorted, fun z hz t ht => ?_⟩
    have hzx := h.lt_of_mem_left hz
    show z.1 + 8 * z.2 < t.1
    rcases List.mem_cons.mp ht with rfl | ht
    · omega
    · have : y.1 + 8 * y.2 < t.1 := (List.pairwise_cons.mp hsorted).1 t ht
      omega
  · intro z hz
    rcases List.mem_append.mp hz with hz | hz
    · exact h.blocks z (List.mem_append_left _ hz)
    · exact hblocks z hz

theorem length_lt (h : FreeList base lo s N) (hs : Room base lo s) : N.length ≤ KERNBASE := by
  have hlen : ∀ (N : List Block) (a : Nat), N.Pairwise Before → (∀ x ∈ N, a ≤ x.1 ∧ x.1 < KERNBASE) →
      N.length ≤ KERNBASE - a := by
    intro N
    induction N with
    | nil => exact fun _ _ _ => Nat.zero_le _
    | cons x N ih =>
      intro a hsort hin
      obtain ⟨hx, hsort⟩ := List.pairwise_cons.mp hsort
      have hrest := ih (x.1 + 1) hsort fun y hy => by
        have hb : x.1 + 8 * x.2 < y.1 := hx y hy
        have := (hin y (List.mem_cons_of_mem x hy)).2
        omega
      have := hin x List.mem_cons_self
      rw [List.length_cons]
      omega
  have := hlen N 0 h.sorted fun x hx => ⟨Nat.zero_le _, by have := h.addr_lt hs hx; omega⟩
  omega

end FreeList

theorem Live.addr_ne (hL : Live lo s N L) (h : FreeList base lo s N) (hs : Room base lo s) (hz : z ∈ L) (hx : x ∈ N) :
    z.1 ≠ x.1 := by
  have hzx := hL.apart z hz x hx
  have hzf := (hL.blocks z hz).1
  have := hzf.pos
  have := hzf.lo
  simp only [Apart] at hzx
  rcases h.blocks x hx with rfl | hf
  · have := hs.low
    show z.1 ≠ base
    omega
  · have := hf.pos
    omega

theorem exists_place (hsorted : N.Pairwise Before) (hhead : ∃ x, N.head? = some x ∧ x.1 < b) (hne : ∀ y ∈ N, y.1 ≠ b) :
    ∃ l x r, N = l ++ x :: r ∧ x.1 < b ∧ ∀ y ∈ r, b < y.1 := by
  induction N with
  | nil => simp at hhead
  | cons x N ih =>
    obtain ⟨w, hw, hxb⟩ := hhead
    cases hw
    obtain ⟨hx, hsorted⟩ := List.pairwise_cons.mp hsorted
    have hne' : ∀ y ∈ N, y.1 ≠ b := fun y hy => hne y (List.mem_cons_of_mem x hy)
    cases N with
    | nil => exact ⟨[], x, [], rfl, hxb, fun y hy => nomatch hy⟩
    | cons y N =>
      by_cases hyb : y.1 < b
      · obtain ⟨l, z, r, hN, hz, hr⟩ := ih hsorted ⟨y, rfl, hyb⟩ hne'
        exact ⟨x :: l, z, r, by rw [hN]; rfl, hz, hr⟩
      · refine ⟨[], x, y :: N, rfl, hxb, fun z hz => ?_⟩
        have hy := hne' y List.mem_cons_self
        rcases List.mem_cons.mp hz with rfl | hz
        · omega
        · have : y.1 + 8 * y.2 < z.1 := (List.pairwise_cons.mp hsorted).1 z hz
          omega

/-! ## `free` -/

section place

variable {fuel : Nat} {E : Stop → Prop}

theorem findPlace_forward (h : FreeList base lo s N) (hs : Room base lo s) (hx : x.1 < b)
    (hr : ∀ y ∈ r, b < y.1) (m : List Block) :
    ∀ k, N = k ++ (m ++ x :: r) → m.length < fuel →
      Wp (findPlace b fuel (next x.1 m)) s (fun p s' => p = x.1 ∧ s' = s) E := by
  induction m generalizing fuel with
  | nil =>
    intro k hN hfuel
    obtain ⟨fuel, rfl⟩ : ∃ f, fuel = f + 1 := ⟨fuel - 1, (Nat.succ_pred_eq_of_pos hfuel).symm⟩
    subst hN
    have hcell : s.mem x.1 = ⟨next base r, x.2⟩ := h.links.mem_eq
    rw [next_nil, findPlace, wp_bind, wp_load (h.mapped hs (by simp)), hcell]
    cases r with
    | nil =>
      -- the end of the list: `p` points back to `base`
      have := hs.low
      have hbase : base ≤ x.1 := by
        rcases List.mem_append.mp h.base_mem with hm | hm
        · have := h.lt_of_mem_left hm
          omega
        · rw [← List.mem_singleton.mp hm]
      refine Wp.ite (fun _ => wp_pure.mpr ⟨rfl, rfl⟩) fun _ => Wp.ite (fun _ => wp_pure.mpr ⟨rfl, rfl⟩) fun hc => ?_
      exact absurd ⟨hbase, Or.inl hx⟩ hc
    | cons y r =>
      rw [if_pos ⟨hx, hr y List.mem_cons_self⟩]
      exact wp_pure.mpr ⟨rfl, rfl⟩
  | cons z m ih =>
    intro k hN hfuel
    rw [List.length_cons] at hfuel
    obtain ⟨fuel, rfl⟩ : ∃ f, fuel = f + 1 := ⟨fuel - 1, by omega⟩
    have hN' : N = k ++ z :: (m ++ x :: r) := hN
    have hN'' : N = (k ++ [z]) ++ (m ++ x :: r) := by rw [hN']; simp
    have hz : FreeList base lo s (k ++ z :: (m ++ x :: r)) := hN' ▸ h
    have hcell : s.mem z.1 = ⟨next x.1 m, z.2⟩ := by
      have := hz.links.mem_eq
      rwa [next_append, next_cons] at this
    -- the next block is above `z` and not above `x`
    have hnext : z.1 < next x.1 m ∧ next x.1 m ≤ x.1 := by
      cases m with
      | nil =>
        have := hz.lt_of_mem_right (y := x) (by simp)
        exact ⟨by simp only [next_nil]; omega, le_refl _⟩
      | cons y m =>
        have hy := hz.lt_of_mem_right (y := y) (by simp)
        have hyx : FreeList base lo s ((k ++ z :: y :: m) ++ x :: r) := by simpa using hz
        have := hyx.lt_of_mem_left (y := y) (by simp)
        exact ⟨by simp only [next_cons]; omega, by simp only [next_cons]; omega⟩
    rw [next_cons, findPlace, wp_bind, wp_load (h.mapped hs (by rw [hN']; simp)), hcell,
      if_neg (by show ¬ (_ ∧ b < next x.1 m); omega), if_neg (by show ¬ (z.1 ≥ next x.1 m ∧ _); omega)]
    exact ih (k ++ [z]) hN'' (by omega)

theorem findPlace_round (h : FreeList base lo s (l ++ x :: r)) (hs : Room base lo s) (hb : lo ≤ b) (hx : x.1 < b)
    (hr : ∀ y ∈ r, b < y.1) (m : List Block) :
    ∀ k, r = k ++ m → m.length + l.length < fuel →
      Wp (findPlace b fuel (next base m)) s (fun p s' => p = x.1 ∧ s' = s) E := by
  induction m generalizing fuel with
  | nil =>
    intro k _ hfuel
    rw [next_nil, ← h.next_eq_base]
    exact findPlace_forward h hs hx hr l [] rfl (by simpa using hfuel)
  | cons z m ih =>
    intro k hk hfuel
    rw [List.length_cons] at hfuel
    obtain ⟨fuel, rfl⟩ : ∃ f, fuel = f + 1 := ⟨fuel - 1, by omega⟩
    have hN : l ++ x :: r = (l ++ x :: k) ++ z :: m := by rw [hk]; simp
    have hz : FreeList base lo s ((l ++ x :: k) ++ z :: m) := hN ▸ h
    have hcell : s.mem z.1 = ⟨next base m, z.2⟩ := hz.links.mem_eq
    have hzb : b < z.1 := hr z (by rw [hk]; simp)
    have hnext : ¬ (z.1 ≥ next base m ∧ (b > z.1 ∨ b < next base m)) := by
      have := hs.low
      cases m with
      | nil =>
        rw [next_nil]
        omega
      | cons y m =>
        have := hz.lt_of_mem_right (y := y) (by simp)
        rw [next_cons]
        omega
    rw [next_cons, findPlace, wp_bind, wp_load (h.mapped hs (by rw [hN]; simp)), hcell,
      if_neg (by show ¬ (b > z.1 ∧ _); omega), if_neg hnext]
    exact ih (k ++ [z]) (by rw [hk]; simp) (by omega)

theorem findPlace_spec (h : FreeList base lo s (l ++ x :: r)) (hs : Room base lo s) (hb : lo ≤ b) (hx : x.1 < b)
    (hr : ∀ y ∈ r, b < y.1) (hy : y ∈ l ++ x :: r) :
    Wp (findPlace b passes y.1) s (fun p s' => p = x.1 ∧ s' = s) E := by
  have hlen := h.length_lt hs
  have hpasses := kernbase_lt_passes
  rw [List.length_append, List.length_cons] at hlen
  by_cases hyr : y ∈ r
  · obtain ⟨k, m, hk⟩ := List.append_of_mem hyr
    refine findPlace_round h hs hb hx hr (y :: m) k hk ?_
    have := congrArg List.length hk
    simp only [List.length_append, List.length_cons] at this ⊢
    omega
  · obtain ⟨k, m, hk⟩ : ∃ k m, l ++ [x] = k ++ y :: m := List.append_of_mem (by simpa [hyr] using hy)
    -- `y` stands before `x`, or is `x`
    obtain ⟨m', hm', hnext⟩ : ∃ m', l ++ x :: r = k ++ (m' ++ x :: r) ∧ next x.1 m' = y.1 := by
      rcases List.eq_nil_or_concat m with rfl | ⟨m', w, rfl⟩
      · obtain ⟨rfl, hxy⟩ := List.append_inj' hk rfl
        cases hxy
        exact ⟨[], rfl, rfl⟩
      · rw [List.concat_eq_append] at hk
        have hk' : l ++ [x] = (k ++ y :: m') ++ [w] := by rw [hk]; simp
        obtain ⟨rfl, hxw⟩ := List.append_inj' hk' rfl
        cases hxw
        exact ⟨y :: m', by simp, rfl⟩
    rw [← hnext]
    refine findPlace_forward h hs hx hr m' k hm' ?_
    have := congrArg List.length hm'
    simp only [List.length_append, List.length_cons] at this
    omega

end place

/-- What `joinNext` makes of a block of `n` units at `b` with the blocks `r` after it: `m` units, and `R` after them. -/
structure Joined (sz b n : Nat) (r : List Block) (m : Nat) (R : List Block) : Prop where
  le : n ≤ m
  suffix : R <:+ r
  hi : b + 8 * m ≤ sz
  gap : ∀ y ∈ R, Before (b, m) y
  cover : ∀ z : Block, 0 < z.2 → Apart z (b, n) → (∀ y ∈ r, Apart z y) → Apart z (b, m)

theorem joinNext_spec {E : Stop → Prop} (h : FreeList base lo s (l ++ x :: r)) (hs : Room base lo s)
    (hb : Fits lo s.sz (b, n)) (hn : (s.mem b).size = n) (hr : ∀ y ∈ r, b < y.1)
    (hapart : ∀ y ∈ r, Apart (b, n) y) :
    Wp (joinNext b x.1) s (fun _ s' => ∃ m R, Joined s.sz b n r m R ∧
      s' = { s with mem := Function.update s.mem b ⟨next base R, m⟩ }) E := by
  have hlow := hs.low
  have hkern := hs.kern
  have hblo : lo ≤ b := hb.lo
  have hbhi : b + 8 * n ≤ s.sz := hb.hi
  have hpos : 0 < n := hb.pos
  simp only [KERNBASE] at hkern
  have hplus : plus b n = b + 8 * n := plus_eq (by simp only [UINT]; omega)
  have hbm : s.Mapped b := hs.mapped (.inr hb)
  have hcell : s.mem x.1 = ⟨next base r, x.2⟩ := h.links.mem_eq
  rw [joinNext, wp_bind, wp_load hbm, wp_bind, wp_load (h.mapped hs (by simp)), hcell, hn, hplus]
  refine Wp.ite (fun hj => ?_) fun hj => ?_ <;> dsimp only at hj
  · cases r with
    | nil =>
      rw [next_nil] at hj
      omega
    | cons y R =>
      rw [next_cons] at hj
      have hy : FreeList base lo s ((l ++ [x]) ++ y :: R) := by simpa using h
      have hym : y ∈ l ++ x :: y :: R := by simp
      have hycell : s.mem y.1 = ⟨next base R, y.2⟩ := hy.links.mem_eq
      have hyhi : y.1 + 8 * y.2 ≤ s.sz := by
        rcases h.blocks y hym with rfl | hf
        · have hlt := hr (base, 0) List.mem_cons_self
          change b < base at hlt
          omega
        · exact hf.hi
      rw [next_cons, wp_bind, wp_load (h.mapped hs hym), wp_store hbm, hycell, hn]
      refine ⟨n + y.2, R, ⟨by omega, List.suffix_cons y R, by omega, fun z hz => ?_, fun z hz hzb hzr => ?_⟩, ?_⟩
      · have := hy.lt_of_mem_right hz
        show b + 8 * (n + y.2) < z.1
        omega
      · have hzy := hzr y List.mem_cons_self
        simp only [Apart] at hzb hzy ⊢
        omega
      · rw [Nat.mod_eq_of_lt (by simp only [UINT]; omega)]
  · rw [wp_store hbm]
    refine ⟨n, r, ⟨le_refl n, List.suffix_refl r, hbhi, fun y hy => ?_, fun _ _ hz _ => hz⟩, ?_⟩
    · -- the first block after `b` leaves a gap, so the others do
      have hyb := hr y hy
      have hyn := hapart y hy
      simp only [Apart] at hyn
      show b + 8 * n < y.1
      cases r with
      | nil => cases hy
      | cons w r =>
        rw [next_cons] at hj
        rcases List.mem_cons.mp hy with rfl | hw
        · omega
        · have hwy : FreeList base lo s ((l ++ [x]) ++ w :: r) := by simpa using h
          have := hwy.lt_of_mem_right hw
          have hwn := hapart w List.mem_cons_self
          have := hr w List.mem_cons_self
          simp only [Apart] at hwn
          omega
    · rw [← hn]

section joinPrev

variable {m : Nat} {R : List Block} {E : Stop → Prop}

/-- The memory after `joinNext`, and a header written at `x`. -/
abbrev rejoin (base : Nat) (s : Memory) (b m : Nat) (R : List Block) (x : Block) (v : Header) : Nat → Header :=
  Function.update (Function.update s.mem b ⟨next base R, m⟩) x.1 v

theorem rejoin_frame (h : FreeList base lo s (l ++ x :: r)) (hxb : x.1 < b) (hj : Joined s.sz b n r m R) (v : Header) :
    (∀ z ∈ l, rejoin base s b m R x v z.1 = s.mem z.1) ∧ Linked (rejoin base s b m R x v) Header.mk base R := by
  refine ⟨fun z hz => ?_, ?_⟩
  · have := h.lt_of_mem_left hz
    rw [rejoin, Function.update_of_ne (by omega), Function.update_of_ne (by omega)]
  · obtain ⟨k, hk⟩ := hj.suffix
    have hlinks : Linked s.mem Header.mk base ((l ++ x :: k) ++ R) := by
      have := h.links
      rw [← hk] at this
      simpa using this
    refine (linked_append.mp hlinks).2.frame fun z hz => ?_
    have := h.lt_of_mem_right (hj.suffix.subset hz)
    have hbz : b + 8 * m < z.1 := hj.gap z hz
    rw [rejoin, Function.update_of_ne (by omega), Function.update_of_ne (by omega)]

theorem rejoin_live {N' : List Block} (h : FreeList base lo s (l ++ x :: r)) (hs : Room base lo s)
    (hL : Live lo s (l ++ x :: r) L) (hb : Fits lo s.sz (b, n)) (hbL : ∀ z ∈ L, Apart z (b, n)) (v : Header)
    (hN' : ∀ z ∈ L, ∀ y ∈ N', Apart z y) :
    Live lo { s with mem := rejoin base s b m R x v, freep := x.1 } N' L := by
  refine ⟨fun z hz => ⟨(hL.blocks z hz).1, ?_⟩, hN', hL.disjoint⟩
  have hzpos := (hL.blocks z hz).1.pos
  have hbpos : 0 < n := hb.pos
  have hzb := hbL z hz
  simp only [Apart] at hzb
  show (Function.update (Function.update s.mem b _) x.1 v z.1).size = z.2
  rw [Function.update_of_ne (hL.addr_ne h hs hz (by simp)), Function.update_of_ne (by omega)]
  exact (hL.blocks z hz).2

theorem Joined.rest (h : FreeList base lo s (l ++ x :: r)) (hj : Joined s.sz b n r m R) :
    R.Pairwise Before ∧ ∀ z ∈ R, z = (base, 0) ∨ Fits lo s.sz z := by
  have hrs := (List.pairwise_cons.mp (List.pairwise_append.mp h.sorted).2.1).2
  exact ⟨hrs.sublist hj.suffix.sublist, fun z hz => h.blocks z (by simp [hj.suffix.subset hz])⟩

theorem FreeList.insert (h : FreeList base lo s (l ++ x :: r)) (hb : Fits lo s.sz (b, n)) (hxb : x.1 + 8 * x.2 < b)
    (hj : Joined s.sz b n r m R) :
    FreeList base lo { s with mem := rejoin base s b m R x ⟨b, x.2⟩, freep := x.1 } (l ++ x :: (b, m) :: R) := by
  have hpos : 0 < n := hb.pos
  have hle := hj.le
  obtain ⟨hl, hR⟩ := rejoin_frame h (by omega) hj ⟨b, x.2⟩
  obtain ⟨hsorted, hblocks⟩ := hj.rest h
  refine h.splice rfl id hl ⟨Function.update_self .., ?_, hR⟩ ?_ ?_ ⟨x, by simp, rfl⟩
  · show rejoin base s b m R x _ b = _
    rw [rejoin, Function.update_of_ne (by omega), Function.update_self]
  · refine List.pairwise_cons.mpr ⟨fun z hz => ?_, List.pairwise_cons.mpr ⟨hj.gap, hsorted⟩⟩
    rcases List.mem_cons.mp hz with rfl | hz
    · exact hxb
    · exact h.lt_of_mem_right (hj.suffix.subset hz)
  · intro z hz
    rcases List.mem_cons.mp hz with rfl | hz
    · exact h.blocks z (by simp)
    · rcases List.mem_cons.mp hz with rfl | hz
      · exact .inr ⟨by show 0 < m; omega, hb.lo, hj.hi⟩
      · exact hblocks z hz

theorem FreeList.absorb (h : FreeList base lo s (l ++ x :: r)) (hx : Fits lo s.sz x) (hlo : base < lo)
    (hxb : x.1 + 8 * x.2 = b) (hj : Joined s.sz b n r m R) :
    FreeList base lo { s with mem := rejoin base s b m R x ⟨next base R, x.2 + m⟩, freep := x.1 }
      (l ++ (x.1, x.2 + m) :: R) := by
  have hpos := hx.pos
  have hxlo := hx.lo
  have hhi := hj.hi
  obtain ⟨hl, hR⟩ := rejoin_frame h (by omega) hj ⟨next base R, x.2 + m⟩
  obtain ⟨hsorted, hblocks⟩ := hj.rest h
  refine h.splice rfl (fun h0 => ?_) hl ⟨Function.update_self .., hR⟩ ?_ ?_ ⟨(x.1, x.2 + m), by simp, rfl⟩
  · rw [h0] at hxlo
    exact absurd hlo (Nat.not_lt.mpr hxlo)
  · refine List.pairwise_cons.mpr ⟨fun z hz => ?_, hsorted⟩
    have hbz : b + 8 * m < z.1 := hj.gap z hz
    show x.1 + 8 * (x.2 + m) < z.1
    omega
  · intro z hz
    rcases List.mem_cons.mp hz with rfl | hz
    · exact .inr ⟨by show 0 < x.2 + m; omega, hxlo, by show x.1 + 8 * (x.2 + m) ≤ s.sz; omega⟩
    · exact hblocks z hz

theorem joinPrev_spec (h : FreeList base lo s (l ++ x :: r)) (hs : Room base lo s)
    (hL : Live lo s (l ++ x :: r) L) (hb : Fits lo s.sz (b, n)) (hxb : x.1 < b ∧ x.1 + 8 * x.2 ≤ b)
    (hbL : ∀ z ∈ L, Apart z (b, n)) (hj : Joined s.sz b n r m R) :
    Wp (joinPrev b x.1) { s with mem := Function.update s.mem b ⟨next base R, m⟩ } (fun _ s' =>
      ∃ mem' N', s' = { s with mem := mem' } ∧ FreeList base lo { s with mem := mem', freep := x.1 } N' ∧
        Live lo { s with mem := mem', freep := x.1 } N' L ∧ ∃ y ∈ N', n ≤ y.2) E := by
  obtain ⟨hxlt, hxb⟩ := hxb
  have hlow := hs.low
  have hkern := hs.kern
  have hblo : lo ≤ b := hb.lo
  have hhi := hj.hi
  have hle := hj.le
  simp only [KERNBASE] at hkern
  have hxmap : ({ s with mem := Function.update s.mem b ⟨next base R, m⟩ } : Memory).Mapped x.1 := h.mapped hs (by simp)
  have hbmap : ({ s with mem := Function.update s.mem b ⟨next base R, m⟩ } : Memory).Mapped b := hs.mapped (.inr hb)
  have hxmem : ({ s with mem := Function.update s.mem b ⟨next base R, m⟩ } : Memory).mem x.1 = ⟨next base r, x.2⟩ := by
    show Function.update s.mem b _ x.1 = _
    rw [Function.update_of_ne (by omega), h.links.mem_eq]
  have hbmem : ({ s with mem := Function.update s.mem b ⟨next base R, m⟩ } : Memory).mem b = ⟨next base R, m⟩ :=
    Function.update_self ..
  -- a block in use lies apart from the grown block and from the rest of the list
  have hbA : ∀ z ∈ L, Apart z (b, m) := fun z hz =>
    hj.cover z (hL.blocks z hz).1.pos (hbL z hz) fun y hy => hL.apart z hz y (by simp [hy])
  have hrest : ∀ z ∈ L, ∀ y, y ∈ l ∨ y ∈ R → Apart z y := by
    intro z hz y hy
    rcases hy with hy | hy
    · exact hL.apart z hz y (by simp [hy])
    · exact hL.apart z hz y (by simp [hj.suffix.subset hy])
  have hplus : plus x.1 x.2 = x.1 + 8 * x.2 := plus_eq (by simp only [UINT]; omega)
  rw [joinPrev, wp_bind, wp_load hxmap, hxmem, hplus]
  refine Wp.ite (fun hc => ?_) fun hc => ?_
  · have hc : x.1 + 8 * x.2 = b := hc
    have hxf : Fits lo s.sz x := by
      refine (h.blocks x (by simp)).resolve_left fun h0 => ?_
      rw [h0] at hc
      change base + 8 * 0 = b at hc
      omega
    rw [wp_bind, wp_load hbmap, wp_store hxmap, hxmem, hbmem, Nat.mod_eq_of_lt (by simp only [UINT]; omega)]
    refine ⟨_, l ++ (x.1, x.2 + m) :: R, rfl, h.absorb hxf (by omega) hc hj, rejoin_live h hs hL hb hbL _ ?_,
      (x.1, x.2 + m), by simp, by show n ≤ x.2 + m; omega⟩
    intro z hz y hy
    rcases List.mem_append.mp hy with hy | hy
    · exact hrest z hz y (.inl hy)
    · rcases List.mem_cons.mp hy with rfl | hy
      · have hzx := hL.apart z hz x (by simp)
        have hzb := hbA z hz
        have := (hL.blocks z hz).1.pos
        simp only [Apart] at hzx hzb ⊢
        omega
      · exact hrest z hz y (.inr hy)
  · have hc : x.1 + 8 * x.2 ≠ b := hc
    rw [wp_store hxmap, hxmem]
    refine ⟨_, l ++ x :: (b, m) :: R, rfl, h.insert hb (by omega) hj, rejoin_live h hs hL hb hbL _ ?_,
      (b, m), by simp, hle⟩
    intro z hz y hy
    rcases List.mem_append.mp hy with hy | hy
    · exact hrest z hz y (.inl hy)
    · rcases List.mem_cons.mp hy with rfl | hy
      · exact hL.apart z hz y (by simp)
      · rcases List.mem_cons.mp hy with rfl | hy
        · exact hbA z hz
        · exact hrest z hz y (.inr hy)

end joinPrev

theorem free_spec {E : Stop → Prop} (h : FreeList base lo s N) (hs : Room base lo s) (hL : Live lo s N L)
    (hb : Fits lo s.sz (b, n)) (hn : (s.mem b).size = n) (hbN : ∀ y ∈ N, Apart (b, n) y)
    (hbL : ∀ z ∈ L, Apart z (b, n)) :
    Wp (free (b + 8)) s (fun _ s' => ∃ mem' p N', s' = { s with mem := mem', freep := p } ∧ FreeList base lo s' N' ∧
      Live lo s' N' L ∧ ∃ y ∈ N', n ≤ y.2) E := by
  have hlow := hs.low
  have hkern := hs.kern
  have hblo : lo ≤ b := hb.lo
  have hpos : 0 < n := hb.pos
  have hbhi : b + 8 * n ≤ s.sz := hb.hi
  simp only [KERNBASE] at hkern
  have hbp : (b + 8 + UINT - HSIZE) % UINT = b := by
    simp only [UINT, HSIZE]
    omega
  have hne : ∀ y ∈ N, y.1 ≠ b := by
    intro y hy hyb
    have hby := hbN y hy
    simp only [Apart] at hby
    rcases h.blocks y hy with rfl | hf
    · change base = b at hyb
      omega
    · have := hf.pos
      omega
  obtain ⟨l, x, r, rfl, hx, hr⟩ := exists_place h.sorted ⟨(base, 0), h.head, by show base < b; omega⟩ hne
  obtain ⟨y, hy, hfreep⟩ := h.freep
  rw [free, wp_bind, wp_look, hbp, hfreep]
  refine Wp.bind (findPlace_spec h hs hblo hx hr hy) fun p s' ⟨hp, hs'⟩ => ?_
  subst hp hs'
  refine Wp.bind (joinNext_spec h hs hb hn hr fun y hy => hbN y (by simp [hy])) fun _ s' ⟨m, R, hj, hs'⟩ => ?_
  subst hs'
  have hxb : x.1 + 8 * x.2 ≤ b := by
    have := hbN x (by simp)
    simp only [Apart] at this
    omega
  refine Wp.bind (joinPrev_spec h hs hL hb ⟨hx, hxb⟩ hbL hj) fun _ s' ⟨mem', N', hs', hN', hL', hgrown⟩ => ?_
  subst hs'
  exact ⟨mem', x.1, N', rfl, hN', hL', hgrown⟩

end Xv6Mlfq.Heap
