import Xv6Mlfq.Vm.Dealloc

/-!
# mappages and allocuvm

What one pass of the loop of `mappages` does (`mappagesLoop_step`), the call for one user page (`mappages_one`), and
`allocuvm`: it maps every page of the range (`Filled`), or it fails and no page of the range is mapped (`Emptied`).
A failure has one of two reasons: a call of `kalloc` was made to fail, or at some moment no page was free (`Scarce`).
-/

namespace Xv6Mlfq.Vm

open Lib
open Fs (word setWord UINT)

/-- The page that a new entry for virtual page `n` brings into the space. -/
def own (n p : Nat) : Multiset Nat := if n < 524288 then {p} else 0

/-- The entry of page `n` has been written; its page table may be new. -/
structure Maps (v : Space) (n w : Nat) (v' : Space) : Prop where
  pte : v'.pte = Function.update v.pte n w
  table : v'.dir (n / 1024) ≠ none
  old : ∀ j t, v.dir j = some t → v'.dir j = some t
  rest : ∀ j, j ≠ n / 1024 → v'.dir j = v.dir j

/-- Why an allocation fails: the call was made to fail, or there were no more than `k` pages. -/
def Scarce (U : Multiset Nat) (k : Nat) (oom : Nat → Bool) : Prop := (∃ j, oom j = true) ∨ U.card ≤ k

section card

variable {U c : Multiset Nat} {v v' : Space} {s : Phys} {d n k w p : Nat}

theorem card_leafAt_le (n w : Nat) : (leafAt n w).card ≤ 1 := by
  unfold leafAt leaf
  split_ifs <;> simp

theorem leaves_congr (h : v'.pte = v.pte) : v'.leaves = v.leaves := by
  unfold Space.leaves
  rw [h]

theorem Maps.card_le (h : Maps v n w v') : v'.leaves.card ≤ v.leaves.card + 1 := by
  have hset := congrArg Multiset.card (leaves_set v n w)
  rw [Multiset.card_add, Multiset.card_add] at hset
  have hleaves : v'.leaves = (v.set n w).leaves := leaves_congr h.pte
  have hnew := card_leafAt_le n w
  rw [hleaves]
  omega

theorem card_tables_le (v : Space) : v.tables.card ≤ 1024 := by
  refine card_sumBelow_le fun i _ => ?_
  cases v.dir i with
  | none => exact Nat.zero_le 1
  | some t => exact le_refl 1

theorem At.scarce (h : At U d v c s) (hs : Short s) (hk : 1025 + v.leaves.card + c.card ≤ k) : Scarce U k s.oom := by
  rcases hs with hnil | hoom
  · have htables := card_tables_le v
    have hall := congrArg Multiset.card h.bal.all
    unfold Space.pages at hall
    simp only [hnil, Multiset.card_add, Multiset.card_singleton, Multiset.coe_nil, Multiset.card_zero] at hall
    exact .inr (by omega)
  · exact .inl hoom

end card

section mappages

variable {U c : Multiset Nat} {v : Space} {s : Phys} {d n p perm last fuel : Nat} {E : Stop → Prop}

theorem mappagesLoop_step {Q : Bool → Phys → Prop} (h : At U d v (own n p + c) s) (hn : n < 1048576)
    (hp : n < 524288 → p < 1048576) (hremap : Present (v.pte n) → E (.panic "remap"))
    (hfail : ∀ s', At U d v (own n p + c) s' → Frame (own n p + c) s s' → Short s' → Q false s')
    (hok : ∀ s' v', Maps v n (mkPte p perm) v' → At U d v' c s' → Frame (own n p + c) s s' →
      Wp (if n * PGSIZE = last then pure true else mappagesLoop d last perm fuel ((n * PGSIZE + PGSIZE) % UINT) (p + 1))
        s' Q E) :
    Wp (mappagesLoop d last perm (fuel + 1) (n * PGSIZE) p) s Q E := by
  unfold mappagesLoop
  refine Wp.bind (walk_alloc h (page_lt hn)) ?_
  rw [Nat.mul_div_cancel n (by decide)]
  rintro (_ | ⟨t, j⟩) s₁ ⟨hf, hr⟩
  · exact hfail s₁ hr.1 hf hr.2
  · obtain ⟨hj, v₁, hgrew, hdir, h₁⟩ := hr
    simp only at hj hdir
    simp only [entry, setEntry, wp_bind, wp_look, hj, ← h₁.pte_some hdir]
    rw [hgrew.pte]
    refine Wp.ite hremap fun hno => ?_
    have hleaf : leafAt n (mkPte p perm) + c = leafAt n (v₁.pte n) + (own n p + c) := by
      unfold leafAt leaf own
      rw [hgrew.pte, if_neg hno, if_pos (present_mkPte p perm)]
      split_ifs with hlt
      · rw [pteAddr_mkPte (hp hlt), zero_add]
      · rw [zero_add, zero_add]
    have htab := h₁.table_mem hdir
    refine hok _ (v₁.set n (mkPte p perm)) ⟨?_, ?_, hgrew.old, hgrew.rest⟩ (h₁.write hdir (mkPte_lt p perm) hleaf)
      (hf.trans ⟨rfl, rfl, fun q hq => Function.update_of_ne ?_ _ _⟩)
    · show Function.update v₁.pte n _ = _
      rw [hgrew.pte]
    · show v₁.dir (n / 1024) ≠ none
      rw [hdir]
      exact Option.some_ne_none t
    · rintro rfl
      exact (h₁.parts.2.2.1 q htab).2.2.1 hq

theorem mappages_one (h : At U d v ({p} + c) s) (hn : n < 524288) (hremap : Present (v.pte n) → E (.panic "remap")) :
    Wp (mappages d (n * PGSIZE) PGSIZE p perm) s (fun ok s' => Frame ({p} + c) s s' ∧
      if ok then ∃ v', Maps v n (mkPte p perm) v' ∧ At U d v' c s' else At U d v ({p} + c) s' ∧ Short s') E := by
  have hown : own n p = {p} := if_pos hn
  have ha : pgRoundDown (n * PGSIZE) = n * PGSIZE := by
    unfold pgRoundDown
    rw [Nat.mul_div_cancel n (by decide)]
  have hlast : pgRoundDown ((n * PGSIZE + PGSIZE - 1) % UINT) = n * PGSIZE := by
    unfold pgRoundDown
    simp only [PGSIZE, UINT]
    omega
  have hfuel : (n * PGSIZE + UINT - n * PGSIZE) % UINT / PGSIZE = 0 := by
    rw [Nat.add_sub_cancel_left, Nat.mod_self]
    rfl
  have hlt : p < 1048576 := h.bal.lt (Multiset.mem_add.mpr
    (.inr (Multiset.mem_add.mpr (.inl (Multiset.mem_singleton_self p)))))
  unfold mappages
  simp only [ha, hlast, hfuel]
  refine mappagesLoop_step (hown ▸ h) (by omega) (fun _ => hlt) hremap (fun s' h' hf hs => ?_) fun s' v' hm h' hf => ?_
  · rw [hown] at h' hf
    exact ⟨hf, h', hs⟩
  · rw [hown] at hf
    rw [if_pos rfl]
    exact ⟨hf, v', hm, h'⟩

end mappages

/-! ## allocuvm -/

/-- Every page from `lo` to `hi - 1` has been mapped, for the user to write. -/
structure Filled (v : Space) (lo hi : Nat) (v' : Space) : Prop where
  new : ∀ n, lo ≤ n → n < hi → ∃ p, v'.pte n = mkPte p (PTE_W ||| PTE_U)
  rest : ∀ n, ¬ (lo ≤ n ∧ n < hi) → v'.pte n = v.pte n
  dir : ∀ i, 512 ≤ i → v'.dir i = v.dir i
  card : v'.leaves.card ≤ v.leaves.card + (hi - lo)

structure Emptied (v : Space) (lo hi : Nat) (v' : Space) : Prop where
  gone : ∀ n, lo ≤ n → n < hi → ¬ Present (v'.pte n)
  rest : ∀ n, ¬ (lo ≤ n ∧ n < hi) → v'.pte n = v.pte n

section allocuvm

variable {U c : Multiset Nat} {v v₀ : Space} {s : Phys} {d n lo hi oldsz newsz : Nat} {E : Stop → Prop}

theorem Filled.refl (v : Space) (lo : Nat) : Filled v lo lo v :=
  ⟨fun n h h' => absurd h (by omega), fun _ _ => rfl, fun _ _ => rfl, by omega⟩

theorem Filled.snoc {v' : Space} {p : Nat} (h : Filled v₀ lo n v) (hlo : lo ≤ n) (hn : n < 524288)
    (hm : Maps v n (mkPte p (PTE_W ||| PTE_U)) v') : Filled v₀ lo (n + 1) v' := by
  refine ⟨fun m hm₁ hm₂ => ?_, fun m hm' => ?_, fun i hi => ?_, ?_⟩
  · rw [hm.pte]
    by_cases hmn : m = n
    · exact ⟨p, by rw [hmn, Function.update_self]⟩
    · rw [Function.update_of_ne hmn]
      exact h.new m hm₁ (by omega)
  · rw [hm.pte, Function.update_of_ne (by omega)]
    exact h.rest m (by omega)
  · rw [hm.rest i (by omega)]
    exact h.dir i hi
  · have := hm.card_le
    have := h.card
    omega

theorem Filled.clear (h : Filled v₀ lo n v) (hn : n ≤ hi) : Emptied v₀ lo hi (v.clear lo hi) := by
  refine ⟨fun m hm₁ hm₂ hp => ?_, fun m hm => ?_⟩
  · unfold Space.clear at hp
    by_cases hpm : Present (v.pte m)
    · simp only [if_pos (⟨hm₁, hm₂, hpm⟩ : lo ≤ m ∧ m < hi ∧ Present (v.pte m))] at hp
      exact not_present_zero hp
    · simp only [if_neg fun h : lo ≤ m ∧ m < hi ∧ Present (v.pte m) => hpm h.2.2] at hp
      exact hpm hp
  · show (if _ then 0 else v.pte m) = _
    rw [if_neg fun h => hm ⟨h.1, h.2.1⟩]
    exact h.rest m (by omega)

/-- The loop of `allocuvm`; `v` is the space with the pages from `lo` to `n - 1` mapped. -/
theorem allocLoop_spec (fuel : Nat) (h : At U d v c s) (hfill : Filled v₀ (pageUp oldsz) n v) (hlo : pageUp oldsz ≤ n)
    (hn : n ≤ pageUp newsz) (hnew : newsz ≤ KERNBASE) (hfuel : pageUp newsz ≤ n + fuel)
    (hremap : ∀ m, pageUp oldsz ≤ m → m < pageUp newsz → Present (v₀.pte m) → E (.panic "remap")) :
    Wp (allocLoop d oldsz newsz fuel (n * PGSIZE)) s (fun r s' => Frame c s s' ∧ ∃ v', At U d v' c s' ∧
      (r = newsz ∧ Filled v₀ (pageUp oldsz) (pageUp newsz) v' ∨ r = 0 ∧ Emptied v₀ (pageUp oldsz) (pageUp newsz) v' ∧
        Scarce U (1026 + v₀.leaves.card + (pageUp newsz - pageUp oldsz) + c.card) s.oom)) E := by
  have hup : pageUp newsz ≤ 524288 := by
    unfold pageUp
    simp only [KERNBASE] at hnew
    omega
  induction fuel generalizing n v s with
  | zero =>
    obtain rfl : n = pageUp newsz := by omega
    unfold allocLoop
    rw [if_neg fun h => absurd (page_lt_iff.mp h) (by omega)]
    exact ⟨.refl c s, v, h, .inl ⟨rfl, hfill⟩⟩
  | succ fuel ih =>
    unfold allocLoop
    refine Wp.ite (fun hlt => ?_) fun hge => ?_
    · have hlt := page_lt_iff.mp hlt
      have hcard := hfill.card
      refine Wp.bind (kalloc_at h) ?_
      rintro (_ | p) s₁ ⟨-, hf₁, hr⟩
      · refine Wp.bind (deallocuvm_spec hr.1 hnew) fun _ s' hpost => ?_
        obtain ⟨_, h', hf'⟩ := hpost
        exact ⟨hf₁.trans hf', _, h', .inr ⟨rfl, hfill.clear hn, hf₁.oom ▸ hr.1.scarce hr.2 (by omega)⟩⟩
      · simp only [fill, wp_bind, wp_update]
        obtain ⟨h₂, hf₂⟩ := At.scribble hr fun _ => 0
        refine (mappages_one h₂ (by omega) fun hp => ?_).imp fun ok s₃ hpost => ?_
        · rw [hfill.rest n (by omega)] at hp
          exact hremap n hlo hlt hp
        obtain ⟨hf₃, hok⟩ := hpost
        have hf₃' : Frame c s s₃ := hf₁.trans (hf₂.trans (hf₃.mono fun q hq => Multiset.mem_add.mpr (.inr hq)))
        cases ok with
        | true =>
          obtain ⟨v', hm, h'⟩ := hok
          rw [if_pos rfl, next_page (by omega)]
          refine (ih h' (hfill.snoc hlo (by omega) hm) (by omega) hlt (by omega)).imp fun r s' hpost => ?_
          obtain ⟨hf', v'', h'', hr⟩ := hpost
          rw [hf₃'.oom] at hr
          exact ⟨hf₃'.trans hf', v'', h'', hr⟩
        | false =>
          obtain ⟨h', hs⟩ := hok
          have hscarce := h'.scarce (k := 1026 + v₀.leaves.card + (pageUp newsz - pageUp oldsz) + c.card) hs (by
            rw [Multiset.card_add, Multiset.card_singleton]
            omega)
          rw [if_neg (by decide)]
          refine Wp.bind (deallocuvm_spec h' hnew) fun _ s₄ hpost => ?_
          obtain ⟨_, h₄, hf₄⟩ := hpost
          refine Wp.bind (kfree_at h₄) fun _ s' hpost => ?_
          obtain ⟨h₅, hf₅⟩ := hpost
          refine ⟨hf₃'.trans ((hf₄.mono fun q hq => ?_).trans hf₅), _, h₅, .inr ⟨rfl, hfill.clear hn, hf₃'.oom ▸ hscarce⟩⟩
          exact Multiset.mem_add.mpr (.inr hq)
    · obtain rfl : n = pageUp newsz := by
        have := mt page_lt_iff.mpr hge
        omega
      exact ⟨.refl c s, v, h, .inl ⟨rfl, hfill⟩⟩

theorem allocuvm_spec (h : At U d v c s) (hle : oldsz ≤ newsz) (hnew : newsz < KERNBASE)
    (hremap : ∀ m, pageUp oldsz ≤ m → m < pageUp newsz → Present (v.pte m) → E (.panic "remap")) :
    Wp (allocuvm d oldsz newsz) s (fun r s' => Frame c s s' ∧ ∃ v', At U d v' c s' ∧
      (r = newsz ∧ Filled v (pageUp oldsz) (pageUp newsz) v' ∨ r = 0 ∧ Emptied v (pageUp oldsz) (pageUp newsz) v' ∧
        Scarce U (1026 + v.leaves.card + (pageUp newsz - pageUp oldsz) + c.card) s.oom)) E := by
  have hround : pgRoundUp oldsz = pageUp oldsz * PGSIZE := by
    unfold pgRoundUp pageUp
    simp only [PGSIZE, UINT, KERNBASE] at *
    omega
  unfold allocuvm
  rw [if_neg (by omega), if_neg (by omega), hround]
  refine allocLoop_spec _ h (Filled.refl v _) (le_refl _) (pageUp_mono hle) (by omega) ?_ hremap
  unfold pageUp
  simp only [PGSIZE]
  omega

end allocuvm

end Xv6Mlfq.Vm
