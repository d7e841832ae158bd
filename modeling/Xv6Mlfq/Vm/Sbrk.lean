import Xv6Mlfq.Vm.System

/-!
# growproc

`growproc` is exact and atomic unless a process of non-zero size gives back all of its memory or more than it has:
the size 0 is taken for the failure of `deallocuvm`, and a size below 0 wraps around to one above `sz`, for which
`deallocuvm` does nothing.
-/

namespace Xv6Mlfq.Vm

open Lib
open Fs (UINT)

/-- The outcome `r`, `s'` of `growproc(n)` of process `p` in state `s` is success with the new size and exactly the pages
below it, or failure with the size and the pages as they were. -/
def SbrkExact (s : Sys) (p : Nat) (n : Int) (r : Int) (s' : Sys) : Prop :=
  (r = 0 ∧ ((s'.proc p).sz : Int) = (s.proc p).sz + n ∧
    ∀ m < 524288, Present ((s'.phys.space (s.proc p).pgdir).pte m) ↔ m < pageUp (s'.proc p).sz) ∨
  (r = -1 ∧ (s'.proc p).sz = (s.proc p).sz ∧
    ∀ m < 524288, (Present ((s'.phys.space (s.proc p).pgdir).pte m) ↔ Present ((s.phys.space (s.proc p).pgdir).pte m)) ∧
      (Present ((s.phys.space (s.proc p).pgdir).pte m) →
        (s'.phys.space (s.proc p).pgdir).pte m = (s.phys.space (s.proc p).pgdir).pte m))

section

variable {U c : Multiset Nat} {v : Space} {s : Sys} {p : Nat} {n : Int}

theorem toUint_of_nonneg {x : Int} (h : 0 ≤ x) (hlt : x < 4294967296) : (toUint x : Int) = x := by
  unfold toUint
  omega

theorem toUint_of_neg {x : Int} (h : x < 0) (hge : -2147483648 ≤ x) : 2147483648 ≤ toUint x := by
  unfold toUint
  omega

theorem setSize_spec {sz : Nat} (hk : (s.proc p).kstack ≠ 0) (hd : (s.proc p).pgdir ≠ 0) {Q : Int → Sys → Prop}
    {E : Stop → Prop} (hQ : Q 0 { s with proc := Function.update s.proc p { s.proc p with sz } }) :
    Wp (setSize p sz) s Q E := by
  unfold setSize setProc switchuvm
  simp only [wp_bind, wp_update, wp_look, Function.update_self]
  rw [if_neg hk, if_neg hd]
  exact hQ

/-- A process: its page table is in order and its mapped user pages are those below its size. -/
structure Sized (U : Multiset Nat) (c : Multiset Nat) (s : Sys) (p : Nat) : Prop where
  at_ : At U (s.proc p).pgdir (s.phys.space (s.proc p).pgdir) c s.phys
  kstack : (s.proc p).kstack ≠ 0
  sz : (s.proc p).sz < KERNBASE
  mapped : ∀ m < 524288, Present ((s.phys.space (s.proc p).pgdir).pte m) ↔ m < pageUp (s.proc p).sz

namespace Sized

theorem pgdir_ne (h : Sized U c s p) : (s.proc p).pgdir ≠ 0 := h.at_.bal.ne_zero (by simp)

theorem grow (h : Sized U c s p) (hn : 0 < n) (hmax : n < 2147483648) :
    Wp (growproc p n) s (SbrkExact s p n) fun _ => False := by
  have hsz := h.sz
  have hnew : (toUint ((s.proc p).sz + n) : Int) = (s.proc p).sz + n :=
    toUint_of_nonneg (by omega) (by simp only [KERNBASE] at hsz; omega)
  generalize hnewsz : toUint ((s.proc p).sz + n) = newsz at hnew
  unfold growproc
  simp only [wp_bind, wp_look]
  rw [if_pos hn, hnewsz]
  simp only [wp_bind, wp_mem]
  by_cases hlt : newsz < KERNBASE
  · refine (allocuvm_spec h.at_ (by omega) hlt fun m hlo hhi hp => ?_).imp fun r t hpost => ?_
    · have hup : pageUp newsz ≤ 524288 := by
        unfold pageUp
        simp only [KERNBASE] at hlt
        omega
      exact absurd ((h.mapped m (by omega)).mp hp) (by omega)
    · obtain ⟨-, v', h', hr⟩ := hpost
      obtain ⟨rfl, hfill⟩ | ⟨rfl, hempty, -⟩ := hr
      · rw [if_neg (by omega)]
        refine setSize_spec (s := { s with phys := t }) h.kstack h.pgdir_ne ?_
        refine .inl ⟨rfl, ?_, fun m hm => ?_⟩
        · simp only [Function.update_self]
          exact hnew
        · simp only [Function.update_self, h'.space]
          by_cases hin : pageUp (s.proc p).sz ≤ m ∧ m < pageUp r
          · obtain ⟨q, hq⟩ := hfill.new m hin.1 hin.2
            rw [hq]
            exact ⟨fun _ => hin.2, fun _ => present_mkPte q _⟩
          · rw [hfill.rest m hin, h.mapped m hm]
            have := pageUp_mono (a := (s.proc p).sz) (b := r) (by omega)
            omega
      · rw [if_pos rfl]
        refine .inr ⟨rfl, rfl, fun m hm => ?_⟩
        simp only [h'.space]
        by_cases hin : pageUp (s.proc p).sz ≤ m ∧ m < pageUp newsz
        · have hold : ¬ Present ((s.phys.space (s.proc p).pgdir).pte m) := fun hp =>
            absurd ((h.mapped m hm).mp hp) (by omega)
          exact ⟨iff_of_false (hempty.gone m hin.1 hin.2) hold, fun hp => absurd hp hold⟩
        · rw [hempty.rest m hin]
          exact ⟨Iff.rfl, fun _ => rfl⟩
  · unfold allocuvm
    rw [if_pos (by omega)]
    exact .inr ⟨rfl, rfl, fun m _ => ⟨Iff.rfl, fun _ => rfl⟩⟩

theorem shrink (h : Sized U c s p) (hn : n < 0) (hpos : 0 < (s.proc p).sz + n) :
    Wp (growproc p n) s (SbrkExact s p n) fun _ => False := by
  have hsz := h.sz
  have hnew : (toUint ((s.proc p).sz + n) : Int) = (s.proc p).sz + n :=
    toUint_of_nonneg (by omega) (by simp only [KERNBASE] at hsz; omega)
  generalize hnewsz : toUint ((s.proc p).sz + n) = newsz at hnew
  unfold growproc
  simp only [wp_bind, wp_look]
  rw [if_neg (by omega), if_pos hn, hnewsz]
  simp only [wp_bind, wp_mem]
  refine (deallocuvm_spec h.at_ (by omega)).imp fun r t hpost => ?_
  obtain ⟨hr, h', _⟩ := hpost
  obtain rfl : r = newsz := by omega
  rw [if_neg (by omega)]
  refine setSize_spec (s := { s with phys := t }) h.kstack h.pgdir_ne ?_
  refine .inl ⟨rfl, ?_, fun m hm => ?_⟩
  · simp only [Function.update_self]
    exact hnew
  · simp only [Function.update_self, h'.space]
    have hmap := h.mapped m hm
    have hle := pageUp_mono (a := r) (b := (s.proc p).sz) (by omega)
    show Present (if _ then 0 else _) ↔ _
    split_ifs with hin
    · exact iff_of_false not_present_zero (by omega)
    · rw [hmap]
      constructor
      · intro hlt
        by_contra hge
        exact hin ⟨by omega, hlt, hmap.mpr hlt⟩
      · omega

theorem shrink_empty (h0 : (s.proc p).sz = 0) (hn : n < 0) (hmin : -2147483648 ≤ n) :
    Wp (growproc p n) s (SbrkExact s p n) fun _ => False := by
  have hge := toUint_of_neg (x := (s.proc p).sz + n) (by omega) (by omega)
  unfold growproc deallocuvm
  simp only [wp_bind, wp_look]
  rw [if_neg (by omega), if_pos hn]
  simp only [wp_bind, wp_mem]
  rw [if_pos (by omega)]
  simp only [wp_pure]
  rw [if_pos h0]
  exact .inr ⟨rfl, rfl, fun m _ => ⟨Iff.rfl, fun _ => rfl⟩⟩

/-- The process gives all of its memory back: the pages are gone and `growproc` says that it failed. -/
theorem shrink_all (h : Sized U c s p) (hpos : 0 < (s.proc p).sz) (hn : (s.proc p).sz + n = 0) :
    Wp (growproc p n) s (fun r s' => ¬ SbrkExact s p n r s') fun _ => False := by
  have hsz := h.sz
  have hnewsz : toUint ((s.proc p).sz + n) = 0 := by rw [hn]; rfl
  unfold growproc
  simp only [wp_bind, wp_look]
  rw [if_neg (by omega), if_pos (by omega), hnewsz]
  simp only [wp_bind, wp_mem]
  refine (deallocuvm_spec h.at_ (by omega)).imp fun r t hpost => ?_
  obtain ⟨hr, h', _⟩ := hpost
  rw [if_pos (by omega)]
  have hup : 0 < pageUp (s.proc p).sz := by
    unfold pageUp
    omega
  rintro (⟨hr, -⟩ | ⟨-, -, hsame⟩)
  · exact absurd (show (-1 : Int) = 0 from hr) (by decide)
  · have hfirst := ((hsame 0 (by decide)).1).mpr ((h.mapped 0 (by decide)).mpr hup)
    simp only [h'.space] at hfirst
    have h0 : ((s.phys.space (s.proc p).pgdir).clear (pageUp 0) (pageUp (s.proc p).sz)).pte 0 = 0 :=
      if_pos ⟨Nat.le_refl 0, hup, (h.mapped 0 (by decide)).mpr hup⟩
    rw [h0] at hfirst
    exact not_present_zero hfirst

/-- The process gives back more than it has: nothing happens and `growproc` says that it succeeded. -/
theorem shrink_more (h : Sized U c s p) (hpos : 0 < (s.proc p).sz) (hn : (s.proc p).sz + n < 0) (hmin : -2147483648 ≤ n) :
    Wp (growproc p n) s (fun r s' => ¬ SbrkExact s p n r s') fun _ => False := by
  have hsz := h.sz
  simp only [KERNBASE] at hsz
  have hge := toUint_of_neg (x := (s.proc p).sz + n) hn (by omega)
  unfold growproc deallocuvm
  simp only [wp_bind, wp_look]
  rw [if_neg (by omega), if_pos (by omega)]
  simp only [wp_bind, wp_mem]
  rw [if_pos (by omega)]
  simp only [wp_pure]
  rw [if_neg (by omega)]
  refine setSize_spec h.kstack h.pgdir_ne ?_
  rintro (⟨-, hexact, -⟩ | ⟨hr, -⟩)
  · simp only [Function.update_self] at hexact
    omega
  · exact absurd hr (by decide)

end Sized

/-- For every process whose mapped user pages are those below its size, every `int n` and every pattern of failing
allocations: `growproc(n)` is exact and atomic if and only if it does not shrink, or some of a non-empty process is left, or
the process is empty. -/
theorem growproc_exact_iff (h : Sized U c s p) (hmin : -2147483648 ≤ n) (hmax : n < 2147483648) :
    (∃ r s', growproc p n s = .ok (r, s') ∧ SbrkExact s p n r s') ↔
      0 ≤ n ∨ 0 < (s.proc p).sz + n ∨ (s.proc p).sz = 0 := by
  constructor
  · rintro ⟨r, s', hr, hexact⟩
    by_contra hno
    have hpos : 0 < (s.proc p).sz := by omega
    rcases lt_or_eq_of_le (show (s.proc p).sz + n ≤ 0 by omega) with hlt | heq
    · exact (h.shrink_more hpos hlt hmin).of_ok hr hexact
    · exact (h.shrink_all hpos heq).of_ok hr hexact
  · intro hc
    rcases lt_trichotomy n 0 with hn | rfl | hn
    · by_cases h0 : (s.proc p).sz = 0
      · exact (Sized.shrink_empty h0 hn hmin).returns
      · exact (h.shrink hn (by omega)).returns
    · have hzero : Wp (growproc p 0) s (SbrkExact s p 0) fun _ => False := by
        unfold growproc
        simp only [wp_bind, wp_look]
        refine setSize_spec h.kstack h.pgdir_ne ?_
        refine .inl ⟨rfl, ?_, fun m hm => ?_⟩
        · simp only [Function.update_self, add_zero]
        · simp only [Function.update_self]
          exact h.mapped m hm
      exact hzero.returns
    · exact (h.grow hn hmax).returns

end

def oneProc : Sys where
  phys := onePage 300 0 302
  proc := fun _ => ⟨.live, 4096, 300, 309, none, fun _ => none⟩
  file := fun _ => ⟨.none, 0, false, 0⟩
  pipe := fun _ => ⟨false, false⟩
  kpgdir := 0
  initproc := 0
  apstacks := []

theorem oneProc_sized : Sized {300, 301, 302, 303} 0 oneProc 1 := by
  have hat := onePage_at (n := 0) (a := 300) (p := 302) (by decide) ⟨by decide, by decide, by decide, by decide⟩
  refine ⟨hat.space.symm ▸ hat, by decide, by decide, fun m _ => ?_⟩
  show Present (((onePage 300 0 302).space 300).pte m) ↔ m < 1
  rw [hat.space]
  by_cases hm : m = 0
  · rw [hm]
    exact iff_of_true (present_mkPte 302 6) (by decide)
  · have h0 : ((Space.empty.addTable 0 301).set 0 (mkPte 302 6)).pte m = 0 := Function.update_of_ne hm _ _
    rw [h0]
    exact iff_of_false not_present_zero (by omega)

theorem growproc_exact_iff_oneProc : ∃ r s', growproc 1 (-100) oneProc = .ok (r, s') ∧ SbrkExact oneProc 1 (-100) r s' :=
  (growproc_exact_iff oneProc_sized (by decide) (by decide)).mpr (.inr (.inl (by decide)))

/-- `sbrk(-sz)` frees the memory and fails; `sbrk(-2 * sz)` does nothing and succeeds. -/
theorem growproc_all_and_more :
    (∃ s', growproc 1 (-4096) oneProc = .ok (-1, s') ∧ ((s'.phys.space 300).pte 0) = 0 ∧ (s'.proc 1).sz = 4096) ∧
      ∃ s', growproc 1 (-8192) oneProc = .ok (0, s') ∧ (s'.proc 1).sz = 4096 :=
  ⟨⟨_, rfl, by decide +kernel, rfl⟩, _, rfl, rfl⟩

end Xv6Mlfq.Vm
