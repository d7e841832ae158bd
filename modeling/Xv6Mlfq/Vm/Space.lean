import Xv6Mlfq.Lib.Sums
import Xv6Mlfq.Vm.Model

/-!
# Address spaces and who owns which page

`Space` is an address space as the hardware sees it: which page tables the directory has, and the entry of every
virtual page (page `n` is the addresses from `n * 4096` on; an entry without a page table is 0). The pages of a space are
its page tables and the pages that its user half maps (`Space.pages`).

`Bal U c s` says that the pages `U` of the allocator are the free ones and those in `c`, each once. `At U d v c s` says
that `v` is the address space of the directory `d`, and that the pages of the allocator are `d`, the pages of `v`,
those in `c` and the free ones. So every function that works on `d` gets a specification that tells the new space
and at the same time says that no page is lost or used twice. `Frame c s s'` says that the pages in `c` keep their
contents.
-/

namespace Xv6Mlfq.Vm

open Lib
open Fs (word setWord memmove UINT word_setWord word_zero)

/-! ## Entries -/

theorem mkPte_lt (p perm : Nat) : mkPte p perm < UINT := by
  unfold mkPte
  simp only [PGSIZE, UINT]
  omega

theorem present_mkPte (p perm : Nat) : Present (mkPte p perm) := by
  have hodd : (perm ||| 1) % 2 = 1 := by
    rw [Nat.or_mod_two_eq_one]
    exact .inr rfl
  unfold Present mkPte
  simp only [PGSIZE, PTE_P]
  omega

theorem pteAddr_mkPte {p : Nat} (hp : p < 1048576) (perm : Nat) : pteAddr (mkPte p perm) = p := by
  unfold pteAddr mkPte
  simp only [PGSIZE, PTE_P]
  omega

theorem not_present_zero : ¬ Present 0 := by decide

theorem pdx_eq {va : Nat} (h : va < UINT) : pdx va = va / 4096 / 1024 := by
  unfold pdx
  simp only [UINT, NPDENTRIES] at *
  omega

/-! ## Address spaces -/

/-- The page tables of a page directory, and the entries of the virtual pages. -/
@[ext] structure Space where
  dir : Nat → Option Nat
  pte : Nat → Nat

def Phys.dir (s : Phys) (d i : Nat) : Option Nat :=
  if i < 1024 ∧ Present (word (s.mem d) i) then some (pteAddr (word (s.mem d) i)) else none

def Phys.space (s : Phys) (d : Nat) : Space where
  dir := s.dir d
  pte n := (s.dir d (n / 1024)).elim 0 fun t => word (s.mem t) (n % 1024)

def leaf (w : Nat) : Multiset Nat := if Present w then {pteAddr w} else 0

def leafAt (n w : Nat) : Multiset Nat := if n < 524288 then leaf w else 0

def Space.tables (v : Space) : Multiset Nat := sumBelow 1024 fun i => (v.dir i).elim 0 fun t => {t}

def Space.leaves (v : Space) : Multiset Nat := sumBelow 524288 fun n => leaf (v.pte n)

/-- The pages of a space, without its directory. -/
def Space.pages (v : Space) : Multiset Nat := v.tables + v.leaves

def Space.set (v : Space) (n w : Nat) : Space := { v with pte := Function.update v.pte n w }

def Space.addTable (v : Space) (i t : Nat) : Space := { v with dir := Function.update v.dir i (some t) }

theorem leaves_set (v : Space) (n w : Nat) :
    (v.set n w).leaves + leafAt n (v.pte n) = v.leaves + leafAt n w := by
  have hother : ∀ j, j ≠ n → leaf ((v.set n w).pte j) = leaf (v.pte j) := by
    intro j hj
    simp only [Space.set, Function.update_of_ne hj]
  have hself : (v.set n w).pte n = w := by simp only [Space.set, Function.update_self]
  unfold leafAt Space.leaves
  by_cases hn : n < 524288
  · rw [if_pos hn, if_pos hn]
    have := sumBelow_change hn fun j _ hj => hother j hj
    rwa [hself] at this
  · rw [if_neg hn, if_neg hn]
    congr 1
    exact sumBelow_congr fun j hj => hother j (by omega)

theorem tables_addTable (v : Space) {i : Nat} (hi : i < 1024) (hno : v.dir i = none) (t : Nat) :
    (v.addTable i t).tables = v.tables + {t} := by
  have hother : ∀ j < 1024, j ≠ i →
      (((v.addTable i t).dir j).elim 0 fun t => {t} : Multiset Nat) = (v.dir j).elim 0 fun t => {t} := fun j _ hj =>
    congrArg (fun o : Option Nat => (o.elim 0 fun t => {t} : Multiset Nat)) (Function.update_of_ne hj _ _)
  have hself : (v.addTable i t).dir i = some t := Function.update_self _ _ _
  have := sumBelow_change hi hother
  rw [hno, hself, Option.elim_none, add_zero] at this
  exact this

def Space.empty : Space := ⟨fun _ => none, fun _ => 0⟩

theorem pages_empty : Space.empty.pages = 0 := by
  refine Multiset.eq_zero_of_forall_notMem fun p hp => ?_
  rcases Multiset.mem_add.mp hp with hp | hp
  · obtain ⟨i, -, hp⟩ := mem_sumBelow.mp hp
    exact Multiset.notMem_zero p hp
  · obtain ⟨n, -, hp⟩ := mem_sumBelow.mp hp
    exact Multiset.notMem_zero p hp

/-! ## Who owns which page -/

structure Pool (L : Layout) (U : Multiset Nat) : Prop where
  nodup : U.Nodup
  range : ∀ p ∈ U, L.first ≤ p ∧ p < L.last
  pos : 0 < L.first
  lt : L.last ≤ 1048576

/-- The pages `U` of the allocator are those in `c` and the free ones. -/
structure Bal (U c : Multiset Nat) (s : Phys) : Prop where
  pool : Pool s.layout U
  all : c + (s.freelist : Multiset Nat) = U

/-- The address space of directory `d` is `v`; its pages, those in `c` and the free ones are the pages `U`. -/
structure At (U : Multiset Nat) (d : Nat) (v : Space) (c : Multiset Nat) (s : Phys) : Prop where
  bal : Bal U ({d} + v.pages + c) s
  space : s.space d = v

structure Frame (c : Multiset Nat) (s s' : Phys) : Prop where
  layout : s'.layout = s.layout
  oom : s'.oom = s.oom
  mem : ∀ p ∈ c, s'.mem p = s.mem p

namespace Frame

variable {c c' : Multiset Nat} {s s' s'' : Phys}

theorem refl (c : Multiset Nat) (s : Phys) : Frame c s s := ⟨rfl, rfl, fun _ _ => rfl⟩

theorem trans (h : Frame c s s') (h' : Frame c s' s'') : Frame c s s'' :=
  ⟨h'.layout.trans h.layout, h'.oom.trans h.oom, fun p hp => (h'.mem p hp).trans (h.mem p hp)⟩

theorem mono (h : Frame c s s') (hc : ∀ p ∈ c', p ∈ c) : Frame c' s s' :=
  ⟨h.layout, h.oom, fun p hp => h.mem p (hc p hp)⟩

end Frame

theorem space_congr {s s' : Phys} {d : Nat} (hd : s'.mem d = s.mem d)
    (ht : ∀ i t, s.dir d i = some t → s'.mem t = s.mem t) : s'.space d = s.space d := by
  have hdir : s'.dir d = s.dir d := by
    funext i
    unfold Phys.dir
    rw [hd]
  unfold Phys.space
  rw [hdir]
  congr 1
  funext n
  cases h : s.dir d (n / 1024) with
  | none => rfl
  | some t => exact congrArg (fun m => word m (n % 1024)) (ht _ t h)

section pages

variable {U c c' : Multiset Nat} {v : Space} {s : Phys} {d t p i j n w : Nat}

namespace Bal

theorem nodup (h : Bal U c s) : (c + (s.freelist : Multiset Nat)).Nodup := h.all ▸ h.pool.nodup

theorem range (h : Bal U c s) (hp : p ∈ c) : s.layout.first ≤ p ∧ p < s.layout.last :=
  h.pool.range p (h.all ▸ Multiset.mem_add.mpr (.inl hp))

theorem lt (h : Bal U c s) (hp : p ∈ c) : p < 1048576 := by
  have := (h.range hp).2
  have := h.pool.lt
  omega

theorem ne_zero (h : Bal U c s) (hp : p ∈ c) : p ≠ 0 := by
  have := (h.range hp).1
  have := h.pool.pos
  omega

end Bal

theorem mem_tables : p ∈ v.tables ↔ ∃ i < 1024, v.dir i = some p := by
  unfold Space.tables
  rw [mem_sumBelow]
  refine exists_congr fun i => and_congr_right fun _ => ?_
  cases v.dir i with
  | none => simp
  | some t => simp [eq_comm]

theorem mem_leaves : p ∈ v.leaves ↔ ∃ n < 524288, Present (v.pte n) ∧ pteAddr (v.pte n) = p := by
  unfold Space.leaves
  rw [mem_sumBelow]
  refine exists_congr fun n => and_congr_right fun _ => ?_
  unfold leaf
  split_ifs with h
  · simp [h, eq_comm]
  · simp [h]

theorem dir_lt_of_space (h : s.space d = v) (hi : v.dir i = some t) : i < 1024 := by
  rw [← h] at hi
  by_contra hn
  simp [Phys.space, Phys.dir, hn] at hi

/-- A directory whose own page and page tables are among the pages in `c`. -/
structure Within (c : Multiset Nat) (s : Phys) (d : Nat) (v : Space) : Prop where
  space : s.space d = v
  dir : d ∈ c
  tables : ∀ t ∈ v.tables, t ∈ c

theorem Within.frame {s' : Phys} (h : Within c s d v) (hf : Frame c s s') : Within c s' d v := by
  refine ⟨?_, h.dir, h.tables⟩
  rw [← h.space]
  refine space_congr (hf.mem d h.dir) fun i t hi => hf.mem t (h.tables t (mem_tables.mpr ?_))
  have hi' : v.dir i = some t := by
    rw [← h.space]
    exact hi
  exact ⟨i, dir_lt_of_space h.space hi', hi'⟩

namespace At

theorem empty (h : Bal U ({d} + c) s) (hd : s.mem d = fun _ => 0) : At U d Space.empty c s := by
  refine ⟨?_, ?_⟩
  · rwa [pages_empty, add_zero]
  · have hdir : s.dir d = fun _ => none := by
      funext i
      unfold Phys.dir
      rw [hd, word_zero, if_neg fun h => not_present_zero h.2]
    unfold Phys.space Space.empty
    rw [hdir]
    rfl

theorem dir_lt (h : At U d v c s) (hi : v.dir i = some t) : i < 1024 := dir_lt_of_space h.space hi

theorem parts (h : At U d v c s) : v.tables.Nodup ∧ v.leaves.Nodup ∧
    (∀ p ∈ v.tables, p ≠ d ∧ p ∉ v.leaves ∧ p ∉ c ∧ p ∉ s.freelist) ∧
    (∀ p ∈ v.leaves, p ≠ d ∧ p ∉ c ∧ p ∉ s.freelist) ∧ d ∉ c ∧ d ∉ s.freelist ∧ ∀ p ∈ c, p ∉ s.freelist := by
  have hall := h.bal.nodup
  unfold Space.pages at hall
  simp only [Multiset.nodup_add, Multiset.disjoint_left, Multiset.mem_add, Multiset.mem_singleton, Multiset.mem_coe]
    at hall
  obtain ⟨⟨⟨-, ⟨htab, hleaf, htl⟩, hd⟩, -, hc⟩, -, hfree⟩ := hall
  refine ⟨htab, hleaf, fun p hp => ⟨?_, htl hp, hc (.inr (.inl hp)), hfree (.inl (.inr (.inl hp)))⟩,
    fun p hp => ⟨?_, hc (.inr (.inr hp)), hfree (.inl (.inr (.inr hp)))⟩, hc (.inl rfl), hfree (.inl (.inl rfl)),
    fun p hp => hfree (.inr hp)⟩
  · rintro rfl
    exact hd rfl (.inl hp)
  · rintro rfl
    exact hd rfl (.inr hp)

theorem table_mem (h : At U d v c s) (hi : v.dir i = some t) : t ∈ v.tables := mem_tables.mpr ⟨i, h.dir_lt hi, hi⟩

theorem dir_inj (h : At U d v c s) (hi : v.dir i = some t) (hj : v.dir j = some t) : i = j := by
  by_contra hij
  have hdis := sumBelow_disjoint h.parts.1 (h.dir_lt hi) (h.dir_lt hj) hij
  rw [hi, hj, Multiset.disjoint_left] at hdis
  exact hdis (Multiset.mem_singleton_self t) (Multiset.mem_singleton_self t)

theorem pages_mem (h : At U d v c s) (hp : p ∈ v.pages) : s.layout.first ≤ p ∧ p < s.layout.last :=
  h.bal.range (Multiset.mem_add.mpr (.inl (Multiset.mem_add.mpr (.inr hp))))

theorem leaf_mem (hn : n < 524288) (hw : Present (v.pte n)) : pteAddr (v.pte n) ∈ v.leaves :=
  mem_leaves.mpr ⟨n, hn, hw, rfl⟩

theorem pte_some (h : At U d v c s) (hi : v.dir (n / 1024) = some t) : v.pte n = word (s.mem t) (n % 1024) := by
  have hdir : s.dir d (n / 1024) = some t := by
    rw [← hi, ← h.space]
    rfl
  rw [← h.space]
  simp only [Phys.space, hdir]
  rfl

theorem pte_none (h : At U d v c s) (hi : v.dir (n / 1024) = none) : v.pte n = 0 := by
  have hdir : s.dir d (n / 1024) = none := by
    rw [← hi, ← h.space]
    rfl
  rw [← h.space]
  simp only [Phys.space, hdir]
  rfl

theorem space_frame {s' : Phys} (h : At U d v c s) (hd : s'.mem d = s.mem d) (ht : ∀ t ∈ v.tables, s'.mem t = s.mem t) :
    s'.space d = v := by
  rw [← h.space]
  refine space_congr hd fun i t hi => ht t (h.table_mem (i := i) ?_)
  rw [← h.space]
  exact hi

theorem write (h : At U d v c s) (hi : v.dir (n / 1024) = some t) (hw : w < UINT)
    (hc : leafAt n w + c' = leafAt n (v.pte n) + c) :
    At U d (v.set n w) c' { s with mem := Function.update s.mem t (setWord (n % 1024) w (s.mem t)) } := by
  have htab := h.table_mem hi
  have htd : d ≠ t := (h.parts.2.2.1 t htab).1.symm
  refine ⟨⟨h.bal.pool, ?_⟩, ?_⟩
  · have hleaves := leaves_set v n w
    have hpages : (v.set n w).leaves + c' = v.leaves + c := by
      have : (v.set n w).leaves + c' + leafAt n (v.pte n) = v.leaves + c + leafAt n (v.pte n) := by
        rw [add_right_comm, hleaves, add_assoc, hc]
        abel
      exact add_right_cancel this
    have hin : {d} + (v.set n w).pages + c' = {d} + v.pages + c := by
      calc {d} + (v.tables + (v.set n w).leaves) + c' = {d} + v.tables + ((v.set n w).leaves + c') := by abel
        _ = {d} + v.tables + (v.leaves + c) := by rw [hpages]
        _ = {d} + (v.tables + v.leaves) + c := by abel
    rw [hin]
    exact h.bal.all
  · generalize hs' : ({ s with mem := Function.update s.mem t (setWord (n % 1024) w (s.mem t)) } : Phys) = s'
    have hmem : ∀ p, p ≠ t → s'.mem p = s.mem p := by
      intro p hp
      rw [← hs']
      exact Function.update_of_ne hp _ _
    have hself : s'.mem t = setWord (n % 1024) w (s.mem t) := by
      rw [← hs']
      exact Function.update_self _ _ _
    have hdir : s'.dir d = v.dir := by
      rw [← h.space]
      funext i
      show s'.dir d i = s.dir d i
      unfold Phys.dir
      rw [hmem d htd]
    ext i
    · show _ ∈ s'.dir d i ↔ _
      rw [hdir]
      rfl
    · show (s'.dir d (i / 1024)).elim 0 _ = Function.update v.pte n w i
      rw [hdir]
      cases hdi : v.dir (i / 1024) with
      | none =>
        have hin : i ≠ n := by
          rintro rfl
          rw [hi] at hdi
          cases hdi
        rw [Function.update_of_ne hin, h.pte_none hdi]
        rfl
      | some t' =>
        show word (s'.mem t') (i % 1024) = _
        by_cases htt : t' = t
        · subst htt
          have hblock : i / 1024 = n / 1024 := h.dir_inj hdi hi
          rw [hself, word_setWord _ _ _ hw]
          by_cases hin : i = n
          · rw [if_pos (by rw [hin]), hin, Function.update_self]
          · rw [if_neg (by omega), Function.update_of_ne hin, h.pte_some hdi]
        · have hin : i ≠ n := by
            rintro rfl
            rw [hi] at hdi
            exact htt (Option.some.inj hdi).symm
          rw [hmem t' htt, Function.update_of_ne hin, h.pte_some hdi]

end At

/-! ## kalloc and kfree -/

def Short (s : Phys) : Prop := s.freelist = [] ∨ ∃ k, s.oom k = true

theorem kalloc_spec (h : Bal U c s) {E : Stop → Prop} :
    Wp kalloc s (fun r s' => s'.mem = s.mem ∧ s'.layout = s.layout ∧ s'.oom = s.oom ∧
      r.elim (Bal U c s' ∧ Short s') fun p => Bal U ({p} + c) s') E := by
  unfold kalloc
  simp only [wp_bind, wp_look, wp_update, id]
  refine Wp.ite (fun ho => ⟨rfl, rfl, rfl, ⟨h.pool, h.all⟩, .inr ⟨_, ho⟩⟩) fun _ => ?_
  cases hl : s.freelist with
  | nil =>
    refine ⟨rfl, rfl, rfl, ⟨h.pool, ?_⟩, .inl rfl⟩
    rw [← h.all, hl]
  | cons p l =>
    refine ⟨rfl, rfl, rfl, h.pool, ?_⟩
    rw [← h.all, hl]
    show {p} + c + (l : Multiset Nat) = c + ((p :: l : List Nat) : Multiset Nat)
    rw [← Multiset.cons_coe, ← Multiset.singleton_add]
    abel

theorem kfree_spec (h : Bal U ({p} + c) s) {E : Stop → Prop} :
    Wp (kfree p) s (fun _ s' => Bal U c s' ∧ Frame c s s' ∧ ∀ q, q ≠ p → s'.mem q = s.mem q) E := by
  have hp : p ∈ {p} + c := Multiset.mem_add.mpr (.inl (Multiset.mem_singleton_self p))
  have hpc : p ∉ c := by
    have := h.nodup
    rw [Multiset.nodup_add, Multiset.nodup_add, Multiset.disjoint_left] at this
    exact this.1.2.2 (Multiset.mem_singleton_self p)
  have hmem : ∀ q, q ≠ p → Function.update s.mem p (fun _ => 1) q = s.mem q := fun q hq => Function.update_of_ne hq _ _
  unfold kfree fill
  simp only [wp_bind, wp_look, id]
  refine Wp.ite (fun _ => ?_) fun hno => absurd (h.range hp) hno
  refine ⟨⟨h.pool, ?_⟩, ⟨rfl, rfl, fun q hq => hmem q ?_⟩, hmem⟩
  · rw [← h.all]
    show c + ((p :: s.freelist : List Nat) : Multiset Nat) = {p} + c + _
    rw [← Multiset.cons_coe, ← Multiset.singleton_add]
    abel
  · rintro rfl
    exact hpc hq

/-! ## The functions on an address space -/

theorem At.reserve {s' : Phys} (h : At U d v c s) (hb : Bal U ({d} + v.pages + c') s')
    (hmem : ∀ q, q ∈ {d} + v.pages → s'.mem q = s.mem q) : At U d v c' s' := by
  refine ⟨hb, h.space_frame (hmem d ?_) fun t ht => hmem t ?_⟩
  · exact Multiset.mem_add.mpr (.inl (Multiset.mem_singleton_self d))
  · exact Multiset.mem_add.mpr (.inr (Multiset.mem_add.mpr (.inl ht)))

theorem kalloc_at (h : At U d v c s) {E : Stop → Prop} :
    Wp kalloc s (fun r s' => s'.mem = s.mem ∧ Frame c s s' ∧
      r.elim (At U d v c s' ∧ Short s') fun p => At U d v ({p} + c) s') E := by
  refine (kalloc_spec h.bal).imp fun r s' ⟨hmem, hlayout, hoom, hr⟩ => ⟨hmem, ⟨hlayout, hoom, fun p _ => by rw [hmem]⟩, ?_⟩
  cases r with
  | none => exact ⟨h.reserve hr.1 fun q _ => by rw [hmem], hr.2⟩
  | some p =>
    show At U d v ({p} + c) s'
    refine h.reserve ?_ fun q _ => by rw [hmem]
    have hall : {p} + ({d} + v.pages + c) = {d} + v.pages + ({p} + c) := by abel
    exact hall ▸ hr

theorem kfree_at (h : At U d v ({p} + c) s) {E : Stop → Prop} :
    Wp (kfree p) s (fun _ s' => At U d v c s' ∧ Frame c s s') E := by
  have hall : {d} + v.pages + ({p} + c) = {p} + ({d} + v.pages + c) := by abel
  refine (kfree_spec (hall ▸ h.bal)).imp fun _ s' ⟨hb, hf, _⟩ =>
    ⟨h.reserve hb fun q hq => hf.mem q ?_, hf.mono fun q hq => ?_⟩
  · exact Multiset.mem_add.mpr (.inl hq)
  · exact Multiset.mem_add.mpr (.inr hq)

theorem At.scribble (h : At U d v ({p} + c) s) (b : Nat → UInt8) :
    At U d v ({p} + c) { s with mem := Function.update s.mem p b } ∧
      Frame c s { s with mem := Function.update s.mem p b } := by
  have hnodup := h.bal.nodup
  simp only [Multiset.nodup_add, Multiset.disjoint_left, Multiset.mem_add, Multiset.mem_singleton] at hnodup
  refine ⟨h.reserve ⟨h.bal.pool, h.bal.all⟩ fun q hq => Function.update_of_ne ?_ _ _, rfl, rfl,
    fun q hq => Function.update_of_ne ?_ _ _⟩
  · rintro rfl
    exact hnodup.1.2.2 (by simpa using hq) (.inl rfl)
  · rintro rfl
    exact hnodup.1.2.1.2.2 rfl hq

theorem walk_look {va : Nat} (h : s.space d = v) (hva : va < UINT) {E : Stop → Prop} :
    Wp (walkpgdir d va false) s (fun r s' => s' = s ∧
      r = (v.dir (va / 4096 / 1024)).map fun t => (t, va / 4096 % 1024)) E := by
  have hlt : va / 4096 / 1024 < 1024 := by
    simp only [UINT] at hva
    omega
  have hdir : v.dir (va / 4096 / 1024) = s.dir d (va / 4096 / 1024) := by
    rw [← h]
    rfl
  unfold walkpgdir entry
  simp only [wp_bind, wp_look, pdx_eq hva, hdir]
  refine Wp.ite (fun hp => ?_) fun hp => ?_
  · refine ⟨rfl, ?_⟩
    unfold Phys.dir
    rw [if_pos ⟨hlt, hp⟩]
    rfl
  · rw [if_pos trivial]
    refine ⟨rfl, ?_⟩
    unfold Phys.dir
    rw [if_neg fun h => hp h.2]
    rfl

structure Grew (v : Space) (i : Nat) (v' : Space) : Prop where
  pte : v'.pte = v.pte
  old : ∀ j t, v.dir j = some t → v'.dir j = some t
  rest : ∀ j, j ≠ i → v'.dir j = v.dir j

theorem At.addTable {g : Nat} (h : At U d v ({g} + c) s) (hi : i < 1024) (hno : v.dir i = none) (perm : Nat) :
    At U d (v.addTable i g) c { s with
      mem := Function.update (Function.update s.mem g fun _ => 0) d (setWord i (mkPte g perm) (s.mem d)) } := by
  have hg : g ∈ {d} + v.pages + ({g} + c) := by simp
  have hlt := h.bal.lt hg
  have hnodup := h.bal.nodup
  simp only [Multiset.nodup_add, Multiset.disjoint_left, Multiset.mem_add, Multiset.mem_singleton] at hnodup
  have hgd : d ≠ g := by
    rintro rfl
    exact hnodup.1.2.2 (.inl rfl) (.inl rfl)
  have hgt : ∀ t ∈ v.tables, t ≠ g := by
    rintro t ht rfl
    exact hnodup.1.2.2 (.inr (Multiset.mem_add.mpr (.inl ht))) (.inl rfl)
  generalize hs' : ({ s with
    mem := Function.update (Function.update s.mem g fun _ => 0) d (setWord i (mkPte g perm) (s.mem d)) } : Phys) = s'
  have hmemd : s'.mem d = setWord i (mkPte g perm) (s.mem d) := by
    rw [← hs']
    exact Function.update_self _ _ _
  have hmemg : s'.mem g = fun _ => 0 := by
    rw [← hs']
    show Function.update _ d _ g = _
    rw [Function.update_of_ne hgd.symm, Function.update_self]
  have hmem : ∀ q, q ≠ d → q ≠ g → s'.mem q = s.mem q := by
    intro q hqd hqg
    rw [← hs']
    show Function.update _ d _ q = _
    rw [Function.update_of_ne hqd, Function.update_of_ne hqg]
  have hdir : s'.dir d = Function.update v.dir i (some g) := by
    funext j
    unfold Phys.dir
    rw [hmemd, word_setWord _ _ _ (mkPte_lt g perm)]
    by_cases hji : j = i
    · rw [if_pos hji, if_pos ⟨hji ▸ hi, present_mkPte g perm⟩, pteAddr_mkPte hlt, hji, Function.update_self]
    · rw [if_neg hji, Function.update_of_ne hji, ← h.space]
      rfl
  refine ⟨⟨by rw [← hs']; exact h.bal.pool, ?_⟩, ?_⟩
  · have hpages : {d} + (v.addTable i g).pages + c = {d} + v.pages + ({g} + c) := by
      unfold Space.pages
      rw [tables_addTable v hi hno g]
      show {d} + (v.tables + {g} + v.leaves) + c = _
      abel
    rw [hpages, ← hs']
    exact h.bal.all
  · ext n
    · show _ ∈ s'.dir d n ↔ _
      rw [hdir]
      rfl
    · show (s'.dir d (n / 1024)).elim 0 _ = v.pte n
      rw [hdir, Function.update_apply]
      split_ifs with hn
      · rw [h.pte_none (hn ▸ hno)]
        show word (s'.mem g) _ = 0
        rw [hmemg]
        exact word_zero _
      · cases hd : v.dir (n / 1024) with
        | none =>
          rw [h.pte_none hd]
          rfl
        | some t =>
          have ht := h.table_mem hd
          rw [h.pte_some hd]
          show word (s'.mem t) _ = _
          rw [hmem t (h.parts.2.2.1 t ht).1 (hgt t ht)]

theorem walk_alloc {va : Nat} (h : At U d v c s) (hva : va < UINT) {E : Stop → Prop} :
    Wp (walkpgdir d va true) s (fun r s' => Frame c s s' ∧
      r.elim (At U d v c s' ∧ Short s') fun x => x.2 = va / 4096 % 1024 ∧
        ∃ v', Grew v (va / 4096 / 1024) v' ∧ v'.dir (va / 4096 / 1024) = some x.1 ∧ At U d v' c s') E := by
  have hlt : va / 4096 / 1024 < 1024 := by
    simp only [UINT] at hva
    omega
  have hdir : v.dir (va / 4096 / 1024) = s.dir d (va / 4096 / 1024) := by
    rw [← h.space]
    rfl
  unfold walkpgdir entry
  simp only [wp_bind, wp_look, pdx_eq hva]
  refine Wp.ite (fun hp => ?_) fun hp => ?_
  · have hsome : v.dir (va / 4096 / 1024) = some (pteAddr (word (s.mem d) (va / 4096 / 1024))) := by
      rw [hdir]
      unfold Phys.dir
      rw [if_pos ⟨hlt, hp⟩]
    exact ⟨.refl c s, rfl, v, ⟨rfl, fun _ _ h => h, fun _ _ => rfl⟩, hsome, h⟩
  · have hno : v.dir (va / 4096 / 1024) = none := by
      rw [hdir]
      unfold Phys.dir
      rw [if_neg fun h => hp h.2]
    rw [if_neg (by decide)]
    refine Wp.bind (kalloc_at h) ?_
    rintro (_ | g) s₁ ⟨-, hf, hr⟩
    · exact ⟨hf, hr⟩
    · obtain ⟨-, hf₁⟩ := hr.scribble fun _ => 0
      have hdc : d ∉ c := fun hd => hr.parts.2.2.2.2.1 (Multiset.mem_add.mpr (.inr hd))
      have hgd : d ≠ g := fun heq => hr.parts.2.2.2.2.1 (heq ▸ Multiset.mem_add.mpr (.inl (Multiset.mem_singleton_self _)))
      have hadd := hr.addTable hlt hno (PTE_W ||| PTE_U)
      simp only [fill, setEntry, wp_bind, wp_update, Function.update_of_ne hgd]
      refine ⟨hf.trans ⟨hf₁.layout, hf₁.oom, fun q hq => ?_⟩, rfl, v.addTable (va / 4096 / 1024) g,
        ⟨rfl, fun j t hj => ?_, fun j hj => ?_⟩, ?_, hadd⟩
      · have hqd : q ≠ d := fun heq => hdc (heq ▸ hq)
        show Function.update _ d _ q = _
        rw [Function.update_of_ne hqd]
        exact hf₁.mem q hq
      · have hji : j ≠ va / 4096 / 1024 := by
          rintro rfl
          rw [hno] at hj
          cases hj
        exact (Function.update_of_ne hji _ _).trans hj
      · exact Function.update_of_ne hj _ _
      · exact Function.update_self _ _ _

theorem unmap_spec (h : At U d v c s) (hi : v.dir (n / 1024) = some t) (hn : n < 524288) (hw : Present (v.pte n))
    {E : Stop → Prop} :
    Wp (do kfree (pteAddr (v.pte n)); setEntry t (n % 1024) 0) s
      (fun _ s' => At U d (v.set n 0) c s' ∧ Frame c s s') E := by
  have hleaf := At.leaf_mem hn hw
  have hpt : t ≠ pteAddr (v.pte n) := fun heq => (h.parts.2.2.1 t (h.table_mem hi)).2.1 (heq ▸ hleaf)
  have htc : t ∉ c := (h.parts.2.2.1 t (h.table_mem hi)).2.2.1
  -- the entry might as well be cleared first
  have hone : leafAt n 0 + ({pteAddr (v.pte n)} + c) = leafAt n (v.pte n) + c := by
    unfold leafAt leaf
    rw [if_pos hn, if_pos hn, if_neg not_present_zero, if_pos hw, zero_add]
  have hclear := h.write hi (show 0 < UINT by decide) hone
  have hfree := kfree_at (E := E) hclear
  unfold kfree at hfree ⊢
  simp only [wp_bind, wp_look, id, fill, setEntry] at hfree ⊢
  have hrange := h.pages_mem (Multiset.mem_add.mpr (.inr hleaf))
  rw [if_pos hrange] at hfree ⊢
  simp only [wp_bind, wp_update, Function.update_of_ne hpt] at hfree ⊢
  rw [Function.update_comm hpt.symm]
  refine ⟨hfree.1, hfree.2.layout, hfree.2.oom, fun q hq => (hfree.2.mem q hq).trans ?_⟩
  have hqt : q ≠ t := by
    rintro rfl
    exact htc hq
  exact Function.update_of_ne hqt _ _

end pages

end Xv6Mlfq.Vm
