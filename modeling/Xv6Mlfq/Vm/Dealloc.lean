import Xv6Mlfq.Vm.Space

/-!
# deallocuvm and freevm

`deallocuvm` clears the entries of a range of virtual pages and frees the pages (`Space.clear`). Where the directory has
no page table its loop jumps to the next page table; a scan page by page (`scan`) does the same to the same memory
(`deallocLoop_eq_scan`), because an entry without a page table is not present.
-/

namespace Xv6Mlfq.Vm

open Lib
open Fs (word setWord UINT)

/-- The present entries of the pages from `lo` to `hi - 1` are cleared. -/
def Space.clear (v : Space) (lo hi : Nat) : Space :=
  { v with pte := fun n => if lo ≤ n ∧ n < hi ∧ Present (v.pte n) then 0 else v.pte n }

def pageUp (a : Nat) : Nat := (a + 4095) / 4096

theorem page_lt_iff {a n : Nat} : n * PGSIZE < a ↔ n < pageUp a := by
  unfold pageUp
  simp only [PGSIZE]
  omega

theorem pageUp_mono {a b : Nat} (h : a ≤ b) : pageUp a ≤ pageUp b := by
  unfold pageUp
  omega

section clear

variable {v : Space} {lo mid hi n : Nat}

theorem clear_empty (h : hi ≤ lo) : v.clear lo hi = v := by
  unfold Space.clear
  congr 1
  funext n
  rw [if_neg (by omega)]

theorem clear_clear (h : lo ≤ mid) (h' : mid ≤ hi) : (v.clear lo mid).clear mid hi = v.clear lo hi := by
  have h0 := not_present_zero
  unfold Space.clear
  congr 1
  funext n
  by_cases hn : lo ≤ n ∧ n < mid ∧ Present (v.pte n)
  · simp only [if_pos hn]
    rw [if_neg fun h => h0 h.2.2, if_pos ⟨hn.1, by omega, hn.2.2⟩]
  · simp only [if_neg hn]
    refine if_congr ⟨fun h => ⟨by omega, h.2⟩, fun h => ⟨?_, h.2⟩⟩ rfl rfl
    by_contra hlt
    exact hn ⟨h.1, by omega, h.2.2⟩

theorem clear_absent (h : lo ≤ mid) (habs : ∀ n, lo ≤ n → n < mid → ¬ Present (v.pte n)) :
    v.clear lo hi = v.clear mid hi := by
  unfold Space.clear
  congr 1
  funext n
  refine if_congr ⟨fun h => ⟨?_, h.2⟩, fun h => ⟨by omega, h.2⟩⟩ rfl rfl
  by_contra hlt
  exact habs n h.1 (by omega) h.2.2

theorem clear_one (h : Present (v.pte n)) : v.clear n (n + 1) = v.set n 0 := by
  unfold Space.clear Space.set
  congr 1
  funext j
  rw [Function.update_apply]
  by_cases hj : j = n
  · rw [if_pos hj, if_pos (by rw [hj]; exact ⟨le_refl n, by omega, h⟩)]
  · rw [if_neg hj, if_neg (by omega)]

end clear

/-! ## The scan -/

def scanPage (pgdir n : Nat) : M Unit := do
  match ← walkpgdir pgdir (n * PGSIZE) false with
  | none => return ()
  | some (t, j) => do
    let pte ← entry t j
    if Present pte then
      if pteAddr pte = 0 then panic "kfree"
      else do
        kfree (pteAddr pte)
        setEntry t j 0
    else return ()

/-- `deallocuvm` page by page, without the skip. -/
def scan (pgdir oldsz newsz : Nat) : M Nat :=
  if newsz ≥ oldsz then return oldsz
  else do
    each (List.range' (pageUp newsz) (pageUp oldsz - pageUp newsz)) (scanPage pgdir)
    return newsz

section loop

variable {s : Phys} {d a n t oldsz : Nat}

theorem page_lt (hn : n < 1048576) : n * PGSIZE < UINT := by
  simp only [PGSIZE, UINT]
  omega

theorem next_page (hn : n < 1048575) : (n * PGSIZE + PGSIZE) % UINT = (n + 1) * PGSIZE := by
  simp only [PGSIZE, UINT]
  omega

theorem walk_eq (hn : n < 1048576) :
    walkpgdir d (n * PGSIZE) false s = .ok ((s.dir d (n / 1024)).map fun t => (t, n % 1024), s) := by
  obtain ⟨r, s', hr, hs, hdir⟩ := (walk_look (E := fun _ => False) (rfl : s.space d = _) (page_lt hn)).returns
  rw [Nat.mul_div_cancel n (by decide)] at hdir
  rw [hr, hs, hdir]
  rfl

theorem scanPage_absent (hn : n < 1048576) (hno : s.dir d (n / 1024) = none) : scanPage d n s = .ok ((), s) := by
  unfold scanPage
  rw [bind_ok (walk_eq hn), hno]
  rfl

theorem scan_absent (k : Nat) (hn : n + k ≤ 1048576)
    (hno : ∀ m, n ≤ m → m < n + k → s.dir d (m / 1024) = none) :
    each (List.range' n k) (scanPage d) s = .ok ((), s) := by
  induction k generalizing n with
  | zero => rfl
  | succ k ih =>
    rw [List.range'_succ]
    show (scanPage d n >>= fun _ => each (List.range' (n + 1) k) (scanPage d)) s = _
    rw [bind_ok (scanPage_absent (by omega) (hno n (le_refl n) (by omega)))]
    exact ih (by omega) fun m hm hm' => hno m (by omega) (by omega)

/-- Without a page table, the next page is the first one of the next page table. -/
theorem deallocStep_absent (hn : n < 524288) (hno : s.dir d (n / 1024) = none) :
    ∃ a, deallocStep d (n * PGSIZE) s = .ok (a, s) ∧ (a + PGSIZE) % UINT = (n / 1024 + 1) * 1024 * PGSIZE := by
  have hlt : n < 1048576 := by omega
  refine ⟨(pgAddr (pdx (n * PGSIZE) + 1) 0 0 + UINT - PGSIZE) % UINT, ?_, ?_⟩
  · unfold deallocStep
    rw [bind_ok (walk_eq hlt), hno]
    rfl
  · rw [pdx_eq (page_lt hlt)]
    unfold pgAddr
    simp only [PGSIZE, UINT]
    omega

theorem deallocStep_present (hn : n < 1048576) (hi : s.dir d (n / 1024) = some t) :
    deallocStep d (n * PGSIZE) s = (scanPage d n >>= fun _ => pure (n * PGSIZE)) s := by
  unfold deallocStep scanPage
  rw [bind_assoc, bind_ok (walk_eq hn), bind_ok (walk_eq hn), hi, Option.map_some]
  simp only [bind_assoc]
  refine congrFun (congrArg _ (funext fun pte => ?_)) s
  split_ifs
  · rfl
  · simp only [bind_assoc]
  · rfl

/-- The pages from `n` on without a page table can be left out of the scan. -/
theorem scan_skip {hi : Nat} (hn : n < hi) (hhi : hi ≤ 524288) (hno : s.dir d (n / 1024) = none) :
    each (List.range' n (hi - n)) (scanPage d) s =
      each (List.range' ((n / 1024 + 1) * 1024) (hi - (n / 1024 + 1) * 1024)) (scanPage d) s := by
  have habs : ∀ k, n + k ≤ (n / 1024 + 1) * 1024 → n + k ≤ hi →
      each (List.range' n k) (scanPage d) s = .ok ((), s) := by
    intro k hk hk'
    refine scan_absent k (by omega) fun m hm hm' => ?_
    rw [show m / 1024 = n / 1024 by omega]
    exact hno
  rcases Nat.le_total ((n / 1024 + 1) * 1024) hi with hle | hle
  · obtain ⟨k, hk⟩ : ∃ k, n + k = (n / 1024 + 1) * 1024 := ⟨(n / 1024 + 1) * 1024 - n, by omega⟩
    rw [show hi - n = k + (hi - (n + k)) by omega, ← List.range'_append_1,
      each_append (habs k (by omega) (by omega)), hk]
  · rw [habs (hi - n) (by omega) (by omega), Nat.sub_eq_zero_of_le hle]
    rfl

theorem deallocLoop_eq_scan (fuel : Nat) (hold : oldsz ≤ KERNBASE) (hfuel : pageUp oldsz ≤ n + fuel) :
    deallocLoop d oldsz fuel (n * PGSIZE) s = each (List.range' n (pageUp oldsz - n)) (scanPage d) s := by
  have hup : pageUp oldsz ≤ 524288 := by
    unfold pageUp
    simp only [KERNBASE] at hold
    omega
  induction fuel generalizing n s with
  | zero =>
    unfold deallocLoop
    rw [if_neg (fun h => absurd (page_lt_iff.mp h) (by omega)), Nat.sub_eq_zero_of_le (m := n) hfuel]
    rfl
  | succ fuel ih =>
    unfold deallocLoop
    by_cases hlt : n < pageUp oldsz
    · rw [if_pos (page_lt_iff.mpr hlt)]
      cases hi : s.dir d (n / 1024) with
      | none =>
        obtain ⟨a, ha, hnext⟩ := deallocStep_absent (by omega) hi
        rw [bind_ok ha, hnext, ih (by omega), scan_skip hlt hup hi]
      | some t =>
        rw [show pageUp oldsz - n = (pageUp oldsz - (n + 1)) + 1 by omega, List.range'_succ]
        show (deallocStep d (n * PGSIZE) s >>= fun r => _) = (scanPage d n s >>= fun r => _)
        rw [deallocStep_present (by omega) hi]
        show ((scanPage d n s >>= fun r => pure (n * PGSIZE, r.2)) >>= fun r => _) = _
        rw [bind_assoc]
        refine congrArg _ (funext fun r => ?_)
        show deallocLoop d oldsz fuel ((n * PGSIZE + PGSIZE) % UINT) r.2 = _
        rw [next_page (by omega), ih (by omega)]
    · rw [if_neg (fun h => hlt (page_lt_iff.mp h)), Nat.sub_eq_zero_of_le (by omega)]
      rfl

theorem deallocuvm_eq_scan {newsz : Nat} (hold : oldsz ≤ KERNBASE) : deallocuvm d oldsz newsz s = scan d oldsz newsz s := by
  unfold deallocuvm scan
  split_ifs with hle
  · rfl
  · have hround : pgRoundUp newsz = pageUp newsz * PGSIZE := by
      unfold pgRoundUp pageUp
      simp only [PGSIZE, UINT, KERNBASE] at *
      omega
    have hfuel : pageUp oldsz ≤ pageUp newsz + (oldsz / PGSIZE + 1) := by
      unfold pageUp
      simp only [PGSIZE]
      omega
    show (deallocLoop _ _ _ _ s >>= fun r => _) = (each _ _ s >>= fun r => _)
    rw [hround, deallocLoop_eq_scan _ hold hfuel]

end loop

/-! ## What they do -/

section specs

variable {U c : Multiset Nat} {v : Space} {s : Phys} {d n oldsz newsz : Nat} {E : Stop → Prop}

theorem scanPage_spec (h : At U d v c s) (hn : n < 524288) :
    Wp (scanPage d n) s (fun _ s' => At U d (v.clear n (n + 1)) c s' ∧ Frame c s s') E := by
  have hdir : s.dir d (n / 1024) = v.dir (n / 1024) := congrFun (congrArg Space.dir h.space) _
  have hkeep : ¬ Present (v.pte n) → At U d (v.clear n (n + 1)) c s ∧ Frame c s s := by
    intro hno
    rw [clear_absent (show n ≤ n + 1 by omega) fun m hm hm' => by rwa [show m = n by omega], clear_empty (le_refl _)]
    exact ⟨h, .refl c s⟩
  unfold scanPage
  refine Wp.bind (Q := fun r s' => s' = s ∧ r = (v.dir (n / 1024)).map fun t => (t, n % 1024)) ?_ ?_
  · show Sat (walkpgdir d (n * PGSIZE) false s) _ _
    rw [walk_eq (by omega), hdir]
    exact ⟨rfl, rfl⟩
  · rintro r s' ⟨rfl, rfl⟩
    cases hi : v.dir (n / 1024) with
    | none =>
      refine hkeep ?_
      rw [h.pte_none hi]
      exact not_present_zero
    | some t =>
      simp only [Option.map_some, entry, wp_bind, wp_look, ← h.pte_some hi]
      refine Wp.ite (fun hp => ?_) hkeep
      have hne := h.bal.ne_zero (p := pteAddr (v.pte n)) ?_
      · rw [if_neg hne, clear_one hp]
        exact unmap_spec h hi hn hp
      · exact Multiset.mem_add.mpr (.inl (Multiset.mem_add.mpr (.inr (Multiset.mem_add.mpr (.inr (At.leaf_mem hn hp))))))

theorem scan_spec (k : Nat) (h : At U d v c s) (hn : n + k ≤ 524288) :
    Wp (each (List.range' n k) (scanPage d)) s (fun _ s' => At U d (v.clear n (n + k)) c s' ∧ Frame c s s') E := by
  induction k generalizing n v s with
  | zero =>
    rw [Nat.add_zero, clear_empty (le_refl _)]
    exact ⟨h, .refl c s⟩
  | succ k ih =>
    rw [List.range'_succ]
    refine Wp.bind (scanPage_spec h (by omega)) fun _ s₁ ⟨h₁, hf⟩ => ?_
    refine (ih h₁ (by omega)).imp fun _ s' ⟨h', hf'⟩ => ⟨?_, hf.trans hf'⟩
    rwa [clear_clear (by omega) (by omega), show n + 1 + k = n + (k + 1) by omega] at h'

theorem deallocuvm_spec (h : At U d v c s) (hold : oldsz ≤ KERNBASE) :
    Wp (deallocuvm d oldsz newsz) s (fun r s' => r = min oldsz newsz ∧
      At U d (v.clear (pageUp newsz) (pageUp oldsz)) c s' ∧ Frame c s s') E := by
  refine .of_eq (deallocuvm_eq_scan hold) ?_
  unfold scan
  refine Wp.ite (fun hge => ?_) fun hlt => ?_
  · rw [clear_empty (pageUp_mono hge)]
    exact ⟨(Nat.min_eq_left hge).symm, h, .refl c s⟩
  · have hle := pageUp_mono (a := newsz) (b := oldsz) (by omega)
    have hup : pageUp oldsz ≤ 524288 := by
      unfold pageUp
      simp only [KERNBASE] at hold
      omega
    refine Wp.bind (scan_spec (pageUp oldsz - pageUp newsz) h (by omega)) fun _ s' ⟨h', hf⟩ => ?_
    rw [show pageUp newsz + (pageUp oldsz - pageUp newsz) = pageUp oldsz by omega] at h'
    exact ⟨(Nat.min_eq_right (by omega)).symm, h', hf⟩

/-! ## freevm -/

/-- What is left of the page tables before pass `j` of the loop. -/
def Space.tablesFrom (v : Space) (j : Nat) : Multiset Nat :=
  sumBelow 1024 fun i => if i < j then 0 else (v.dir i).elim 0 fun t => {t}

theorem tablesFrom_zero (v : Space) : v.tablesFrom 0 = v.tables :=
  sumBelow_congr fun i _ => if_neg (Nat.not_lt_zero i)

theorem tablesFrom_end (v : Space) : v.tablesFrom 1024 = 0 := by
  refine Multiset.eq_zero_of_forall_notMem fun p hp => ?_
  obtain ⟨i, hi, hp⟩ := mem_sumBelow.mp hp
  rw [if_pos hi] at hp
  exact Multiset.notMem_zero p hp

theorem tablesFrom_succ (v : Space) {j : Nat} (hj : j < 1024) :
    v.tablesFrom j = ((v.dir j).elim 0 fun t => {t}) + v.tablesFrom (j + 1) := by
  have hchange := sumBelow_change (f := fun i => if i < j then 0 else (v.dir i).elim 0 fun t => ({t} : Multiset Nat))
    (g := fun i => if i < j + 1 then 0 else (v.dir i).elim 0 fun t => {t}) hj fun i _ hi => by
      simp only [show (i < j + 1) = (i < j) by simp only [eq_iff_iff]; omega]
  rw [if_neg (lt_irrefl j), if_pos (Nat.lt_succ_self j), add_zero] at hchange
  rw [add_comm]
  exact hchange.symm

theorem leaves_clear (v : Space) : (v.clear 0 524288).leaves = 0 := by
  refine Multiset.eq_zero_of_forall_notMem fun p hp => ?_
  obtain ⟨n, hn, hpres, -⟩ := mem_leaves.mp hp
  unfold Space.clear at hpres
  by_cases hw : Present (v.pte n)
  · simp only [if_pos (show 0 ≤ n ∧ n < 524288 ∧ Present (v.pte n) from ⟨Nat.zero_le n, hn, hw⟩)] at hpres
    exact not_present_zero hpres
  · simp only [if_neg (fun h : 0 ≤ n ∧ n < 524288 ∧ Present (v.pte n) => hw h.2.2)] at hpres
    exact hw hpres

theorem freeTable_spec {j : Nat} (h : Bal U ({d} + v.tablesFrom j + c) s) (hj : j < 1024) (hdir : s.dir d = v.dir) :
    Wp (freeTable d j) s (fun _ s' => Bal U ({d} + v.tablesFrom (j + 1) + c) s' ∧ Frame ({d} + c) s s') E := by
  have hj' : v.dir j = if Present (word (s.mem d) j) then some (pteAddr (word (s.mem d) j)) else none := by
    rw [← hdir]
    unfold Phys.dir
    simp only [hj, true_and]
  rw [tablesFrom_succ v hj, hj'] at h
  unfold freeTable entry
  simp only [wp_bind, wp_look]
  refine Wp.ite (fun hp => ?_) fun hp => ?_
  · rw [if_pos hp] at h
    have hall : {d} + ({pteAddr (word (s.mem d) j)} + v.tablesFrom (j + 1)) + c =
      {pteAddr (word (s.mem d) j)} + ({d} + v.tablesFrom (j + 1) + c) := by abel
    refine (kfree_spec (hall ▸ h)).imp fun _ s' hpost => ⟨hpost.1, hpost.2.1.mono fun p hp => ?_⟩
    rw [add_right_comm]
    exact Multiset.mem_add.mpr (.inl hp)
  · rw [if_neg hp, Option.elim_none, zero_add] at h
    exact ⟨h, .refl _ s⟩

/-- The loop of `freevm`; the directory keeps its contents while its page tables are freed. -/
theorem freeTables_spec (h : Bal U ({d} + v.tables + c) s) (hdir : s.dir d = v.dir) (N : Nat) (hN : N ≤ 1024) :
    Wp (each (List.range N) (freeTable d)) s
      (fun _ s' => Bal U ({d} + v.tablesFrom N + c) s' ∧ Frame ({d} + c) s s') E := by
  refine Wp.range (fun j s' => Bal U ({d} + v.tablesFrom j + c) s' ∧ Frame ({d} + c) s s') N ?_ ?_
  · rintro j s' hj ⟨hb, hf⟩
    have hdir' : s'.dir d = v.dir := by
      rw [← hdir]
      funext i
      unfold Phys.dir
      rw [hf.mem d (Multiset.mem_add.mpr (.inl (Multiset.mem_singleton_self d)))]
    exact (freeTable_spec hb (by omega) hdir').imp fun _ s'' ⟨hb', hf'⟩ => ⟨hb', hf.trans hf'⟩
  · rw [tablesFrom_zero]
    exact ⟨h, .refl _ s⟩

theorem freevm_spec (h : At U d v c s) : Wp (freevm d) s (fun _ s' => Bal U c s' ∧ Frame c s s') E := by
  unfold freevm
  -- an unknown bound keeps the loop from being unrolled
  generalize hN : NPDENTRIES = N
  simp only [wp_bind]
  refine (deallocuvm_spec h (Nat.le_refl KERNBASE)).imp fun _ s₁ hpost => ?_
  have h₁ := hpost.2.1
  have hf₁ := hpost.2.2
  rw [show pageUp 0 = 0 from rfl, show pageUp KERNBASE = 524288 by decide] at h₁
  have hb₁ : Bal U ({d} + v.tables + c) s₁ := by
    have hb := h₁.bal
    unfold Space.pages at hb
    rw [leaves_clear, add_zero] at hb
    exact hb
  have hdir : s₁.dir d = v.dir := congrArg Space.dir h₁.space
  refine (freeTables_spec hb₁ hdir N (Nat.le_of_eq hN.symm)).imp fun _ s₂ hpost => ?_
  obtain ⟨hb₂, hf₂⟩ := hpost
  rw [← hN, tablesFrom_end, add_zero] at hb₂
  refine (kfree_spec hb₂).imp fun _ s' hpost =>
    ⟨hpost.1, hf₁.trans ((hf₂.mono fun p hp => ?_).trans hpost.2.1)⟩
  exact Multiset.mem_add.mpr (.inr hp)

/-! ## What deallocuvm frees -/

def Space.freed (v : Space) (lo hi : Nat) : Multiset Nat :=
  sumBelow 524288 fun n => if lo ≤ n ∧ n < hi then leaf (v.pte n) else 0

theorem leaves_clear_add (v : Space) (lo hi : Nat) : (v.clear lo hi).leaves + v.freed lo hi = v.leaves := by
  unfold Space.leaves Space.freed
  rw [← sumBelow_add]
  refine sumBelow_congr fun n _ => ?_
  unfold Space.clear leaf
  by_cases hin : lo ≤ n ∧ n < hi
  · by_cases hp : Present (v.pte n)
    · simp only [if_pos hin, if_pos hp, if_pos (⟨hin.1, hin.2, hp⟩ : lo ≤ n ∧ n < hi ∧ Present (v.pte n)),
        if_neg not_present_zero, zero_add]
    · simp only [if_pos hin, if_neg hp, if_neg (fun h : lo ≤ n ∧ n < hi ∧ Present (v.pte n) => hp h.2.2), zero_add]
  · simp only [if_neg hin, if_neg (fun h : lo ≤ n ∧ n < hi ∧ Present (v.pte n) => hin ⟨h.1, h.2.1⟩), add_zero]

theorem mem_freed {lo hi p : Nat} (hhi : hi ≤ 524288) :
    p ∈ v.freed lo hi ↔ ∃ n, lo ≤ n ∧ n < hi ∧ Present (v.pte n) ∧ pteAddr (v.pte n) = p := by
  unfold Space.freed leaf
  rw [mem_sumBelow]
  refine exists_congr fun n => ⟨fun ⟨_, hp⟩ => ?_, fun ⟨hlo, hlt, hp, he⟩ => ⟨by omega, ?_⟩⟩
  · split_ifs at hp with hin hpres
    · exact ⟨hin.1, hin.2, hpres, (Multiset.mem_singleton.mp hp).symm⟩
    · exact absurd hp (Multiset.notMem_zero p)
    · exact absurd hp (Multiset.notMem_zero p)
  · rw [if_pos ⟨hlo, hlt⟩, if_pos hp, he]
    exact Multiset.mem_singleton_self p

/-- For a page table whose directory, page tables and user pages are pages of the allocator, each in one place and none of
them free, `deallocuvm` returns what the scan returns and leaves the memory that the scan leaves: the present pages from
`newsz` to `oldsz` are free, their entries are zero, and every other entry is as before. -/
theorem deallocuvm_exact (hpool : Pool s.layout ({d} + (s.space d).pages + s.freelist)) (hold : oldsz ≤ KERNBASE) :
    ∃ s', deallocuvm d oldsz newsz s = .ok (min oldsz newsz, s') ∧ scan d oldsz newsz s = .ok (min oldsz newsz, s') ∧
      (∀ p, p ∈ s'.freelist ↔ p ∈ s.freelist ∨ ∃ n, newsz ≤ n * PGSIZE ∧ n * PGSIZE < oldsz ∧
        Present ((s.space d).pte n) ∧ pteAddr ((s.space d).pte n) = p) ∧ s'.freelist.Nodup ∧
      (s'.space d).dir = (s.space d).dir ∧
      ∀ n, (s'.space d).pte n =
        if newsz ≤ n * PGSIZE ∧ n * PGSIZE < oldsz ∧ Present ((s.space d).pte n) then 0 else (s.space d).pte n := by
  have hat : At _ d (s.space d) 0 s := ⟨⟨hpool, by rw [add_zero]⟩, rfl⟩
  have hspec : Wp (deallocuvm d oldsz newsz) s _ fun _ => False := deallocuvm_spec hat hold
  obtain ⟨r, s', hr, rfl, hat', -⟩ := hspec.returns
  have hup : pageUp oldsz ≤ 524288 := by
    unfold pageUp
    simp only [KERNBASE] at hold
    omega
  have hlo : ∀ n, pageUp newsz ≤ n ↔ newsz ≤ n * PGSIZE := by
    intro n
    unfold pageUp
    simp only [PGSIZE]
    omega
  have hfree : (s'.freelist : Multiset Nat) = s.freelist + (s.space d).freed (pageUp newsz) (pageUp oldsz) := by
    have hall := hat'.bal.all
    unfold Space.pages at hall
    rw [← leaves_clear_add (s.space d) (pageUp newsz) (pageUp oldsz)] at hall
    have hsplit : ∀ l f a b : Multiset Nat, {d} + ((s.space d).tables + l) + 0 + a =
      {d} + ((s.space d).tables + (l + f)) + b →
        a = b + f := by
      intro l f a b h
      have : {d} + (s.space d).tables + l + a = {d} + (s.space d).tables + l + (b + f) := by
        rw [add_zero] at h
        calc _ = {d} + ((s.space d).tables + l) + a := by abel
          _ = _ := h
          _ = _ := by abel
      exact add_left_cancel this
    exact hsplit _ _ _ _ hall
  refine ⟨s', hr, deallocuvm_eq_scan hold ▸ hr, fun p => ?_, ?_, by rw [hat'.space]; rfl, fun n => ?_⟩
  · rw [← Multiset.mem_coe, hfree, Multiset.mem_add, mem_freed hup]
    simp only [hlo, page_lt_iff, Multiset.mem_coe]
  · have := hat'.bal.nodup
    rw [Multiset.nodup_add] at this
    exact this.2.1
  · rw [hat'.space]
    unfold Space.clear
    simp only [hlo, page_lt_iff]

end specs

/-- A directory with one page table, which maps one user page. -/
def onePage (first n p : Nat) : Phys where
  layout := ⟨[], first, 310⟩
  freelist := [303]
  mem := Function.update (Function.update (Function.update (fun _ _ => 0) 301 fun _ => 0) 300
    (setWord 0 (mkPte 301 6) fun _ => 0)) 301 (setWord n (mkPte p 6) fun _ => 0)
  calls := 0
  oom := fun _ => false

theorem onePage_at {a n p : Nat} (hn : n < 1024) (hpool : Pool ⟨[], a, 310⟩ {300, 301, p, 303}) :
    At {300, 301, p, 303} 300 ((Space.empty.addTable 0 301).set n (mkPte p 6)) 0 (onePage a n p) := by
  have hp : p < 1048576 := Nat.lt_trans (hpool.range p (by simp)).2 (show 310 < 1048576 by decide)
  have hbal : Bal {300, 301, p, 303} ({300} + ({301} + ({p} + 0)))
      { layout := ⟨[], a, 310⟩, freelist := [303], mem := fun _ _ => 0, calls := 0, oom := fun _ => false } :=
    ⟨hpool, rfl⟩
  have htable := (At.empty hbal rfl).addTable (i := 0) (by decide) rfl 6
  have hleaf : leafAt n (mkPte p 6) + 0 = leafAt n 0 + ({p} + 0) := by
    unfold leafAt leaf
    have hlt : n < 524288 := by omega
    rw [if_pos hlt, if_pos hlt, if_pos (present_mkPte _ _), if_neg not_present_zero, pteAddr_mkPte hp]
    abel
  have hpage := htable.write (n := n) (t := 301) (by rw [Nat.div_eq_of_lt hn]; rfl) (mkPte_lt p 6) hleaf
  rw [Nat.mod_eq_of_lt hn] at hpage
  exact hpage

theorem deallocuvm_exact_onePage : ∃ s', deallocuvm 300 24000 100 (onePage 300 5 302) = .ok (100, s') ∧
    302 ∈ s'.freelist ∧ (s'.space 300).pte 5 = 0 := by
  have hpool : Pool ⟨[], 300, 310⟩ {300, 301, 302, 303} := ⟨by decide, by decide, by decide, by decide⟩
  have hat := onePage_at (n := 5) (by decide) hpool
  have hp : Present (((onePage 300 5 302).space 300).pte 5) := by
    rw [hat.space]
    exact present_mkPte 302 6
  have hin : ((onePage 300 5 302).space 300).pte 5 = mkPte 302 6 := by
    rw [hat.space]
    rfl
  have hlayout := hat.bal.pool
  rw [← hat.bal.all, ← hat.space, add_zero] at hlayout
  have hexact (newsz : Nat) := @deallocuvm_exact _ 300 24000 newsz hlayout (by decide)
  obtain ⟨s', hr, -, hfree, -, -, hpte⟩ := hexact 100
  refine ⟨s', hr, (hfree 302).mpr (.inr ⟨5, by decide, by decide, hp, ?_⟩), ?_⟩
  · rw [hin]
    exact pteAddr_mkPte (by decide) 6
  · rw [hpte 5, if_pos ⟨by decide, by decide, hp⟩]

/-- A user page that is no page of the allocator is not freed: `kfree` panics. -/
theorem deallocuvm_stray_page :
    (∀ n, Present (((onePage 300 5 1).space 300).pte n) → pteAddr (((onePage 300 5 1).space 300).pte n) ≠ 0) ∧
      deallocuvm 300 24000 100 (onePage 300 5 1) = .error (.panic "kfree") := by
  refine ⟨fun n hn => ?_, by rfl⟩
  have hpool : Pool ⟨[], 1, 310⟩ {300, 301, 1, 303} := ⟨by decide, by decide, by decide, by decide⟩
  have hspace : (onePage 300 5 1).space 300 = _ := (onePage_at (n := 5) (by decide) hpool).space
  rw [hspace] at hn ⊢
  by_cases h5 : n = 5
  · rw [h5]
    decide
  · have h0 : ((Space.empty.addTable 0 301).set 5 (mkPte 1 6)).pte n = 0 := Function.update_of_ne h5 _ _
    rw [h0] at hn
    exact absurd hn not_present_zero

end Xv6Mlfq.Vm
