import Xv6Mlfq.Vm.System
import Xv6Mlfq.Vm.Setup

/-!
# exec (exec.c)

`exec` in its three parts: the new address space with the program and the stack (`loadImage`), the arguments on the new
stack (`pushStack`), and the switch to the new space. A program is the contents of its file. What `loadImage` leaves is
`Stack`: user pages below the stack page, one of them (below the stack) without PTE_U, and the kernel half of `setupkvm`.
-/

namespace Xv6Mlfq.Vm

open Lib
open Fs (word setWord memmove bytes UINT word_lt)

abbrev ELF_MAGIC : Nat := 0x464C457F
abbrev MAXARG : Nat := 32

/-- A word of a structure read from the file. -/
def field (l : List UInt8) (j : Nat) : Nat := word (fun i => l.getD i 0) j

/-- `readi`: the bytes that are there of the `n` bytes at `off`. -/
def readi (img : List UInt8) (off n : Nat) : List UInt8 := (img.drop off).take n

def loadLoop (pgdir addr : Nat) (img : List UInt8) (offset sz : Nat) : Nat → Nat → M Bool
  | 0, i => if i < sz then stop .spin else return true
  | fuel + 1, i =>
    if i < sz then do
      match ← walkpgdir pgdir ((addr + i) % UINT) false with
      | none => panic "loaduvm: address should exist"
      | some (t, j) => do
        let pte ← entry t j
        let n := if sz - i < PGSIZE then sz - i else PGSIZE
        let src := readi img ((offset + i) % UINT) n
        update fun s => { s with mem := Function.update s.mem (pteAddr pte) (memmove 0 src (s.mem (pteAddr pte))) }
        if src.length = n then loadLoop pgdir addr img offset sz fuel ((i + PGSIZE) % UINT) else return false
    else return true

def loaduvm (pgdir addr : Nat) (img : List UInt8) (offset sz : Nat) : M Bool :=
  if addr % PGSIZE ≠ 0 then panic "loaduvm: addr must be page aligned"
  else loadLoop pgdir addr img offset sz (sz / PGSIZE + 1) 0

/-- The loop of `exec` over the program headers, `count` of them left, the next one at `off`; `none` for `goto bad`. -/
def loadSegments (img : List UInt8) (pgdir : Nat) : Nat → Nat → Nat → M (Option Nat)
  | 0, _, sz => return some sz
  | count + 1, off, sz =>
    let ph := readi img off 32
    if ph.length ≠ 32 then return none
    else if field ph 0 ≠ 1 then loadSegments img pgdir count ((off + 32) % UINT) sz
    else if field ph 5 < field ph 4 then return none
    else if (field ph 2 + field ph 5) % UINT < field ph 2 then return none
    else do
      let sz ← allocuvm pgdir sz ((field ph 2 + field ph 5) % UINT)
      if sz = 0 then return none
      else if field ph 2 % PGSIZE ≠ 0 then return none
      else do
        let ok ← loaduvm pgdir (field ph 2) img (field ph 1) (field ph 4)
        if ok then loadSegments img pgdir count ((off + 32) % UINT) sz else return none

/-- Two pages at the next page boundary, the first of them inaccessible; the new directory and size. -/
@[irreducible] def addStack (pgdir sz : Nat) : M (Option (Nat × Nat)) := do
  let sz ← allocuvm pgdir (pgRoundUp sz) ((pgRoundUp sz + 2 * PGSIZE) % UINT)
  if sz = 0 then do
    freevm pgdir
    return none
  else do
    clearpteu pgdir (sz - 2 * PGSIZE)
    return some (pgdir, sz)

/-- `exec` up to the stack: the new directory and size. -/
def loadImage (img : List UInt8) : M (Option (Nat × Nat)) := do
  let elf := readi img 0 52
  if elf.length ≠ 52 then return none
  else if field elf 0 ≠ ELF_MAGIC then return none
  else
    match ← setupkvm with
    | none => return none
    | some pgdir => do
      match ← loadSegments img pgdir (field elf 11 % 65536) (field elf 7) 0 with
      | none => do
        freevm pgdir
        return none
      | some sz => addStack pgdir sz

def below (sp len : Nat) : Nat := (sp + UINT - (len + 1)) % UINT / 4 * 4

/-- Push the argument strings, from the `argc`-th on; the stack pointer and the addresses of the strings. -/
def pushArgs (pgdir : Nat) : Nat → List (List UInt8) → Nat → M (Option (Nat × List Nat))
  | _, [], sp => return some (sp, [])
  | argc, arg :: args, sp =>
    if argc ≥ MAXARG then return none
    else do
      let sp := below sp arg.length
      let ok ← copyout pgdir sp (arg ++ [0])
      if ok then do
        match ← pushArgs pgdir (argc + 1) args sp with
        | none => return none
        | some (sp', addrs) => return some (sp', sp :: addrs)
      else return none

def wordBytes (ws : List Nat) : List UInt8 :=
  bytes (fun k => UInt8.ofNat (ws.getD (k / 4) 0 / 256 ^ (k % 4))) 0 (4 * ws.length)

/-- `ustack`: a fake return address, `argc`, `argv` and the addresses of the strings. -/
def ustack (argc sp : Nat) (addrs : List Nat) : List Nat :=
  [0xffffffff, argc, (sp + UINT - (argc + 1) * 4) % UINT] ++ addrs ++ [0]

def belowWords (argc sp : Nat) : Nat := (sp + UINT - (3 + argc + 1) * 4) % UINT

def pushWords (pgdir argc sp : Nat) (addrs : List Nat) : M (Option Nat) := do
  let ok ← copyout pgdir (belowWords argc sp) (wordBytes (ustack argc sp addrs))
  if ok then return some (belowWords argc sp) else return none

/-- The arguments and `ustack` on the stack; the stack pointer. -/
def pushStack (pgdir sz : Nat) (args : List (List UInt8)) : M (Option Nat) := do
  match ← pushArgs pgdir 0 args sz with
  | none => return none
  | some (sp, addrs) => pushWords pgdir args.length sp addrs

def newImage (img : List UInt8) (args : List (List UInt8)) : M (Option (Nat × Nat)) := do
  match ← loadImage img with
  | none => return none
  | some (pgdir, sz) => do
    match ← pushStack pgdir sz args with
    | none => do
      freevm pgdir
      return none
    | some _ => return some (pgdir, sz)

/-- `exec` of process `p`; `img` is `none` when there is no file of that name. -/
def exec (p : Nat) (img : Option (List UInt8)) (args : List (List UInt8)) : K Int :=
  match img with
  | none => return -1
  | some img => do
    match ← mem (newImage img args) with
    | none => return -1
    | some (pgdir, sz) => do
      let oldpgdir ← look fun s => (s.proc p).pgdir
      setProc p fun q => { q with pgdir, sz }
      switchuvm p
      mem (freevm oldpgdir)
      return 0

/-! ## Loading -/

/-- The user pages are those below `sz`, for the user to write; the kernel half is that of `kmap[]`. -/
structure Loaded (l : List Kmap) (v : Space) (sz : Nat) : Prop where
  user : ∀ n < pageUp sz, ∃ q, v.pte n = mkPte q (PTE_W ||| PTE_U)
  rest : ∀ n, pageUp sz ≤ n → n < 524288 → ¬ Present (v.pte n)
  kern : ∃ v₀, Kern l v₀ ∧ (∀ i, 512 ≤ i → v.dir i = v₀.dir i) ∧ ∀ n, 524288 ≤ n → v.pte n = v₀.pte n
  lt : sz < KERNBASE

section load

variable {U c : Multiset Nat} {v v₀ : Space} {s : Phys} {d n sz : Nat} {E : Stop → Prop} {l : List Kmap} {img : List UInt8}

theorem pageUp_le {sz : Nat} (h : sz ≤ KERNBASE) : pageUp sz ≤ 524288 := by
  unfold pageUp
  simp only [KERNBASE] at h
  omega

theorem Kern.loaded (h : Kern l v) (hl : ∀ k ∈ l, k.Ok) : Loaded l v 0 := by
  refine ⟨fun n hn => absurd hn (by unfold pageUp; omega), fun n _ hn => ?_, ⟨v, h, fun _ _ => rfl, fun _ _ => rfl⟩,
    by decide⟩
  rw [h.user hl hn]
  exact not_present_zero

theorem Loaded.grow {v' : Space} {newsz : Nat} (h : Loaded l v sz) (hlt : newsz < KERNBASE)
    (hf : Filled v (pageUp sz) (pageUp newsz) v') (hle : sz ≤ newsz) : Loaded l v' newsz := by
  have hmono := pageUp_mono hle
  have hup := pageUp_le (Nat.le_of_lt hlt)
  obtain ⟨v₀, hk, hdir, hpte⟩ := h.kern
  refine ⟨fun n hn => ?_, fun n hn hn' => ?_, ⟨v₀, hk, fun i hi => ?_, fun n hn => ?_⟩, hlt⟩
  · by_cases hold : n < pageUp sz
    · rw [hf.rest n (by omega)]
      exact h.user n hold
    · exact hf.new n (by omega) hn
  · rw [hf.rest n (by omega)]
    exact h.rest n (by omega) hn'
  · rw [hf.dir i hi, hdir i hi]
  · rw [hf.rest n (by omega), hpte n hn]

theorem At.writeLeaf {q : Nat} (h : At U d v c s) (hq : q ∈ v.leaves) (b : Nat → UInt8) :
    At U d v c { s with mem := Function.update s.mem q b } ∧ Frame c s { s with mem := Function.update s.mem q b } := by
  obtain ⟨-, -, htab, hleaf, -, -, -⟩ := h.parts
  have hne : ∀ t ∈ v.tables, t ≠ q := by
    rintro t ht rfl
    exact (htab t ht).2.1 hq
  refine ⟨⟨⟨h.bal.pool, h.bal.all⟩, h.space_frame (Function.update_of_ne ?_ _ _) fun t ht =>
    Function.update_of_ne (hne t ht) _ _⟩, rfl, rfl, fun t ht => Function.update_of_ne ?_ _ _⟩
  · exact (hleaf q hq).1.symm
  · rintro rfl
    exact (hleaf t hq).2.1 ht

theorem loadLoop_spec {offset filesz m : Nat} (fuel : Nat) (h : At U d v c s) (hfuel : pageUp filesz ≤ m + fuel)
    (htop : n + pageUp filesz ≤ 524288) (hmap : ∀ j, n ≤ j → j < n + pageUp filesz → Present (v.pte j)) :
    Wp (loadLoop d (n * PGSIZE) img offset filesz fuel (m * PGSIZE)) s (fun _ s' => At U d v c s' ∧ Frame c s s') E := by
  induction fuel generalizing m s with
  | zero =>
    unfold loadLoop
    rw [if_neg fun h => absurd (page_lt_iff.mp h) (by omega)]
    exact ⟨h, .refl c s⟩
  | succ fuel ih =>
    unfold loadLoop
    refine Wp.ite (fun hlt => ?_) fun _ => ⟨h, .refl c s⟩
    have hlt := page_lt_iff.mp hlt
    have hva : (n * PGSIZE + m * PGSIZE) % UINT = (n + m) * PGSIZE := by
      simp only [PGSIZE, UINT]
      omega
    have hp := hmap (n + m) (by omega) (by omega)
    rw [hva, next_page (by omega)]
    refine Wp.bind (walk_look h.space (page_lt (by omega))) ?_
    rw [Nat.mul_div_cancel (n + m) (by decide)]
    rintro r s' ⟨rfl, rfl⟩
    cases hi : v.dir ((n + m) / 1024) with
    | none =>
      rw [h.pte_none hi] at hp
      exact absurd hp not_present_zero
    | some t =>
      simp only [Option.map_some, entry, wp_bind, wp_look, wp_update, ← h.pte_some hi]
      obtain ⟨h', hf⟩ := h.writeLeaf (At.leaf_mem (by omega) hp) (memmove 0
        (readi img ((offset + m * PGSIZE) % UINT) (if filesz - m * PGSIZE < PGSIZE then filesz - m * PGSIZE else PGSIZE))
        (s'.mem (pteAddr (v.pte (n + m)))))
      refine Wp.ite (fun _ => ?_) fun _ => ⟨h', hf⟩
      exact (ih h' (by omega)).imp fun _ s'' hpost => ⟨hpost.1, hf.trans hpost.2⟩

theorem loaduvm_spec {addr offset filesz : Nat} (h : At U d v c s) (hv : Loaded l v sz) (ha : addr % PGSIZE = 0)
    (hle : addr + filesz ≤ sz) :
    Wp (loaduvm d addr img offset filesz) s (fun _ s' => At U d v c s' ∧ Frame c s s') E := by
  have haddr : addr = addr / PGSIZE * PGSIZE := by
    simp only [PGSIZE] at *
    omega
  have hpages : addr / PGSIZE + pageUp filesz ≤ pageUp sz := by
    unfold pageUp
    simp only [PGSIZE] at *
    omega
  have hup := pageUp_le (Nat.le_of_lt hv.lt)
  unfold loaduvm
  rw [if_neg (by omega)]
  have hfuel : pageUp filesz ≤ 0 + (filesz / PGSIZE + 1) := by
    unfold pageUp
    simp only [PGSIZE]
    omega
  have hmap : ∀ j, addr / PGSIZE ≤ j → j < addr / PGSIZE + pageUp filesz → Present (v.pte j) := by
    intro j _ hj
    obtain ⟨q, hq⟩ := hv.user j (by omega)
    rw [hq]
    exact present_mkPte q _
  have hloop := @loadLoop_spec U c v s d (addr / PGSIZE) E img offset filesz 0 (filesz / PGSIZE + 1) h hfuel (by omega) hmap
  rw [← haddr, Nat.zero_mul] at hloop
  exact hloop

theorem growTo_spec {newsz : Nat} (h : At U d v c s) (hv : Loaded l v sz) :
    Wp (allocuvm d sz newsz) s (fun r s' => Frame c s s' ∧ ∃ v', At U d v' c s' ∧
      (r ≠ 0 → Loaded l v' r ∧ r = max sz newsz) ∧ (r = 0 → 0 < newsz → newsz < KERNBASE →
        Scarce U (1026 + v.leaves.card + (pageUp newsz - pageUp sz) + c.card) s.oom)) E := by
  by_cases htop : newsz ≥ KERNBASE
  · unfold allocuvm
    rw [if_pos htop]
    exact ⟨.refl c s, v, h, fun h0 => absurd rfl h0, fun _ _ h => absurd h (by omega)⟩
  · by_cases hlt : newsz < sz
    · unfold allocuvm
      rw [if_neg htop, if_pos hlt]
      exact ⟨.refl c s, v, h, fun _ => ⟨hv, (Nat.max_eq_left (by omega)).symm⟩, fun h0 => absurd h0 (by omega)⟩
    · have hup := pageUp_le (show newsz ≤ KERNBASE by omega)
      refine (allocuvm_spec h (by omega) (by omega) fun m hm hm' hp => ?_).imp fun r s' ⟨hf, v', h', hr⟩ => ⟨hf, v', h', ?_⟩
      · exact absurd hp (hv.rest m hm (by omega))
      · obtain ⟨rfl, hfill⟩ | ⟨rfl, -, hs⟩ := hr
        · exact ⟨fun _ => ⟨hv.grow (by omega) hfill (by omega), by omega⟩, fun h0 h1 => absurd h0 (by omega)⟩
        · exact ⟨fun h0 => absurd rfl h0, fun _ _ _ => hs⟩

theorem loadSegments_spec (count : Nat) {off : Nat} (h : At U d v c s) (hv : Loaded l v sz) :
    Wp (loadSegments img d count off sz) s (fun r s' => Frame c s s' ∧ ∃ v', At U d v' c s' ∧
      ∀ sz', r = some sz' → Loaded l v' sz') E := by
  induction count generalizing off sz v s with
  | zero =>
    refine ⟨.refl c s, v, h, fun sz' hsz => ?_⟩
    cases hsz
    exact hv
  | succ count ih =>
    have hbad : Frame c s s ∧ ∃ v', At U d v' c s ∧ ∀ sz', (none : Option Nat) = some sz' → Loaded l v' sz' :=
      ⟨.refl c s, v, h, fun _ hsz => nomatch hsz⟩
    unfold loadSegments
    generalize readi img off 32 = ph
    refine Wp.ite (fun _ => hbad) fun _ => Wp.ite (fun _ => ih h hv) fun _ => Wp.ite (fun _ => hbad) fun hmem =>
      Wp.ite (fun _ => hbad) fun hwrap => ?_
    have hnew : (field ph 2 + field ph 5) % UINT = field ph 2 + field ph 5 := by
      have h2 : field ph 2 < UINT := word_lt _ _
      have h5 : field ph 5 < UINT := word_lt _ _
      simp only [UINT] at *
      omega
    rw [hnew]
    refine Wp.bind (growTo_spec h hv) fun r s₁ ⟨hf, v₁, h₁, hr, _⟩ => ?_
    have hbad₁ : Frame c s s₁ ∧ ∃ v', At U d v' c s₁ ∧ ∀ sz', (none : Option Nat) = some sz' → Loaded l v' sz' :=
      ⟨hf, v₁, h₁, fun _ hsz => nomatch hsz⟩
    refine Wp.ite (fun _ => hbad₁) fun hr0 => Wp.ite (fun _ => hbad₁) fun halign => ?_
    obtain ⟨hv₁, hle⟩ := hr hr0
    refine Wp.bind (loaduvm_spec h₁ hv₁ (by omega) (by omega)) fun ok s₂ ⟨h₂, hf₂⟩ => ?_
    refine Wp.ite (fun _ => ?_) fun _ => ⟨hf.trans hf₂, v₁, h₂, fun _ hsz => nomatch hsz⟩
    exact (ih h₂ hv₁).imp fun r s' ⟨hf', h'⟩ => ⟨hf.trans (hf₂.trans hf'), h'⟩

/-! ## The stack -/

/-- The user pages are the `k` lowest ones; the last one is the stack, and the one before it is not for the user. The kernel
half is that of `kmap[]`. -/
structure Stack (l : List Kmap) (v : Space) (k : Nat) : Prop where
  two : 2 ≤ k
  top : k < 524288
  user : ∀ n < k, n ≠ k - 2 → ∃ q, v.pte n = mkPte q (PTE_W ||| PTE_U)
  guard : ∃ q, v.pte (k - 2) = mkPte q PTE_W
  rest : ∀ n, k ≤ n → n < 524288 → ¬ Present (v.pte n)
  kern : ∃ v₀, Kern l v₀ ∧ (∀ i, 512 ≤ i → v.dir i = v₀.dir i) ∧ ∀ n, 524288 ≤ n → v.pte n = v₀.pte n

theorem user_mkPte (q : Nat) : User (mkPte q (PTE_W ||| PTE_U)) := by
  unfold User mkPte
  rw [show (PTE_W ||| PTE_U ||| PTE_P) % PGSIZE = 7 from rfl]
  simp only [PGSIZE]
  omega

theorem not_user_mkPte (q : Nat) : ¬ User (mkPte q PTE_W) := by
  unfold User mkPte
  rw [show (PTE_W ||| PTE_P) % PGSIZE = 3 from rfl]
  simp only [PGSIZE]
  omega

theorem clearpteu_spec {q : Nat} (h : At U d v c s) (hn : n < 524288) (hw : v.pte n = mkPte q (PTE_W ||| PTE_U)) :
    Wp (clearpteu d (n * PGSIZE)) s (fun _ s' => At U d (v.set n (mkPte q PTE_W)) c s' ∧ Frame c s s') E := by
  have hp : Present (v.pte n) := hw ▸ present_mkPte q _
  have haddr : pteAddr (mkPte q PTE_W) = pteAddr (mkPte q (PTE_W ||| PTE_U)) := by
    unfold pteAddr mkPte
    rw [show (PTE_W ||| PTE_P) % PGSIZE = 3 from rfl, show (PTE_W ||| PTE_U ||| PTE_P) % PGSIZE = 7 from rfl]
    simp only [PGSIZE]
    omega
  have hclear : mkPte q (PTE_W ||| PTE_U) - PTE_U = mkPte q PTE_W := by
    unfold mkPte
    rw [show (PTE_W ||| PTE_P) % PGSIZE = 3 from rfl, show (PTE_W ||| PTE_U ||| PTE_P) % PGSIZE = 7 from rfl]
    simp only [PGSIZE, PTE_U]
    omega
  unfold clearpteu
  refine Wp.bind (walk_look h.space (page_lt (by omega))) ?_
  rw [Nat.mul_div_cancel n (by decide)]
  rintro r s' ⟨rfl, rfl⟩
  cases hi : v.dir (n / 1024) with
  | none =>
    rw [h.pte_none hi] at hp
    exact absurd hp not_present_zero
  | some t =>
    simp only [Option.map_some, entry, setEntry, wp_bind, wp_look, wp_update, ← h.pte_some hi, hw]
    rw [if_pos (user_mkPte q), hclear]
    have hleaf : leafAt n (mkPte q PTE_W) + c = leafAt n (v.pte n) + c := by
      unfold leafAt leaf
      rw [hw, if_pos (present_mkPte _ _), if_pos (present_mkPte _ _), haddr]
    refine ⟨h.write hi (mkPte_lt q _) hleaf, rfl, rfl, fun p hp => Function.update_of_ne ?_ _ _⟩
    rintro rfl
    exact (h.parts.2.2.1 p (h.table_mem hi)).2.2.1 hp

theorem pageUp_mul (k : Nat) : pageUp (k * PGSIZE) = k := by
  unfold pageUp
  simp only [PGSIZE]
  omega

theorem page_lt_kernbase (h : n < 524288) : n * PGSIZE < KERNBASE := by
  simp only [PGSIZE, KERNBASE]
  omega

theorem Loaded.round (h : Loaded l v sz) (htop : pageUp sz * PGSIZE < KERNBASE) : Loaded l v (pageUp sz * PGSIZE) := by
  refine ⟨?_, ?_, h.kern, htop⟩
  · rw [pageUp_mul]
    exact h.user
  · rw [pageUp_mul]
    exact h.rest

theorem Loaded.stack {k q : Nat} (h : Loaded l v (k * PGSIZE)) (hk : 2 ≤ k) : Stack l (v.set (k - 2) (mkPte q PTE_W)) k := by
  have hup := pageUp_mul k
  have htop : k < 524288 := by
    have := h.lt
    simp only [PGSIZE, KERNBASE] at this
    omega
  have hother : ∀ n, n ≠ k - 2 → (v.set (k - 2) (mkPte q PTE_W)).pte n = v.pte n := fun n hn => Function.update_of_ne hn _ _
  obtain ⟨v₀, hv₀, hdir, hpte⟩ := h.kern
  refine ⟨hk, htop, fun n hn hne => ?_, ⟨q, Function.update_self _ _ _⟩, fun n hn hn' => ?_, v₀, hv₀, hdir, fun n hn => ?_⟩
  · rw [hother n hne]
    exact h.user n (by omega)
  · rw [hother n (by omega)]
    exact h.rest n (by omega) hn'
  · rw [hother n (by omega)]
    exact hpte n hn

theorem addStack_spec (h : At U d v c s) (hv : Loaded l v sz) {Q : Option (Nat × Nat) → Phys → Prop}
    (hbad : ∀ s' v', At U d v' c s' → Frame c s s' →
      (pageUp sz + 2 < 524288 → Scarce U (1028 + v.leaves.card + c.card) s.oom) → Wp (do freevm d; return none) s' Q E)
    (hgood : ∀ s' v' k, At U d v' c s' → Frame c s s' → Stack l v' k → k = pageUp sz + 2 → Q (some (d, k * PGSIZE)) s') :
    Wp (addStack d sz) s Q E := by
  have hlt := hv.lt
  have hround : pgRoundUp sz = pageUp sz * PGSIZE := by
    unfold pgRoundUp pageUp
    simp only [PGSIZE, UINT, KERNBASE] at *
    omega
  have hup := pageUp_le (Nat.le_of_lt hlt)
  have hnew : (pgRoundUp sz + 2 * PGSIZE) % UINT = (pageUp sz + 2) * PGSIZE := by
    rw [hround]
    simp only [PGSIZE, UINT]
    omega
  unfold addStack
  rw [hnew, hround]
  by_cases htop : pageUp sz + 2 < 524288
  · have hlt₁ := page_lt_kernbase (n := pageUp sz) (by omega)
    have hlt₂ := page_lt_kernbase htop
    refine Wp.bind (growTo_spec h (hv.round hlt₁)) fun r s₁ ⟨hf, v₁, h₁, hgrown, hfail⟩ => ?_
    rw [pageUp_mul, pageUp_mul] at hfail
    refine Wp.ite (fun hr => ?_) fun hr => ?_
    · refine hbad s₁ v₁ h₁ hf fun _ => ?_
      have hscarce := hfail hr (Nat.mul_pos (by omega) (by decide)) hlt₂
      rwa [show 1026 + v.leaves.card + (pageUp sz + 2 - pageUp sz) + c.card = 1028 + v.leaves.card + c.card by omega]
        at hscarce
    · obtain ⟨hv₁, hr'⟩ := hgrown hr
      rw [Nat.max_eq_right (Nat.mul_le_mul_right PGSIZE (Nat.le_add_right _ 2))] at hr'
      subst hr'
      obtain ⟨q, hq⟩ := hv₁.user (pageUp sz) (by rw [pageUp_mul]; omega)
      have hguard : (pageUp sz + 2) * PGSIZE - 2 * PGSIZE = pageUp sz * PGSIZE := by
        simp only [PGSIZE]
        omega
      rw [hguard]
      refine Wp.bind (clearpteu_spec h₁ (by omega) hq) fun _ s₂ ⟨h₂, hf₂⟩ => ?_
      exact hgood s₂ _ _ h₂ (hf.trans hf₂) (hv₁.stack (Nat.le_add_left 2 _)) rfl
  · unfold allocuvm
    rw [if_pos (by simp only [PGSIZE, KERNBASE]; omega)]
    exact hbad s v h (.refl c s) fun h => absurd h htop

theorem loadImage_spec (h : Bal U c s) (hL : s.layout.Ok) :
    Wp (loadImage img) s (fun r s' => Frame c s s' ∧ r.elim (Bal U c s') fun x => ∃ v k, At U x.1 v c s' ∧
      Stack s.layout.kmap v k ∧ x.2 = k * PGSIZE) E := by
  have hfree : ∀ {d v s'}, At U d v c s' → Frame c s s' → Wp (do freevm d; return none) s'
      (fun (r : Option (Nat × Nat)) s' => Frame c s s' ∧ r.elim (Bal U c s') fun x => ∃ v k, At U x.1 v c s' ∧
        Stack s.layout.kmap v k ∧ x.2 = k * PGSIZE) E := fun h' hf =>
    Wp.bind (freevm_spec h') fun _ s'' ⟨hb, hf'⟩ => ⟨hf.trans hf', hb⟩
  unfold loadImage
  refine Wp.ite (fun _ => ⟨.refl c s, h⟩) fun _ => Wp.ite (fun _ => ⟨.refl c s, h⟩) fun _ => ?_
  refine Wp.bind (setupkvm_spec h hL) ?_
  rintro (_ | d) s₁ ⟨hf₁, hr⟩
  · exact ⟨hf₁, hr.1⟩
  · obtain ⟨v₁, h₁, hk⟩ := hr
    refine Wp.bind (loadSegments_spec _ h₁ (hk.loaded hL.range)) fun r s₂ hpost => ?_
    obtain ⟨hf₂, v₂, h₂, hv⟩ := hpost
    cases r with
    | none => exact hfree h₂ (hf₁.trans hf₂)
    | some sz =>
      have hf := hf₁.trans hf₂
      exact addStack_spec h₂ (hv sz rfl) (fun s₃ v₃ h₃ hf₃ _ => hfree h₃ (hf.trans hf₃))
        fun s₃ v₃ k h₃ hf₃ hstack _ => ⟨hf.trans hf₃, v₃, k, h₃, hstack, rfl⟩

end load

/-! ## Copying to the stack -/

section copyout

variable {U c : Multiset Nat} {v : Space} {s : Phys} {d n va : Nat} {buf : List UInt8}

theorem Stack.not_user {l : List Kmap} {k : Nat} (h : Stack l v k) (hl : ∀ k ∈ l, k.Ok) (hn : 524288 ≤ n) :
    ¬ User (v.pte n) := by
  obtain ⟨v₀, hk, -, hpte⟩ := h.kern
  rw [hpte n hn]
  exact hk.not_user hl n

theorem uva2ka_eq (hn : n < 1048576) : uva2ka d (n * PGSIZE) s =
    if (s.space d).dir (n / 1024) = none then .error .fault
    else .ok (if Present ((s.space d).pte n) ∧ User ((s.space d).pte n)
      then some (pteAddr ((s.space d).pte n)) else none, s) := by
  unfold uva2ka
  rw [bind_ok (walk_eq hn)]
  show _ = if s.dir d (n / 1024) = none then _ else _
  cases hi : s.dir d (n / 1024) with
  | none => rfl
  | some t =>
    have hpte : (s.space d).pte n = word (s.mem t) (n % 1024) := by
      show (s.dir d (n / 1024)).elim 0 _ = _
      rw [hi]
      rfl
    rw [hpte, if_neg (Option.some_ne_none t)]
    simp only [Option.map_some]
    show (if ¬ Present (word (s.mem t) (n % 1024)) then pure none else if ¬ User (word (s.mem t) (n % 1024)) then pure none
      else pure (some (pteAddr (word (s.mem t) (n % 1024)))) : M (Option Nat)) s = _
    by_cases hp : Present (word (s.mem t) (n % 1024))
    · by_cases hu : User (word (s.mem t) (n % 1024))
      · rw [if_neg (not_not.mpr hp), if_neg (not_not.mpr hu), if_pos ⟨hp, hu⟩]
        rfl
      · rw [if_neg (not_not.mpr hp), if_pos hu, if_neg fun h => hu h.2]
        rfl
    · rw [if_pos hp, if_neg fun h => hp h.1]
      rfl

theorem uva2ka_spec (h : s.space d = v) (hva : va < UINT) : Wp (uva2ka d (pgRoundDown va)) s (fun r s' => s' = s ∧
      r = if Present (v.pte (va / PGSIZE)) ∧ User (v.pte (va / PGSIZE)) then some (pteAddr (v.pte (va / PGSIZE))) else none)
    fun e => e = .fault ∧ v.dir (va / PGSIZE / 1024) = none := by
  have hn : va / PGSIZE < 1048576 := by
    simp only [PGSIZE, UINT] at *
    omega
  show Sat (uva2ka d (va / PGSIZE * PGSIZE) s) _ _
  rw [uva2ka_eq hn, h]
  by_cases hdir : v.dir (va / PGSIZE / 1024) = none
  · rw [if_pos hdir]
    exact ⟨rfl, hdir⟩
  · rw [if_neg hdir]
    exact ⟨rfl, rfl⟩

theorem copyoutLoop_spec (fuel : Nat) (h : At U d v c s) (hhigh : ∀ n, 524288 ≤ n → ¬ User (v.pte n)) (hva : va < UINT) :
    Wp (copyoutLoop d fuel va buf) s (fun _ s' => At U d v c s' ∧ Frame c s s') fun e => e = .fault := by
  induction fuel generalizing va buf s with
  | zero => exact ⟨h, .refl c s⟩
  | succ fuel ih =>
    unfold copyoutLoop
    refine Wp.ite (fun _ => ⟨h, .refl c s⟩) fun _ => ?_
    refine Wp.bind ((uva2ka_spec h.space hva).mono (fun _ _ h => h) fun _ he => he.1) ?_
    rintro r s' ⟨rfl, rfl⟩
    split_ifs with hpu
    · have hlow : va / PGSIZE < 524288 := by
        by_contra hge
        exact hhigh _ (by omega) hpu.2
      simp only [wp_bind, wp_update]
      obtain ⟨h', hf⟩ := h.writeLeaf (At.leaf_mem hlow hpu.1) (memmove (va - pgRoundDown va)
        (buf.take (min (PGSIZE - (va - pgRoundDown va)) buf.length)) (s'.mem (pteAddr (v.pte (va / PGSIZE)))))
      exact (ih h' (Nat.mod_lt _ (by decide))).imp fun _ s'' hpost => ⟨hpost.1, hf.trans hpost.2⟩
    · exact ⟨h, .refl c s'⟩

theorem copyout_spec (h : At U d v c s) (hhigh : ∀ n, 524288 ≤ n → ¬ User (v.pte n)) (hva : va < UINT) :
    Wp (copyout d va buf) s (fun _ s' => At U d v c s' ∧ Frame c s s') fun e => e = .fault :=
  copyoutLoop_spec _ h hhigh hva

theorem below_lt (sp len : Nat) : below sp len < UINT := by
  unfold below
  simp only [UINT]
  omega

theorem pushArgs_spec (args : List (List UInt8)) {argc sp : Nat} (h : At U d v c s)
    (hhigh : ∀ n, 524288 ≤ n → ¬ User (v.pte n)) :
    Wp (pushArgs d argc args sp) s (fun _ s' => At U d v c s' ∧ Frame c s s') fun e => e = .fault := by
  induction args generalizing argc sp s with
  | nil => exact ⟨h, .refl c s⟩
  | cons arg args ih =>
    unfold pushArgs
    refine Wp.ite (fun _ => ⟨h, .refl c s⟩) fun _ => ?_
    refine Wp.bind (copyout_spec h hhigh (below_lt sp arg.length)) fun ok s₁ ⟨h₁, hf₁⟩ => ?_
    refine Wp.ite (fun _ => ?_) fun _ => ⟨h₁, hf₁⟩
    refine Wp.bind (ih h₁) ?_
    rintro (_ | ⟨sp', addrs⟩) s₂ ⟨h₂, hf₂⟩
    · exact ⟨h₂, hf₁.trans hf₂⟩
    · exact ⟨h₂, hf₁.trans hf₂⟩

theorem pushStack_spec {sz : Nat} {args : List (List UInt8)} (h : At U d v c s)
    (hhigh : ∀ n, 524288 ≤ n → ¬ User (v.pte n)) :
    Wp (pushStack d sz args) s (fun _ s' => At U d v c s' ∧ Frame c s s') fun e => e = .fault := by
  unfold pushStack
  refine Wp.bind (pushArgs_spec args h hhigh) ?_
  rintro (_ | ⟨sp, addrs⟩) s₁ ⟨h₁, hf₁⟩
  · exact ⟨h₁, hf₁⟩
  · refine Wp.bind (copyout_spec h₁ hhigh (Nat.mod_lt _ (by decide))) fun ok s₂ ⟨h₂, hf₂⟩ => ?_
    exact Wp.ite (fun _ => ⟨h₂, hf₁.trans hf₂⟩) fun _ => ⟨h₂, hf₁.trans hf₂⟩

theorem newImage_spec {img : List UInt8} {args : List (List UInt8)} (h : Bal U c s) (hL : s.layout.Ok) :
    Wp (newImage img args) s (fun r s' => Frame c s s' ∧ r.elim (Bal U c s') fun x => x.2 < KERNBASE ∧ ∃ v, At U x.1 v c s')
      fun e => e = .fault := by
  unfold newImage
  refine Wp.bind (loadImage_spec h hL) ?_
  rintro (_ | ⟨d, sz⟩) s₁ ⟨hf₁, hr⟩
  · exact ⟨hf₁, hr⟩
  · obtain ⟨v, k, h₁, hstack, hsz⟩ := hr
    have hlt : sz < KERNBASE := hsz.trans_lt (page_lt_kernbase hstack.top)
    refine Wp.bind (pushStack_spec h₁ fun n hn => hstack.not_user hL.range hn) ?_
    rintro (_ | sp) s₂ ⟨h₂, hf₂⟩
    · exact Wp.bind (freevm_spec h₂) fun _ s' ⟨hb, hf'⟩ => ⟨hf₁.trans (hf₂.trans hf'), hb⟩
    · exact ⟨hf₁.trans hf₂, hlt, v, h₂⟩

end copyout

end Xv6Mlfq.Vm
