import Xv6Mlfq.Vm.Exec

/-!
# The arguments of exec

`exec` moves the stack pointer down by the length of each string, modulo `2 ^ 32`, and only then calls `copyout`, which walks
the new page table. A string that does not fit the stack page leads below it: to the page without PTE_U, to lower user
pages (from which `copyout` comes to that page), or around address 0 into the kernel half. There an address may have no
page table at all, and `uva2ka` uses the null pointer of `walkpgdir`. `reachesHole` says for which lengths this happens.
-/

namespace Xv6Mlfq.Vm

open Lib
open Fs (word setWord memmove bytes UINT word_setWord)

def userByte (s : Phys) (d a : Nat) : UInt8 := s.mem (pteAddr ((s.space d).pte (a / PGSIZE))) (a % PGSIZE)

def userWord (s : Phys) (d a : Nat) : Nat :=
  (userByte s d a).toNat + 256 * (userByte s d (a + 1)).toNat + 65536 * (userByte s d (a + 2)).toNat +
    16777216 * (userByte s d (a + 3)).toNat

/-- Some string does not fit between `floor` and the stack pointer, and the first one that does not goes around address 0 to
an address from `KERNBASE + PHYSTOP` to `DEVSPACE - 1`: more than 32 MiB and at most 1824 MiB below 0. -/
def reachesHole (floor : Nat) : Nat → List (List UInt8) → Bool
  | _, [] => false
  | sp, arg :: args =>
    if floor + (arg.length + 1) ≤ sp then reachesHole floor (below sp arg.length) args
    else decide (sp + 33554432 < arg.length + 1 ∧ arg.length + 1 ≤ sp + 1912602624)

/-! ## copyout -/

section copyout

variable {U c : Multiset Nat} {v : Space} {s : Phys} {d n o va fuel : Nat} {buf : List UInt8}

def Usable (v : Space) (n : Nat) : Prop := Present (v.pte n) ∧ User (v.pte n)

theorem At.dir_of_present (h : At U d v c s) (hp : Present (v.pte n)) : v.dir (n / 1024) ≠ none := by
  intro hno
  rw [h.pte_none hno] at hp
  exact not_present_zero hp

theorem uva2ka_ok (h : s.space d = v) (hva : va < UINT) (hdir : v.dir (va / PGSIZE / 1024) ≠ none)
    (hpu : Usable v (va / PGSIZE)) :
    uva2ka d (pgRoundDown va) s = .ok (some (pteAddr (v.pte (va / PGSIZE))), s) := by
  obtain ⟨r, s', hr, rfl, rfl⟩ := ((uva2ka_spec h hva).mono (fun _ _ h => h) fun _ he => hdir he.2).returns
  rw [hr]
  exact congrArg (fun r => Except.ok (r, s')) (if_pos hpu)

theorem uva2ka_bad (h : s.space d = v) (hva : va < UINT) (hdir : v.dir (va / PGSIZE / 1024) ≠ none)
    (hpu : ¬ Usable v (va / PGSIZE)) : uva2ka d (pgRoundDown va) s = .ok (none, s) := by
  obtain ⟨r, s', hr, rfl, rfl⟩ := ((uva2ka_spec h hva).mono (fun _ _ h => h) fun _ he => hdir he.2).returns
  rw [hr]
  exact congrArg (fun r => Except.ok (r, s')) (if_neg hpu)

theorem uva2ka_fault (h : s.space d = v) (hva : va < UINT) (hdir : v.dir (va / PGSIZE / 1024) = none) :
    uva2ka d (pgRoundDown va) s = .error .fault := by
  have hn : va / PGSIZE < 1048576 := by
    simp only [PGSIZE, UINT] at *
    omega
  show uva2ka d (va / PGSIZE * PGSIZE) s = _
  rw [uva2ka_eq hn, h, if_pos hdir]

theorem copyoutLoop_nil : copyoutLoop d fuel va [] s = .ok (true, s) := by
  cases fuel with
  | zero => rfl
  | succ fuel =>
    unfold copyoutLoop
    rw [if_pos rfl]
    rfl

def poke (s : Phys) (q : Nat) (b : Nat → UInt8) : Phys := { s with mem := Function.update s.mem q b }

theorem copyout_fits (h : At U d v c s) (hn : n < 524288) (hpu : Usable v n) (ho : o + buf.length ≤ PGSIZE)
    (hbuf : buf ≠ []) :
    copyout d (n * PGSIZE + o) buf s = .ok (true, poke s (pteAddr (v.pte n))
      (memmove o buf (s.mem (pteAddr (v.pte n))))) := by
  obtain ⟨len, hlen⟩ : ∃ len, buf.length = len + 1 := Nat.exists_eq_succ_of_ne_zero (mt List.length_eq_zero_iff.mp hbuf)
  have hpage : (n * PGSIZE + o) / PGSIZE = n := by
    simp only [PGSIZE] at *
    omega
  have hoff : n * PGSIZE + o - pgRoundDown (n * PGSIZE + o) = o := by
    unfold pgRoundDown
    rw [hpage, Nat.add_sub_cancel_left]
  have hva : n * PGSIZE + o < UINT := by
    simp only [PGSIZE, UINT] at *
    omega
  have huva := uva2ka_ok h.space hva (by rw [hpage]; exact h.dir_of_present hpu.1) (by rwa [hpage])
  rw [hpage] at huva
  unfold copyout
  rw [hlen]
  unfold copyoutLoop
  rw [if_neg hbuf, bind_ok huva]
  simp only [hoff]
  rw [Nat.min_eq_right (by omega), List.take_length, List.drop_length]
  exact copyoutLoop_nil

theorem copyout_bad (h : s.space d = v) (hva : va < UINT) (hdir : v.dir (va / PGSIZE / 1024) ≠ none)
    (hpu : ¬ Usable v (va / PGSIZE)) (hbuf : buf ≠ []) : copyout d va buf s = .ok (false, s) := by
  obtain ⟨len, hlen⟩ : ∃ len, buf.length = len + 1 := Nat.exists_eq_succ_of_ne_zero (mt List.length_eq_zero_iff.mp hbuf)
  unfold copyout
  rw [hlen]
  unfold copyoutLoop
  rw [if_neg hbuf, bind_ok (uva2ka_bad h hva hdir hpu)]
  rfl

theorem copyout_fault (h : s.space d = v) (hva : va < UINT) (hdir : v.dir (va / PGSIZE / 1024) = none) (hbuf : buf ≠ []) :
    copyout d va buf s = .error .fault := by
  obtain ⟨len, hlen⟩ : ∃ len, buf.length = len + 1 := Nat.exists_eq_succ_of_ne_zero (mt List.length_eq_zero_iff.mp hbuf)
  unfold copyout
  rw [hlen]
  unfold copyoutLoop
  rw [if_neg hbuf]
  show (uva2ka d (pgRoundDown va) s >>= _) = _
  rw [uva2ka_fault h hva hdir]
  rfl

/-- `copyout` from a lower user page comes to the page `g` that the user cannot write. -/
theorem copyoutLoop_guard {g : Nat} (h : At U d v c s) (hg : g < 524288) (hlow : ∀ n < g, Usable v n) (hguard : ¬ Usable v g)
    (hp : Present (v.pte g)) (hva : va / PGSIZE ≤ g) (hbuf : 0 < buf.length) (hend : g * PGSIZE < va + buf.length)
    (hfuel : buf.length ≤ fuel) :
    Wp (copyoutLoop d fuel va buf) s (fun ok _ => ok = false) fun _ => False := by
  induction fuel generalizing va buf s with
  | zero => omega
  | succ fuel ih =>
    have hlt : va < UINT := by
      simp only [PGSIZE, UINT] at *
      omega
    unfold copyoutLoop
    rw [if_neg (List.ne_nil_of_length_pos hbuf)]
    rcases Nat.lt_or_ge (va / PGSIZE) g with hva' | hva'
    · have hpu := hlow _ hva'
      refine Wp.call (uva2ka_ok h.space hlt (h.dir_of_present hpu.1) hpu) ?_
      have hlen : min (PGSIZE - (va - pgRoundDown va)) buf.length = PGSIZE - va % PGSIZE := by
        unfold pgRoundDown
        simp only [PGSIZE] at *
        omega
      have hnext : (pgRoundDown va + PGSIZE) % UINT = (va / PGSIZE + 1) * PGSIZE := by
        unfold pgRoundDown
        exact next_page (by omega)
      simp only [wp_bind, wp_update, hlen, hnext]
      obtain ⟨h', -⟩ := h.writeLeaf (At.leaf_mem (by omega) hpu.1) (memmove (va - pgRoundDown va)
        (buf.take (PGSIZE - va % PGSIZE)) (s.mem (pteAddr (v.pte (va / PGSIZE)))))
      have hrest : (buf.drop (PGSIZE - va % PGSIZE)).length = buf.length - (PGSIZE - va % PGSIZE) := List.length_drop
      have hdiv : (va / PGSIZE + 1) * PGSIZE / PGSIZE = va / PGSIZE + 1 := Nat.mul_div_cancel _ (by decide)
      simp only [PGSIZE] at *
      exact ih h' (by omega) (by omega) (by omega) (by omega)
    · obtain hva' : va / PGSIZE = g := by omega
      refine Wp.call (uva2ka_bad h.space hlt ?_ ?_) ?_
      · rw [hva']
        exact h.dir_of_present hp
      · rwa [hva']
      · exact rfl

theorem range_next {j m len : Nat} (hm : m = min (4096 - va % 4096) len) (hj : j < len) (hjm : ¬ j < m) :
    va + j = (va / 4096 + 1) * 4096 + (j - m) := by
  omega

theorem copyoutLoop_true (h : At U d v c s) (hhigh : ∀ n, 524288 ≤ n → ¬ User (v.pte n)) (hva : va < UINT)
    (hfuel : buf.length ≤ fuel) :
    Wp (copyoutLoop d fuel va buf) s (fun ok _ => ok = true → ∀ j < buf.length, Usable v ((va + j) % UINT / PGSIZE))
      fun _ => True := by
  induction fuel generalizing va buf s with
  | zero =>
    intro _ j hj
    omega
  | succ fuel ih =>
    unfold copyoutLoop
    refine Wp.ite (fun hbuf => ?_) fun hbuf => ?_
    · rintro - j hj
      rw [hbuf] at hj
      exact absurd hj (Nat.not_lt_zero j)
    · refine Wp.bind ((uva2ka_spec h.space hva).mono (fun _ _ h => h) fun _ _ => trivial) ?_
      rintro r s' ⟨rfl, rfl⟩
      split_ifs with hpu
      · have hlow : va / PGSIZE < 524288 := by
          by_contra hge
          exact hhigh _ (by omega) hpu.2
        simp only [wp_bind, wp_update]
        obtain ⟨h', -⟩ := h.writeLeaf (At.leaf_mem hlow hpu.1) (memmove (va - pgRoundDown va)
          (buf.take (min (PGSIZE - (va - pgRoundDown va)) buf.length)) (s'.mem (pteAddr (v.pte (va / PGSIZE)))))
        generalize hm : min (PGSIZE - (va - pgRoundDown va)) buf.length = m at h' ⊢
        have hnext : (pgRoundDown va + PGSIZE) % UINT = (va / PGSIZE + 1) * PGSIZE := by
          unfold pgRoundDown
          exact next_page (by omega)
        have hpos : 0 < buf.length := List.length_pos_of_ne_nil hbuf
        have hrest : (buf.drop m).length = buf.length - m := List.length_drop
        have hround : pgRoundDown va = va / 4096 * 4096 := rfl
        have hm' : m = min (4096 - va % 4096) buf.length := by
          rw [← hm, hround]
          simp only [PGSIZE]
          omega
        rw [hnext]
        refine (ih h' (page_lt (by omega)) (by omega)).imp fun ok s'' hok hok' j hj => ?_
        by_cases hjm : j < m
        · -- the part of the range in this page
          have hpage : (va + j) % UINT / PGSIZE = va / PGSIZE := by
            simp only [PGSIZE, UINT] at *
            omega
          rw [hpage]
          exact hpu
        · have hpage := range_next hm' hj hjm
          rw [hpage]
          exact hok hok' (j - m) (by omega)
      · exact fun h0 => absurd h0 Bool.false_ne_true

end copyout

/-! ## One string -/

/-- The stack pointer is in the stack page, which starts at `base`, or at its end. -/
structure InStack (base sp : Nat) : Prop where
  lo : base ≤ sp
  hi : sp ≤ base + 4096
  aligned : sp % 4 = 0

structure StackPage (base : Nat) : Prop where
  aligned : base % 4096 = 0
  pos : 4096 ≤ base
  top : base + 4096 < 2147483648

section below

variable {base sp len : Nat}

theorem below_fits (hb : StackPage base) (hsp : InStack base sp) (hfit : base + (len + 1) ≤ sp) :
    InStack base (below sp len) ∧ below sp len + (len + 1) ≤ sp := by
  obtain ⟨hal, hpos, htop⟩ := hb
  obtain ⟨hlo, hhi, hsp⟩ := hsp
  have hval : below sp len = (sp - (len + 1)) / 4 * 4 := by
    unfold below
    simp only [UINT]
    omega
  rw [hval]
  exact ⟨⟨by omega, by omega, by omega⟩, by omega⟩

theorem below_low (hb : StackPage base) (hsp : InStack base sp) (hfit : ¬ base + (len + 1) ≤ sp) (hle : len + 1 ≤ sp) :
    below sp len < base ∧ base - 4096 < below sp len + (len + 1) := by
  obtain ⟨hal, hpos, htop⟩ := hb
  obtain ⟨hlo, hhi, hsp⟩ := hsp
  have hval : below sp len = (sp - (len + 1)) / 4 * 4 := by
    unfold below
    simp only [UINT]
    omega
  rw [hval]
  omega

theorem below_wraps (hb : StackPage base) (hsp : InStack base sp) (hlen : len < 2147483648) (hgt : ¬ len + 1 ≤ sp) :
    below sp len = (sp + 4294967296 - (len + 1)) / 4 * 4 ∧ 2147483648 ≤ below sp len := by
  obtain ⟨hal, hpos, htop⟩ := hb
  obtain ⟨hlo, hhi, hsp⟩ := hsp
  have hval : below sp len = (sp + 4294967296 - (len + 1)) / 4 * 4 := by
    unfold below
    simp only [UINT]
    omega
  rw [hval]
  exact ⟨rfl, by omega⟩

theorem hole_iff (hb : StackPage base) (hsp : InStack base sp) (hlen : len < 2147483648) (hgt : ¬ len + 1 ≤ sp) :
    (below sp len / 4096 / 1024 < 568 ∨ 1016 ≤ below sp len / 4096 / 1024 ∧ below sp len / 4096 / 1024 < 1024) ↔
      ¬ (sp + 33554432 < len + 1 ∧ len + 1 ≤ sp + 1912602624) := by
  obtain ⟨hval, hhigh⟩ := below_wraps hb hsp hlen hgt
  have hlt := below_lt sp len
  simp only [UINT] at hlt
  omega

end below

section push

variable {U c : Multiset Nat} {v : Space} {s : Phys} {d k base sp data kend : Nat} {arg : List UInt8} {l : List Kmap}

namespace Stack

theorem usable (h : Stack l v k) {n : Nat} (hn : n < k) (hne : n ≠ k - 2) : Usable v n := by
  obtain ⟨q, hq⟩ := h.user n hn hne
  unfold Usable
  rw [hq]
  exact ⟨present_mkPte q _, user_mkPte q⟩

theorem guard_present (h : Stack l v k) : Present (v.pte (k - 2)) := by
  obtain ⟨q, hq⟩ := h.guard
  rw [hq]
  exact present_mkPte q _

theorem guard_not_usable (h : Stack l v k) : ¬ Usable v (k - 2) := by
  obtain ⟨q, hq⟩ := h.guard
  unfold Usable
  rw [hq]
  exact fun hpu => not_user_mkPte q hpu.2

theorem dir_high (h : Stack (kernelLayout data kend).kmap v k) (hl : Linked data) {i : Nat} (hi : 512 ≤ i) :
    v.dir i ≠ none ↔ i < 568 ∨ (1016 ≤ i ∧ i < 1024) := by
  obtain ⟨v₀, hk, hdir, -⟩ := h.kern
  rw [hdir i hi, hk.dir, hl.covered]
  omega

theorem stackUsable (h : Stack l v k) : Usable v (k - 1) := by
  have := h.two
  exact h.usable (by omega) (by omega)

theorem page (h : Stack l v k) : StackPage ((k - 1) * 4096) := by
  have htwo := h.two
  have htop := h.top
  exact ⟨Nat.mul_mod_left _ _, by omega, by omega⟩

end Stack

theorem push_fits (h : At U d v c s) (hst : Stack l v k) (hb : base = (k - 1) * 4096) (hsp : InStack base sp)
    (hfit : base + (arg.length + 1) ≤ sp) :
    copyout d (below sp arg.length) (arg ++ [0]) s = .ok (true, poke s (pteAddr (v.pte (k - 1)))
      (memmove (below sp arg.length - base) (arg ++ [0]) (s.mem (pteAddr (v.pte (k - 1)))))) := by
  have htop := hst.top
  obtain ⟨⟨hlo, hhi, -⟩, hle⟩ := below_fits (hb ▸ hst.page) hsp hfit
  have hsp' := hsp.hi
  obtain ⟨o, ho⟩ : ∃ o, below sp arg.length = base + o := ⟨below sp arg.length - base, by omega⟩
  rw [ho, Nat.add_sub_cancel_left]
  rw [hb]
  refine copyout_fits h (by omega) hst.stackUsable ?_ (by simp)
  rw [List.length_append, List.length_singleton]
  simp only [PGSIZE]
  omega

theorem push_over (h : At U d v c s) (hst : Stack (kernelLayout data kend).kmap v k) (hl : Linked data)
    (hb : base = (k - 1) * 4096)
    (hsp : InStack base sp) (hfit : ¬ base + (arg.length + 1) ≤ sp) (hlen : arg.length < 2147483648) :
    if sp + 33554432 < arg.length + 1 ∧ arg.length + 1 ≤ sp + 1912602624 then
      copyout d (below sp arg.length) (arg ++ [0]) s = .error .fault
    else Wp (copyout d (below sp arg.length) (arg ++ [0])) s (fun ok _ => ok = false) fun _ => False := by
  have htop := hst.top
  have htwo := hst.two
  have hpage : StackPage base := hb ▸ hst.page
  have hbuf : (arg ++ [0]).length = arg.length + 1 := List.length_append
  have hne : arg ++ [0] ≠ [] := by simp
  by_cases hle : arg.length + 1 ≤ sp
  · obtain ⟨hlow, hend⟩ := below_low hpage hsp hfit hle
    have hno : ¬ (sp + 33554432 < arg.length + 1 ∧ arg.length + 1 ≤ sp + 1912602624) := fun h => by omega
    rw [if_neg hno]
    have hguard : (k - 2) * PGSIZE = base - 4096 := by
      rw [hb]
      simp only [PGSIZE]
      omega
    refine copyoutLoop_guard h (g := k - 2) (by omega) (fun n hn => hst.usable (by omega) (by omega)) hst.guard_not_usable
      hst.guard_present ?_ (by omega) ?_ (Nat.le_refl _)
    · refine Nat.le_of_lt_succ (Nat.div_lt_of_lt_mul ?_)
      rw [Nat.mul_comm, Nat.succ_mul, hguard]
      have := hpage.pos
      simp only [PGSIZE]
      omega
    · rw [hbuf, hguard]
      exact hend
  · have hhole := hole_iff hpage hsp hlen hle
    obtain ⟨hval, hhigh⟩ := below_wraps hpage hsp hlen hle
    have hlt := below_lt sp arg.length
    have hdir := hst.dir_high hl (i := below sp arg.length / PGSIZE / 1024) (by simp only [PGSIZE]; omega)
    split_ifs with hin
    · refine copyout_fault h.space hlt ?_ hne
      by_contra hno
      exact (hhole.mp (hdir.mp hno)) hin
    · have hnu : ¬ Usable v (below sp arg.length / PGSIZE) := fun hpu =>
        hst.not_user hl.layout_ok.range (by simp only [PGSIZE]; omega) hpu.2
      show Sat (copyout d (below sp arg.length) (arg ++ [0]) s) _ _
      rw [copyout_bad h.space hlt (hdir.mpr (hhole.mpr hin)) hnu hne]
      rfl

/-! ## All strings -/

/-- The strings `args` are in page `q`, which is mapped at `base`, from `sp'` to `sp`, at the addresses `addrs`; no other
page and nothing from `sp` on has changed. -/
structure Pushed (s s' : Phys) (base q : Nat) (args : List (List UInt8)) (sp sp' : Nat) (addrs : List Nat) : Prop where
  len : addrs.length = args.length
  inStack : InStack base sp'
  le : sp' ≤ sp
  other : ∀ p, p ≠ q → s'.mem p = s.mem p
  keep : ∀ x, sp ≤ base + x → s'.mem q x = s.mem q x
  str : ∀ i < args.length, sp' ≤ addrs.getD i 0 ∧ addrs.getD i 0 + ((args.getD i []).length + 1) ≤ sp ∧
    ∀ j < (args.getD i []).length + 1, s'.mem q (addrs.getD i 0 - base + j) = (args.getD i [] ++ [0]).getD j 0

theorem Pushed.nil {q : Nat} (hsp : InStack base sp) : Pushed s s base q [] sp sp [] :=
  ⟨rfl, hsp, Nat.le_refl sp, fun _ _ => rfl, fun _ _ => rfl, fun i hi => absurd hi (Nat.not_lt_zero i)⟩

theorem poke_self {q : Nat} {b : Nat → UInt8} : (poke s q b).mem q = b := Function.update_self _ _ _

theorem poke_other {p q : Nat} {b : Nat → UInt8} (h : p ≠ q) : (poke s q b).mem p = s.mem p := Function.update_of_ne h _ _

theorem memmove_apply {o x : Nat} {src : List UInt8} {b : Nat → UInt8} :
    memmove o src b x = if o ≤ x ∧ x < o + src.length then src.getD (x - o) 0 else b x := rfl

theorem Pushed.cons {s s' : Phys} {q sp' a : Nat} {args : List (List UInt8)} {addrs : List Nat} (ha : base ≤ a)
    (hfit : a + (arg.length + 1) ≤ sp)
    (h : Pushed (poke s q (memmove (a - base) (arg ++ [0]) (s.mem q))) s' base q args a sp' addrs) :
    Pushed s s' base q (arg :: args) sp sp' (a :: addrs) := by
  have hbuf : (arg ++ [0]).length = arg.length + 1 := List.length_append
  have hle := h.le
  refine ⟨congrArg (· + 1) h.len, h.inStack, by omega, fun p hp => ?_, fun x hx => ?_, fun i hi => ?_⟩
  · rw [h.other p hp, poke_other hp]
  · rw [h.keep x (by omega), poke_self, memmove_apply, if_neg (by omega)]
  · cases i with
    | zero =>
      refine ⟨hle, hfit, fun j hj => ?_⟩
      show s'.mem q (a - base + j) = (arg ++ [0]).getD j 0
      have hj' : j < arg.length + 1 := hj
      rw [h.keep _ (by omega), poke_self, memmove_apply, if_pos (by omega), Nat.add_sub_cancel_left]
    | succ i =>
      obtain ⟨h1, h2, h3⟩ := h.str i (Nat.lt_of_succ_lt_succ hi)
      refine ⟨h1, ?_, h3⟩
      show addrs.getD i 0 + ((args.getD i []).length + 1) ≤ sp
      omega

/-- The loop over the strings: it stops at a null pointer exactly when some string reaches the hole, and when it succeeds,
the strings are in the stack page. -/
theorem pushArgs_run (args : List (List UInt8)) (argc : Nat) (h : At U d v c s)
    (hst : Stack (kernelLayout data kend).kmap v k)
    (hl : Linked data) (hb : base = (k - 1) * 4096) (hsp : InStack base sp) (hargc : argc + args.length ≤ MAXARG)
    (hlen : ∀ a ∈ args, a.length < 2147483648) :
    if reachesHole base sp args then pushArgs d argc args sp s = .error .fault
    else Wp (pushArgs d argc args sp) s (fun r s' => At U d v c s' ∧ ∀ sp' addrs, r = some (sp', addrs) →
      Pushed s s' base (pteAddr (v.pte (k - 1))) args sp sp' addrs) fun _ => False := by
  have hpage : StackPage base := hb ▸ hst.page
  induction args generalizing argc sp s with
  | nil =>
    rw [reachesHole, if_neg (by decide)]
    refine ⟨h, ?_⟩
    rintro sp' addrs hr
    cases hr
    exact .nil hsp
  | cons arg args ih =>
    rw [List.length_cons] at hargc
    have hlen' := hlen arg List.mem_cons_self
    unfold reachesHole pushArgs
    rw [if_neg (show ¬ argc ≥ MAXARG by omega)]
    by_cases hfit : base + (arg.length + 1) ≤ sp
    · have hpush := push_fits h hst hb hsp hfit
      obtain ⟨hin, hle⟩ := below_fits hpage hsp hfit
      obtain ⟨h₁, -⟩ := h.writeLeaf (At.leaf_mem (n := k - 1) (by have := hst.top; omega) hst.stackUsable.1)
        (memmove (below sp arg.length - base) (arg ++ [0]) (s.mem (pteAddr (v.pte (k - 1)))))
      have hrun := ih (argc + 1) h₁ hin (by omega) fun a ha => hlen a (List.mem_cons_of_mem _ ha)
      rw [if_pos hfit]
      split_ifs with hhole
      · rw [if_pos hhole] at hrun
        rw [bind_ok hpush, if_pos rfl]
        show (pushArgs d (argc + 1) args (below sp arg.length) _ >>= _) = _
        rw [show pushArgs d (argc + 1) args (below sp arg.length) (poke s _ _) = _ from hrun]
        rfl
      · rw [if_neg hhole] at hrun
        refine Wp.call hpush ?_
        rw [if_pos rfl]
        refine Wp.bind hrun ?_
        rintro (_ | ⟨sp', addrs⟩) s' ⟨h', hr⟩
        · exact ⟨h', by rintro sp' addrs ⟨⟩⟩
        · refine ⟨h', ?_⟩
          rintro sp'' addrs' heq
          cases heq
          exact (hr _ _ rfl).cons hin.lo hle
    · have hover := push_over h hst hl hb hsp hfit hlen'
      rw [if_neg hfit]
      by_cases hin : sp + 33554432 < arg.length + 1 ∧ arg.length + 1 ≤ sp + 1912602624
      · rw [if_pos (decide_eq_true hin)]
        rw [if_pos hin] at hover
        show (copyout d (below sp arg.length) (arg ++ [0]) s >>= _) = _
        rw [hover]
        rfl
      · rw [if_neg (by rwa [decide_eq_true_eq])]
        rw [if_neg hin] at hover
        refine Wp.bind (hover.keep ((copyout_spec h (fun n hn => hst.not_user hl.layout_ok.range hn)
          (below_lt sp arg.length)).mono (fun _ _ h => h) fun _ _ => trivial)) ?_
        rintro ok s' ⟨rfl, h', -⟩
        exact ⟨h', by rintro sp' addrs ⟨⟩⟩

end push

/-! ## The words on the stack -/

section words

variable {ws : List Nat} {a j : Nat} {b : Nat → UInt8}

theorem length_wordBytes (ws : List Nat) : (wordBytes ws).length = 4 * ws.length := by
  simp [wordBytes, bytes]

theorem getD_wordBytes {x : Nat} (hx : x < 4 * ws.length) :
    (wordBytes ws).getD x 0 = UInt8.ofNat (ws.getD (x / 4) 0 / 256 ^ (x % 4)) := by
  unfold wordBytes bytes
  rw [List.getD_eq_getElem _ _ (by simpa using hx)]
  simp

theorem word_memmove (hws : ∀ w ∈ ws, w < UINT) (hj : j < ws.length) :
    word (memmove (4 * a) (wordBytes ws) b) (a + j) = ws.getD j 0 := by
  have hbyte : ∀ r < 4, memmove (4 * a) (wordBytes ws) b (4 * (a + j) + r) =
      setWord (a + j) (ws.getD j 0) b (4 * (a + j) + r) := by
    intro r hr
    have hin : 4 * a ≤ 4 * (a + j) + r ∧ 4 * (a + j) + r < 4 * a + (wordBytes ws).length := by
      rw [length_wordBytes]
      omega
    rw [memmove_apply, if_pos hin, getD_wordBytes (by omega)]
    unfold setWord
    rw [if_pos (by omega), show (4 * (a + j) + r - 4 * a) / 4 = j by omega,
      show (4 * (a + j) + r - 4 * a) % 4 = (4 * (a + j) + r) % 4 by omega]
  have hlt : ws.getD j 0 < UINT := by
    rw [List.getD_eq_getElem _ _ hj]
    exact hws _ (List.getElem_mem hj)
  have hword := word_setWord b (a + j) (a + j) hlt
  rw [if_pos rfl] at hword
  rw [← hword]
  unfold word
  rw [← hbyte 1 (by decide), ← hbyte 2 (by decide), ← hbyte 3 (by decide)]
  have h0 := hbyte 0 (by decide)
  rw [Nat.add_zero] at h0
  rw [← h0]

theorem memmove_above {o x : Nat} {src : List UInt8} (hx : o + src.length ≤ x) : memmove o src b x = b x := by
  rw [memmove_apply, if_neg (by omega)]

end words

section result

variable {U c : Multiset Nat} {v : Space} {s s' : Phys} {d k base a q : Nat}

theorem userByte_stack (hs : s.space d = v) (hb : base = (k - 1) * 4096) (hlo : base ≤ a) (hhi : a < base + 4096) :
    userByte s d a = s.mem (pteAddr (v.pte (k - 1))) (a - base) := by
  have hpage : a / PGSIZE = k - 1 := by
    simp only [PGSIZE]
    omega
  have hoff : a % PGSIZE = a - base := by
    simp only [PGSIZE]
    omega
  unfold userByte
  rw [hs, hpage, hoff]

theorem userWord_stack (hs : s.space d = v) (hb : base = (k - 1) * 4096) (hlo : base ≤ a) (hhi : a + 3 < base + 4096)
    (ha : (a - base) % 4 = 0) : userWord s d a = word (s.mem (pteAddr (v.pte (k - 1)))) ((a - base) / 4) := by
  unfold userWord word
  rw [userByte_stack hs hb hlo (by omega), userByte_stack hs hb (a := a + 1) (by omega) (by omega),
    userByte_stack hs hb (a := a + 2) (by omega) (by omega), userByte_stack hs hb (a := a + 3) (by omega) (by omega)]
  rw [show 4 * ((a - base) / 4) = a - base by omega, show a + 1 - base = a - base + 1 by omega,
    show a + 2 - base = a - base + 2 by omega, show a + 3 - base = a - base + 3 by omega]

end result

/-- What the new program finds: `argc`, the array `argv` and the strings, all in the stack page, and no other page has
been written. -/
structure ArgsOnStack (s s' : Phys) (d sz sp : Nat) (args : List (List UInt8)) : Prop where
  space : s'.space d = s.space d
  other : ∀ p, p ≠ pteAddr ((s.space d).pte (sz / PGSIZE - 1)) → s'.mem p = s.mem p
  inPage : sz - PGSIZE ≤ sp ∧ sp < sz
  argc : userWord s' d (sp + 4) = args.length
  argv : ∀ i < args.length, ∃ a, userWord s' d (userWord s' d (sp + 8) + 4 * i) = a ∧ sz - PGSIZE ≤ a ∧
    a + ((args.getD i []).length + 1) ≤ sz ∧
    ∀ j < (args.getD i []).length + 1, userByte s' d (a + j) = (args.getD i [] ++ [0]).getD j 0
  null : userWord s' d (userWord s' d (sp + 8) + 4 * args.length) = 0

section stack

variable {U c : Multiset Nat} {v : Space} {s s₁ : Phys} {d k base argc sp data kend : Nat} {args : List (List UInt8)}
    {addrs : List Nat}

theorem length_ustack (argc sp : Nat) (addrs : List Nat) : (ustack argc sp addrs).length = addrs.length + 4 := by
  simp [ustack]

theorem getD_ustack {i : Nat} (hi : i < addrs.length) : (ustack argc sp addrs).getD (3 + i) 0 = addrs.getD i 0 := by
  unfold ustack
  rw [List.append_assoc, List.getD_append_right _ _ _ _ (by simp), List.getD_append _ _ _ _ (by simpa using hi)]
  congr 1
  simp

theorem getD_ustack_last : (ustack argc sp addrs).getD (3 + addrs.length) 0 = 0 := by
  unfold ustack
  rw [List.append_assoc, List.getD_append_right _ _ _ _ (by simp), List.getD_append_right _ _ _ _ (by simp)]
  simp

theorem getD_ustack_argc : (ustack argc sp addrs).getD 1 0 = argc := by
  simp only [ustack, List.cons_append, List.getD_cons_succ, List.getD_cons_zero]

theorem getD_ustack_argv : (ustack argc sp addrs).getD 2 0 = (sp + UINT - (argc + 1) * 4) % UINT := by
  simp only [ustack, List.cons_append, List.getD_cons_succ, List.getD_cons_zero]

theorem ustack_lt (haddrs : ∀ a ∈ addrs, a < UINT) (hlen : argc < UINT) : ∀ w ∈ ustack argc sp addrs, w < UINT := by
  unfold ustack
  simp only [List.mem_append, List.mem_cons, List.not_mem_nil, or_false]
  rintro w (((rfl | rfl | rfl) | hw) | rfl)
  · decide
  · exact hlen
  · exact Nat.mod_lt _ (by decide)
  · exact haddrs w hw
  · decide

theorem argsOnStack {t : Phys} {q : Nat} (hs : s.space d = v) (hspace : t.space d = v) (hq : q = pteAddr (v.pte (k - 1)))
    (hb : base = (k - 1) * 4096) (hk : 1 ≤ k) (hpage : StackPage base) (h : Pushed s s₁ base q args (base + 4096) sp addrs)
    (hfit : base + (args.length + 4) * 4 ≤ sp)
    (htq : t.mem q = memmove (sp - (args.length + 4) * 4 - base) (wordBytes (ustack args.length sp addrs)) (s₁.mem q))
    (htother : ∀ p, p ≠ q → t.mem p = s₁.mem p) : ArgsOnStack s t d (k * PGSIZE) (sp - (args.length + 4) * 4) args := by
  obtain ⟨hal, hpos, htop⟩ := hpage
  obtain ⟨hlo, hhi, hsp⟩ := h.inStack
  have hlen := h.len
  have htopk : k * PGSIZE = base + 4096 := by
    simp only [PGSIZE]
    omega
  have haddr : ∀ a ∈ addrs, a < UINT := by
    intro a ha
    obtain ⟨i, hi, rfl⟩ := List.getElem_of_mem ha
    have hstr := (h.str i (by omega)).2.1
    rw [List.getD_eq_getElem _ _ hi] at hstr
    simp only [UINT]
    omega
  have hws : ∀ w ∈ ustack args.length sp addrs, w < UINT := ustack_lt haddr (by simp only [UINT]; omega)
  have hulen := length_ustack args.length sp addrs
  -- a word of `ustack`, read back
  have hword : ∀ j < args.length + 4,
      userWord t d (sp - (args.length + 4) * 4 + 4 * j) = (ustack args.length sp addrs).getD j 0 := by
    intro j hj
    rw [userWord_stack hspace hb (by omega) (by omega) (by omega), ← hq, htq]
    have hoff : sp - (args.length + 4) * 4 - base = 4 * ((sp - (args.length + 4) * 4 - base) / 4) := by omega
    rw [show (sp - (args.length + 4) * 4 + 4 * j - base) / 4 = (sp - (args.length + 4) * 4 - base) / 4 + j by omega, hoff,
      Nat.mul_div_cancel_left _ (by decide)]
    exact word_memmove hws (by omega)
  have hargv : userWord t d (sp - (args.length + 4) * 4 + 8) = sp - (args.length + 4) * 4 + 12 := by
    have hval := hword 2 (by omega)
    rw [show 4 * 2 = 8 from rfl, getD_ustack_argv] at hval
    rw [hval]
    simp only [UINT]
    omega
  refine ⟨hspace.trans hs.symm, fun p hp => ?_, ?_, ?_, fun i hi => ?_, ?_⟩
  · rw [Nat.mul_div_cancel k (by decide), hs, ← hq] at hp
    rw [htother p hp, h.other p hp]
  · rw [htopk]
    simp only [PGSIZE]
    omega
  · have hval := hword 1 (by omega)
    rw [show 4 * 1 = 4 from rfl, getD_ustack_argc] at hval
    exact hval
  · obtain ⟨hstr₁, hstr₂, hstr₃⟩ := h.str i hi
    refine ⟨addrs.getD i 0, ?_, ?_, ?_, fun j hj => ?_⟩
    · have := hword (3 + i) (by omega)
      rw [getD_ustack (by omega)] at this
      rw [hargv, ← this]
      congr 1
      omega
    · rw [htopk]
      simp only [PGSIZE]
      omega
    · omega
    · rw [userByte_stack hspace hb (by omega) (by omega), ← hq, htq, memmove_above (by rw [length_wordBytes]; omega)]
      rw [show addrs.getD i 0 + j - base = addrs.getD i 0 - base + j by omega]
      exact hstr₃ j hj
  · have := hword (3 + args.length) (by omega)
    have hlast : (ustack args.length sp addrs).getD (3 + addrs.length) 0 = 0 := getD_ustack_last
    rw [hlen] at hlast
    rw [hargv, ← hlast, ← this]
    congr 1
    omega

theorem pushWords_run (hs : s.space d = v) (h₁ : At U d v c s₁) (hst : Stack (kernelLayout data kend).kmap v k)
    (hb : base = (k - 1) * 4096) (hargs : args.length < MAXARG)
    (h : Pushed s s₁ base (pteAddr (v.pte (k - 1))) args (base + 4096) sp addrs) :
    Wp (pushWords d args.length sp addrs) s₁ (fun r s' => ∀ sp, r = some sp → ArgsOnStack s s' d (k * PGSIZE) sp args)
      fun _ => False := by
  have htwo := hst.two
  have hpage : StackPage base := hb ▸ hst.page
  obtain ⟨hal, hpos, htop⟩ := hpage
  obtain ⟨hlo, hhi, hsp⟩ := h.inStack
  simp only [MAXARG] at hargs
  have hbelow : belowWords args.length sp = sp - (args.length + 4) * 4 := by
    unfold belowWords
    simp only [UINT]
    omega
  have hbytes : (wordBytes (ustack args.length sp addrs)).length = 4 * (args.length + 4) := by
    rw [length_wordBytes, length_ustack, h.len]
  have hbuf : wordBytes (ustack args.length sp addrs) ≠ [] := List.ne_nil_of_length_pos (by omega)
  unfold pushWords
  rw [hbelow]
  by_cases hfit : base + (args.length + 4) * 4 ≤ sp
  · -- `ustack` is in the stack page
    obtain ⟨o, ho⟩ : ∃ o, sp - (args.length + 4) * 4 = base + o := ⟨sp - (args.length + 4) * 4 - base, by omega⟩
    have hcopy := copyout_fits (n := k - 1) (o := o) h₁ (by have := hst.top; omega) hst.stackUsable
      (by rw [hbytes]; simp only [PGSIZE]; omega) hbuf
    rw [show (k - 1) * PGSIZE + o = sp - (args.length + 4) * 4 by rw [ho, hb]] at hcopy
    refine Wp.call hcopy ?_
    rw [if_pos rfl]
    rintro sp' heq
    obtain rfl : sp - (args.length + 4) * 4 = sp' := Option.some.inj heq
    obtain ⟨h₂, -⟩ := h₁.writeLeaf (At.leaf_mem (n := k - 1) (by have := hst.top; omega) hst.stackUsable.1)
      (memmove o (wordBytes (ustack args.length sp addrs)) (s₁.mem (pteAddr (v.pte (k - 1)))))
    refine argsOnStack hs h₂.space rfl hb (by omega) ⟨hal, hpos, htop⟩ h hfit ?_ fun p hp => poke_other hp
    rw [ho, Nat.add_sub_cancel_left]
    exact poke_self
  · -- it begins in the page below
    have hn : (sp - (args.length + 4) * 4) / PGSIZE = k - 2 := by
      simp only [PGSIZE]
      omega
    have hlt : sp - (args.length + 4) * 4 < UINT := by
      simp only [UINT]
      omega
    have hcopy := copyout_bad h₁.space hlt
      (by rw [hn]; exact h₁.dir_of_present hst.guard_present) (by rw [hn]; exact hst.guard_not_usable) hbuf
    refine Wp.call hcopy ?_
    rw [if_neg (by decide)]
    exact fun sp' hno => nomatch hno

theorem pushStack_run (h : At U d v c s) (hst : Stack (kernelLayout data kend).kmap v k) (hl : Linked data)
    (hargs : args.length < MAXARG) (hlen : ∀ a ∈ args, a.length < 2147483648) :
    if reachesHole ((k - 1) * 4096) (k * PGSIZE) args then pushStack d (k * PGSIZE) args s = .error .fault
    else Wp (pushStack d (k * PGSIZE) args) s (fun r s' => ∀ sp, r = some sp → ArgsOnStack s s' d (k * PGSIZE) sp args)
      fun _ => False := by
  have hpage := hst.page
  have htwo := hst.two
  have htopk : k * PGSIZE = (k - 1) * 4096 + 4096 := by
    simp only [PGSIZE]
    omega
  have hsp : InStack ((k - 1) * 4096) (k * PGSIZE) := ⟨by omega, by omega, by simp only [PGSIZE]; omega⟩
  have hrun := pushArgs_run args 0 h hst hl rfl hsp (by omega) hlen
  unfold pushStack
  split_ifs with hhole
  · rw [if_pos hhole] at hrun
    show (pushArgs d 0 args (k * PGSIZE) s >>= _) = _
    rw [hrun]
    rfl
  · rw [if_neg hhole] at hrun
    refine Wp.bind hrun ?_
    rintro (_ | ⟨sp, addrs⟩) s₁ ⟨h₁, hr⟩
    · exact fun sp hno => nomatch hno
    · have hpushed := hr sp addrs rfl
      rw [htopk] at hpushed
      exact pushWords_run h.space h₁ hst rfl hargs hpushed

/-- What is wanted of the pushing of `args` in the state `s` that `loadImage` has left: every lookup finds a page table;
`copyout` fails when the user cannot write some page of its range; and when the arguments have been pushed, they are in the
stack page. -/
structure ArgsSafe (U c : Multiset Nat) (s : Phys) (d sz : Nat) (args : List (List UInt8)) : Prop where
  found : pushStack d sz args s ≠ .error .fault
  fails : ∀ s₁ va buf r s₂, At U d (s.space d) c s₁ → va < UINT → copyout d va buf s₁ = .ok (r, s₂) →
    (∃ j < buf.length, ¬ Usable (s.space d) ((va + j) % UINT / PGSIZE)) → r = false
  pushed : ∀ sp s', pushStack d sz args s = .ok (some sp, s') → ArgsOnStack s s' d sz sp args

/-- For every program and every arguments that `sys_exec` admits, in every state of the memory: `loadImage` returns, and when
it has made a new address space, the arguments are pushed safely if and only if they do not reach the hole. -/
theorem exec_args_iff {img : List UInt8} (hl : Linked data) (h : Bal U c s) (hlayout : s.layout = kernelLayout data kend)
    (hargs : args.length < MAXARG) (hlen : ∀ a ∈ args, a.length < KERNBASE) :
    ∃ r s', loadImage img s = .ok (r, s') ∧ ∀ d sz, r = some (d, sz) →
      (ArgsSafe U c s' d sz args ↔ reachesHole (sz - PGSIZE) sz args = false) := by
  have hL : s.layout.Ok := hlayout ▸ hl.layout_ok
  have hload : Wp (loadImage img) s _ fun _ => False := loadImage_spec h hL
  obtain ⟨r, s', hr, -, hpost⟩ := hload.returns
  refine ⟨r, s', hr, ?_⟩
  rintro d sz rfl
  obtain ⟨v, k, hat, hst, rfl⟩ : ∃ v k, At U d v c s' ∧ Stack s.layout.kmap v k ∧ sz = k * PGSIZE := hpost
  rw [hlayout] at hst
  have hbase : k * PGSIZE - PGSIZE = (k - 1) * 4096 := by
    simp only [PGSIZE]
    omega
  have hrun := pushStack_run hat hst hl hargs hlen
  rw [hbase]
  constructor
  · intro hsafe
    by_contra hhole
    rw [if_pos (by simpa using hhole)] at hrun
    exact hsafe.found hrun
  · intro hhole
    rw [if_neg (by rw [hhole]; decide)] at hrun
    refine ⟨fun hfault => hrun.of_error hfault, fun s₁ va buf r s₂ h₁ hva hcopy hbad => ?_,
      fun sp s₂ hpush => hrun.of_ok hpush sp rfl⟩
    rw [hat.space] at h₁ hbad
    obtain ⟨j, hj, hno⟩ := hbad
    cases r with
    | false => rfl
    | true =>
      have htrue := copyoutLoop_true h₁ (fun n hn => hst.not_user hl.layout_ok.range hn) hva (Nat.le_refl buf.length)
      exact absurd (htrue.of_ok hcopy rfl j hj) hno

end stack

/-! ## A memory with room -/

def tinyElf : List UInt8 := [0x7F, 0x45, 0x4C, 0x46] ++ List.replicate 48 0

/-- Where there is room, `loadImage` makes the address space of a program without segments. -/
theorem loadImage_room {U : Multiset Nat} {s : Phys} (h : Bal U 0 s) (hL : s.layout.Ok) (hoom : ∀ j, s.oom j = false)
    (hcard : 2000 ≤ U.card) :
    ∃ d s' v, loadImage tinyElf s = .ok (some (d, 2 * PGSIZE), s') ∧ At U d v 0 s' ∧ Stack s.layout.kmap v 2 := by
  have hroom : ∀ k, k < 2000 → ¬ Scarce U k s.oom := by
    rintro k hk (⟨j, hj⟩ | hle)
    · rw [hoom j] at hj
      cases hj
    · omega
  have hcount : field (readi tinyElf 0 52) 11 % 65536 = 0 := by decide
  have hload : Wp (loadImage tinyElf) s (fun r s' => ∃ d v, r = some (d, 2 * PGSIZE) ∧ At U d v 0 s' ∧
      Stack s.layout.kmap v 2) fun _ => False := by
    unfold loadImage
    rw [if_neg (by decide), if_neg (by decide), hcount]
    refine Wp.bind (setupkvm_spec h hL) ?_
    rintro (_ | d) s₁ ⟨hf₁, hr⟩
    · exact absurd hr.2 (hroom _ (by rw [Multiset.card_zero]; decide))
    · obtain ⟨v₁, h₁, hk⟩ := hr
      have hstack := addStack_spec (E := fun _ => False) h₁ (hk.loaded hL.range)
        (Q := fun r s' => ∃ d v, r = some (d, 2 * PGSIZE) ∧
        At U d v 0 s' ∧ Stack s.layout.kmap v 2) (fun s₂ v₂ h₂ hf₂ hscarce => ?_) fun s₂ v₂ k h₂ hf₂ hstack hk₂ => ?_
      · exact hstack
      · have hsc := hscarce (by decide)
        rw [hk.leaves hL.range, hf₁.oom, Multiset.card_zero] at hsc
        exact absurd hsc (hroom _ (by decide))
      · obtain rfl : k = 2 := hk₂
        exact ⟨d, v₂, rfl, h₂, hstack⟩
  obtain ⟨r, s', hr, d, v, rfl, hat, hst⟩ := hload.returns
  exact ⟨d, s', v, hr, hat, hst⟩

/-- The memory of the kernel when every page is free. -/
@[irreducible] def freshPhys : Phys where
  layout := kernelLayout 0x80108000 0x80116000
  freelist := List.range' 278 57066
  mem := fun _ _ => 0
  calls := 0
  oom := fun _ => false

theorem linked_fresh : Linked 0x80108000 := ⟨by decide, by decide, by decide⟩

theorem layout_fresh : freshPhys.layout = kernelLayout 0x80108000 0x80116000 := by
  unfold freshPhys
  rfl

theorem oom_fresh (j : Nat) : freshPhys.oom j = false := by
  unfold freshPhys
  rfl

theorem freelist_fresh : freshPhys.freelist = List.range' 278 57066 := by
  unfold freshPhys
  rfl

theorem card_fresh : 2000 ≤ (freshPhys.freelist : Multiset Nat).card := by
  rw [freelist_fresh, Multiset.coe_card, List.length_range']
  decide

theorem fresh_bal : Bal (freshPhys.freelist : Multiset Nat) 0 freshPhys := by
  refine ⟨⟨?_, fun p hp => ?_, ?_, ?_⟩, zero_add _⟩
  · rw [freelist_fresh]
    exact Multiset.coe_nodup.mpr List.nodup_range'
  · rw [freelist_fresh] at hp
    have hp' := List.mem_range'_1.mp (Multiset.mem_coe.mp hp)
    rw [layout_fresh]
    show 278 ≤ p ∧ p < 57344
    omega
  · rw [layout_fresh]
    decide
  · rw [layout_fresh]
    decide

theorem loadImage_fresh : ∃ d s v, loadImage tinyElf freshPhys = .ok (some (d, 8192), s) ∧
    At (freshPhys.freelist : Multiset Nat) d v 0 s ∧ Stack (kernelLayout 0x80108000 0x80116000).kmap v 2 := by
  have hL : freshPhys.layout.Ok := layout_fresh ▸ linked_fresh.layout_ok
  have hroom := loadImage_room fresh_bal hL oom_fresh card_fresh
  rw [layout_fresh] at hroom
  exact hroom

theorem exec_args_iff_fresh : ∃ d s, loadImage tinyElf freshPhys = .ok (some (d, 8192), s) ∧
    ArgsSafe (freshPhys.freelist : Multiset Nat) 0 s d 8192 [[0x63, 0x61, 0x74], [0x78]] := by
  obtain ⟨d, s, v, hload, -, -⟩ := loadImage_fresh
  have hargs : ∀ a ∈ ([[0x63, 0x61, 0x74], [0x78]] : List (List UInt8)), a.length < KERNBASE := by decide
  obtain ⟨r, s', hr, hiff⟩ : ∃ r s', loadImage tinyElf freshPhys = .ok (r, s') ∧ _ :=
    exec_args_iff linked_fresh fresh_bal layout_fresh (by decide) hargs
  rw [hload] at hr
  cases hr
  exact ⟨d, s, hload, (hiff d _ rfl).mpr (by decide)⟩

/-- An argument of 32 MiB and three pages takes `exec` to an address without a page table. -/
theorem exec_long_argument : ∃ d s, loadImage tinyElf freshPhys = .ok (some (d, 8192), s) ∧
    ∀ arg : List UInt8, arg.length = 33566720 → pushStack d 8192 [arg] s = .error .fault := by
  obtain ⟨d, s, v, hload, hat, hst⟩ := loadImage_fresh
  refine ⟨d, s, hload, fun arg harg => ?_⟩
  have hrun := pushStack_run hat hst linked_fresh (show [arg].length < MAXARG from show 1 < 32 by decide) fun a ha => by
    rw [List.mem_singleton.mp ha, harg]
    decide
  have hhole : reachesHole ((2 - 1) * 4096) (2 * PGSIZE) [arg] = true := by
    simp only [reachesHole, harg]
    decide
  rw [if_pos hhole] at hrun
  exact hrun

end Xv6Mlfq.Vm
