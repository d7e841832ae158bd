import Xv6Mlfq.Lib.Run
import Xv6Mlfq.Vm.Files

/-!
# No page is lost or used twice

`Inv`, the invariant between two calls: the pages of the allocator are those held and the free ones (`MemInv`), reference
counts are right (`FileInv`), no process is being made, and a process that does not run has no open file. Each call keeps
it, whichever allocations fail; `main` makes it hold.
-/

namespace Xv6Mlfq.Vm

open Lib

/-- No process is being made, and only a live one has open files. -/
structure Calm (proc : Nat → Proc) : Prop where
  state : ∀ i < NPROC, (proc i).state ≠ .embryo
  idle : ∀ i < NPROC, (proc i).state ≠ .live → ∀ fd < NOFILE, (proc i).ofile fd = none

structure Inv (U : Multiset Nat) (s : Sys) : Prop where
  mem : MemInv U 0 s
  file : FileInv 0 s
  calm : Calm s.proc

section rules

variable {U X c : Multiset Nat} {s : Sys} {φ : Phys} {p d sz : Nat} {q : Proc} {proc : Nat → Proc} {v : Space}

theorem Calm.update (h : Calm proc) (hq : q.state ≠ .embryo) (hidle : q.state ≠ .live → ∀ fd < NOFILE, q.ofile fd = none) :
    Calm (Function.update proc p q) := by
  refine ⟨fun i hi => ?_, fun i hi hst => ?_⟩
  · by_cases hip : i = p
    · subst hip
      rwa [Function.update_self]
    · rw [Function.update_of_ne hip]
      exact h.state i hi
  · by_cases hip : i = p
    · subst hip
      rw [Function.update_self] at hst ⊢
      exact hidle hst
    · rw [Function.update_of_ne hip] at hst ⊢
      exact h.idle i hi hst

theorem refs_congr {s' : Sys} (h : ∀ i < NPROC, (s'.proc i).ofile = (s.proc i).ofile) : s'.refs = s.refs :=
  sumBelow_congr fun i hi => by
    unfold Proc.refs
    rw [h i hi]

theorem update_ofile (hq : q.ofile = (s.proc p).ofile) (i : Nat) :
    (Function.update s.proc p q i).ofile = (s.proc i).ofile := by
  by_cases hip : i = p
  · subst hip
    rw [Function.update_self, hq]
  · rw [Function.update_of_ne hip]

/-- The process has another space or size; what it and the others hold besides keeps its contents. -/
theorem MemInv.respace (h : MemInv U X s) (hp : p < NPROC) (hhas : (s.proc p).Has)
    (hf : Frame (s.others p) s.phys φ) (hat : At U d v ({(s.proc p).kstack} + s.others p + X) φ) (hsz : sz < KERNBASE) :
    MemInv U X { s with phys := φ, proc := Function.update s.proc p { s.proc p with pgdir := d, sz := sz } } := by
  refine h.put hp hf.layout hf.mem hf.oom ⟨hat.bal.pool, ?_⟩ fun _ => hsz
  rw [pages_of_has (q := { s.proc p with pgdir := d, sz := sz }) hhas, ← hat.bal.all]
  unfold spacePages
  rw [hat.space]
  abel

theorem within_held (hp : p < NPROC) (hhas : (s.proc p).Has) :
    Within (s.held + X) s.phys (s.proc p).pgdir (s.phys.space (s.proc p).pgdir) := by
  have hin : ∀ x ∈ spacePages s.phys (s.proc p).pgdir, x ∈ s.held + X := by
    intro x hx
    rw [held_split hp, pages_of_has hhas]
    simp only [Multiset.mem_add]
    exact .inl (.inl (.inr hx))
  refine ⟨rfl, hin _ (Multiset.mem_add.mpr (.inl (Multiset.mem_singleton_self _))), fun t ht => hin t ?_⟩
  exact Multiset.mem_add.mpr (.inr (Multiset.mem_add.mpr (.inl ht)))

theorem mem_others (hp : p < NPROC) {x : Nat} (hx : x ∈ s.others p) : x ∈ s.held := by
  rw [held_split hp]
  exact Multiset.mem_add.mpr (.inr hx)

theorem Inv.respace (h : Inv U s) (hp : p < NPROC) (hlive : (s.proc p).state = .live)
    (hf : Frame (s.others p) s.phys φ) (hat : At U d v ({(s.proc p).kstack} + s.others p + 0) φ) (hsz : sz < KERNBASE) :
    Inv U { s with phys := φ, proc := Function.update s.proc p { s.proc p with pgdir := d, sz := sz } } := by
  refine ⟨h.mem.respace hp (.inl hlive) hf hat hsz, h.file.moved rfl rfl ?_, h.calm.update ?_ fun hno => absurd hlive hno⟩
  · rw [refs_congr fun i _ => update_ofile (q := { s.proc p with pgdir := d, sz := sz }) rfl i]
  · show (s.proc p).state ≠ .embryo
    rw [hlive]
    exact nofun

end rules

/-! ## sbrk -/

section growproc

variable {U c : Multiset Nat} {s : Sys} {p : Nat} {n : Int}

theorem allocuvm_any {φ : Phys} {d oldsz newsz : Nat} {v : Space} (h : At U d v c φ) (hold : oldsz < KERNBASE) :
    Wp (allocuvm d oldsz newsz) φ (fun r φ' => Frame c φ φ' ∧ r < KERNBASE ∧ ∃ v', At U d v' c φ') fun _ => True := by
  by_cases hnew : newsz < KERNBASE
  · by_cases hle : oldsz ≤ newsz
    · refine (allocuvm_spec h hle hnew fun _ _ _ _ => trivial).imp fun r φ' ⟨hf, v', h', hor⟩ => ⟨hf, ?_, v', h'⟩
      rcases hor with ⟨rfl, -⟩ | ⟨rfl, -⟩
      · exact hnew
      · decide
    · unfold allocuvm
      rw [if_neg (by omega), if_pos (by omega)]
      exact ⟨.refl c φ, hold, v, h⟩
  · unfold allocuvm
    rw [if_pos (by omega)]
    exact ⟨.refl c φ, show 0 < KERNBASE by decide, v, h⟩

theorem growproc_inv (h : Inv U s) (hp : p < NPROC) (hlive : (s.proc p).state = .live) :
    Wp (growproc p n) s (fun _ s' => Inv U s') fun _ => True := by
  have hat := h.mem.space hp (.inl hlive)
  have hsz := h.mem.size p hp (.inl hlive)
  have hsub : ∀ x ∈ s.others p, x ∈ {(s.proc p).kstack} + s.others p + 0 := by
    intro x hx
    rw [add_zero]
    exact Multiset.mem_add.mpr (.inr hx)
  have hset : ∀ {φ v sz}, Frame ({(s.proc p).kstack} + s.others p + 0) s.phys φ →
      At U (s.proc p).pgdir v ({(s.proc p).kstack} + s.others p + 0) φ → sz < KERNBASE →
      Wp (setSize p sz) { s with phys := φ } (fun _ s' => Inv U s') fun _ => True := by
    intro φ v sz hf hat' hlt
    unfold setSize setProc switchuvm
    simp only [wp_bind, wp_update, wp_look, Function.update_self]
    refine Wp.ite (fun _ => trivial) fun _ => Wp.ite (fun _ => trivial) fun _ => ?_
    exact h.respace hp hlive (hf.mono hsub) hat' hlt
  have hend : ∀ {φ v sz}, Frame ({(s.proc p).kstack} + s.others p + 0) s.phys φ →
      At U (s.proc p).pgdir v ({(s.proc p).kstack} + s.others p + 0) φ → sz < KERNBASE →
      Wp (if sz = 0 then return -1 else setSize p sz) { s with phys := φ } (fun _ s' => Inv U s') fun _ => True := by
    intro φ v sz hf hat' hlt
    refine Wp.ite (fun _ => ?_) fun _ => hset hf hat' hlt
    have hsame := h.respace hp hlive (hf.mono hsub) hat' hsz
    rwa [show ({ s.proc p with pgdir := (s.proc p).pgdir, sz := (s.proc p).sz } : Proc) = s.proc p from rfl,
      Function.update_eq_self] at hsame
  unfold growproc
  simp only [wp_bind, wp_look]
  refine Wp.ite (fun _ => ?_) fun _ => Wp.ite (fun _ => ?_) fun _ => ?_
  · simp only [wp_bind, wp_mem]
    exact (allocuvm_any hat hsz).imp fun r φ hpost => by
      obtain ⟨hf, hlt, v', hat'⟩ := hpost
      exact hend hf hat' hlt
  · simp only [wp_bind, wp_mem]
    refine (deallocuvm_spec hat (Nat.le_of_lt hsz)).imp fun r φ hpost => ?_
    refine hend hpost.2.2 hpost.2.1 ?_
    rw [hpost.1]
    exact Nat.lt_of_le_of_lt (Nat.min_le_left _ _) hsz
  · exact hset (.refl _ _) hat hsz

end growproc

/-! ## fork -/

section fork

variable {U X : Multiset Nat} {s : Sys} {p np : Nat}

theorem MemInv.setEmpty {q : Proc} (h : MemInv U X s) (hno : ¬ (s.proc p).Has) (hq : ¬ q.Has) :
    MemInv U X { s with proc := Function.update s.proc p q } := by
  refine h.procs fun i _ => ?_
  by_cases hi : i = p
  · subst hi
    rw [Function.update_self, pages_of_not hno, pages_of_not hq]
    exact ⟨rfl, fun hhas => absurd hhas hq⟩
  · rw [Function.update_of_ne hi]
    exact ⟨rfl, fun hhas => ⟨hhas, rfl⟩⟩

theorem allocproc_spec (h : Inv U s) :
    Wp allocproc s (fun r s' => r.elim (Inv U s') fun np => np < NPROC ∧ (s.proc np).state = .unused ∧
      ∃ φ k, s' = { s with phys := φ, proc := Function.update s.proc np { s.proc np with state := .embryo, kstack := k } } ∧
        MemInv U {k} s') fun _ => True := by
  unfold allocproc setProc
  simp only [wp_bind, wp_look, id]
  cases hfind : (List.range NPROC).find? fun p => decide ((s.proc p).state = .unused) with
  | none => exact h
  | some np =>
    have hnp : np < NPROC := List.mem_range.mp (List.mem_of_find?_eq_some hfind)
    have hun : (s.proc np).state = .unused := by simpa using List.find?_some hfind
    have hno : ¬ (s.proc np).Has := by
      rintro (hst | hst) <;> rw [hun] at hst <;> cases hst
    have hM₁ := h.mem.setEmpty (p := np) (q := { s.proc np with state := .embryo }) hno (by rintro (hst | hst) <;> cases hst)
    simp only [wp_bind, wp_update]
    refine hM₁.kalloc.imp ?_
    rintro (_ | k) s₂ ⟨hs₂, hr⟩
    all_goals
      generalize s₂.phys = φ at hs₂
      subst hs₂
    · have hM₂ := hr.setEmpty (p := np) (q := { s.proc np with kstack := 0, state := .unused })
        (by simp only [Function.update_self]; rintro (hst | hst) <;> cases hst) (by rintro (hst | hst) <;> cases hst)
      simp only [Function.update_idem] at hM₂
      simp only [wp_bind, wp_update, wp_pure, Function.update_self, Function.update_idem]
      refine ⟨hM₂, h.file.moved rfl rfl ?_, h.calm.update (fun h => by cases h) fun _ => h.calm.idle np hnp
        (by rw [hun]; exact fun h => by cases h)⟩
      rw [refs_congr fun i _ => update_ofile (q := { s.proc np with kstack := 0, state := .unused }) rfl i]
    · have hM₂ := MemInv.setEmpty (p := np) (q := { s.proc np with kstack := k, state := .embryo }) hr
        (by simp only [Function.update_self]; rintro (hst | hst) <;> cases hst) (by rintro (hst | hst) <;> cases hst)
      simp only [Function.update_idem, add_zero] at hM₂
      simp only [wp_bind, wp_update, wp_pure, Function.update_self, Function.update_idem]
      exact ⟨hnp, hun, φ, k, rfl, hM₂⟩

/-- The process that `fork` makes, before it is live. -/
def Proc.forked (q : Proc) (k d sz p : Nat) : Proc :=
  { q with state := .embryo, kstack := k, pgdir := d, sz := sz, parent := some p }

/-- While `fork` copies the descriptors below `j` to the process `np`. -/
structure Forking (U X : Multiset Nat) (s : Sys) (np j : Nat) (φ : Phys) (q : Proc) (s' : Sys) : Prop where
  mem : MemInv U X s'
  file : FileInv 0 s'
  phys : s'.phys = φ
  other : ∀ i, i ≠ np → s'.proc i = s.proc i
  state : (s'.proc np).state = .embryo
  kstack : (s'.proc np).kstack = q.kstack
  pgdir : (s'.proc np).pgdir = q.pgdir
  sz : (s'.proc np).sz = q.sz
  free : ∀ fd < NOFILE, j ≤ fd → (s'.proc np).ofile fd = none

theorem dupFd_spec {fd : Nat} {φ : Phys} {q : Proc} {s' : Sys} (h : Forking U X s np fd φ q s') (hp : p < NPROC)
    (hnp : np < NPROC)
    (hfd : fd < NOFILE) : Wp (dupFd p np fd) s' (fun _ s'' => Forking U X s np (fd + 1) φ q s'') fun _ => True := by
  unfold dupFd
  simp only [wp_bind, wp_look]
  cases hf : (s'.proc p).ofile fd with
  | none => exact { h with free := fun i hi hle => h.free i hi (by omega) }
  | some f =>
    have hin : f ∈ s'.refs + 0 := Multiset.mem_add.mpr (.inl (mem_refs hp hfd hf))
    simp only [wp_bind]
    refine (filedup_spec h.file hin).imp fun _ s₁ hpost => ?_
    obtain ⟨hF, hs₁⟩ := hpost
    generalize s₁.file = file at hs₁
    subst hs₁
    have hM : MemInv U X { s' with file := file } := h.mem.files
    refine ⟨hM.setFd, hF.install hnp hfd (h.free fd hfd (le_refl fd)), h.phys, fun i hi => ?_, ?_, ?_, ?_, ?_,
      fun i hi hle => ?_⟩
    · exact (Function.update_of_ne hi _ _).trans (h.other i hi)
    all_goals simp only [Function.update_self]
    · exact h.state
    · exact h.kstack
    · exact h.pgdir
    · exact h.sz
    · rw [Function.update_of_ne (by omega)]
      exact h.free i hi (by omega)

/-- `fork` from the copy of the address space on: the stack, the directory and the space of the child are in flight. -/
theorem Forking.run {φ : Phys} {q : Proc} {v : Space} {s' : Sys}
    (h : Forking U ({q.kstack} + ({q.pgdir} + v.pages)) s np NOFILE φ q s')
    (hs : Calm s.proc) (hnp : np < NPROC) (hv : φ.space q.pgdir = v) (hsz : q.sz < KERNBASE) :
    Inv U { s' with proc := Function.update s'.proc np { s'.proc np with state := .live } } := by
  have hno : ¬ (s'.proc np).Has := by
    rintro (hst | hst) <;> rw [h.state] at hst <;> cases hst
  have hheld : s'.held = s'.others np := by rw [held_split hnp, pages_of_not hno, zero_add]
  refine ⟨?_, h.file.moved rfl rfl ?_, ⟨fun i hi => ?_, fun i hi hst => ?_⟩⟩
  · refine h.mem.put hnp rfl (fun _ _ => rfl) rfl ⟨h.mem.bal.pool, ?_⟩ fun _ => h.sz.trans_lt hsz
    rw [← h.mem.bal.all, hheld, pages_of_has (q := { s'.proc np with state := .live }) (.inl rfl)]
    unfold spacePages
    rw [h.kstack, h.pgdir, h.phys, hv]
    abel
  · rw [refs_congr fun i _ => update_ofile (q := { s'.proc np with state := .live }) rfl i]
  all_goals by_cases hi' : i = np
  · subst hi'
    simp only [Function.update_self]
    exact nofun
  · simp only [Function.update_of_ne hi', h.other i hi']
    exact hs.state i hi
  · subst hi'
    simp only [Function.update_self] at hst
    exact absurd rfl hst
  · simp only [Function.update_of_ne hi', h.other i hi'] at hst ⊢
    exact hs.idle i hi hst

theorem fork_inv (h : Inv U s) (hp : p < NPROC) (hlive : (s.proc p).state = .live) :
    Wp (fork p) s (fun _ s' => Inv U s') fun _ => True := by
  unfold fork
  refine Wp.bind (allocproc_spec h) ?_
  rintro (_ | np) s₁ hr
  · exact hr
  obtain ⟨hnp, hun, φ₁, k, rfl, hM₁⟩ := hr
  have hne : p ≠ np := by
    rintro rfl
    rw [hlive] at hun
    cases hun
  have hidle := h.calm.idle np hnp (by rw [hun]; exact fun h => by cases h)
  simp only [wp_bind, wp_look, wp_mem, Function.update_of_ne hne]
  have hwithin := within_held (X := {k})
    (s := { s with phys := φ₁, proc := Function.update s.proc np { s.proc np with state := .embryo, kstack := k } }) hp
    (by simp only [Function.update_of_ne hne]; exact .inl hlive)
  have hsz := h.mem.size p hp (.inl hlive)
  simp only [Function.update_of_ne hne] at hwithin
  refine ((copyuvm_spec hM₁.bal hM₁.layout hwithin (Nat.le_of_lt hsz)).mono (fun _ _ h => h) fun _ _ => trivial).imp ?_
  rintro (_ | d) φ₂ ⟨hf, hr⟩
  · -- no memory for the child: its stack is freed
    have hM₂ : MemInv U ({k} + 0) _ := hM₁.phys (hf.mono fun x hx => Multiset.mem_add.mpr (.inl hx)) hr
    simp only [wp_bind, wp_look, Function.update_self]
    refine hM₂.kfree.imp fun _ s₃ hpost => ?_
    obtain ⟨hM₃, hs₃⟩ := hpost
    generalize s₃.phys = φ₃ at hs₃
    subst hs₃
    have hM₄ := hM₃.setEmpty (p := np) (q := { s.proc np with pgdir := 0, kstack := 0, state := .unused })
      (by simp only [Function.update_self]; rintro (hst | hst) <;> cases hst) (by rintro (hst | hst) <;> cases hst)
    unfold setProc
    simp only [Function.update_idem] at hM₄
    simp only [wp_update, wp_pure, Function.update_self, Function.update_idem]
    refine ⟨hM₄, h.file.moved rfl rfl ?_, h.calm.update (fun h => by cases h) fun _ => hidle⟩
    rw [refs_congr fun i _ => update_ofile (q := { s.proc np with pgdir := 0, kstack := 0, state := .unused }) rfl i]
  · obtain ⟨v, hat⟩ := hr
    have hM₂ := hM₁.phys (Y := {k} + ({d} + v.pages)) (hf.mono fun x hx => Multiset.mem_add.mpr (.inl hx)) ⟨hat.bal.pool, by
      rw [← hat.bal.all]
      abel⟩
    have hM₃ := hM₂.setEmpty (p := np) (q := (s.proc np).forked k d (s.proc p).sz p)
      (by simp only [Function.update_self]; rintro (hst | hst) <;> cases hst) (by rintro (hst | hst) <;> cases hst)
    unfold setProc
    simp only [Function.update_idem] at hM₃
    simp only [wp_bind, wp_update, Function.update_self, Function.update_idem]
    refine (Wp.range (Forking U ({k} + ({d} + v.pages)) s np · φ₂ ((s.proc np).forked k d (s.proc p).sz p)) NOFILE
      (fun j s' hj hI => dupFd_spec hI hp hnp hj) ?_).imp ?_
    · refine ⟨hM₃, h.file.moved rfl rfl ?_, rfl, fun i hi => Function.update_of_ne hi _ _, ?_, ?_, ?_, ?_,
        fun fd hfd _ => ?_⟩
      · exact congrArg (· + 0) (refs_congr fun i _ => update_ofile (q := (s.proc np).forked k d (s.proc p).sz p) rfl i)
      all_goals simp only [Function.update_self]
      · rfl
      · rfl
      · rfl
      · exact hidle fd hfd
    · intro _ s' hI
      exact Forking.run (q := (s.proc np).forked k d (s.proc p).sz p) (v := v) hI h.calm hnp hat.space hsz

end fork

/-! ## exec -/

section calls

variable {U : Multiset Nat} {s : Sys} {p fd : Nat}

theorem exec_inv {img : Option (List UInt8)} {args : List (List UInt8)} (h : Inv U s) (hp : p < NPROC)
    (hlive : (s.proc p).state = .live) : Wp (exec p img args) s (fun _ s' => Inv U s') fun _ => True := by
  cases img with
  | none => exact h
  | some img =>
    unfold exec
    simp only [wp_bind, wp_mem]
    refine ((newImage_spec h.mem.bal h.mem.layout).mono (fun _ _ h => h) fun _ _ => trivial).imp ?_
    rintro (_ | ⟨d, sz⟩) φ₁ ⟨hf₁, hr⟩
    · refine ⟨h.mem.phys (hf₁.mono fun x hx => Multiset.mem_add.mpr (.inl hx)) hr, h.file.moved rfl rfl rfl, h.calm⟩
    · obtain ⟨hsz, v, hat⟩ := hr
      -- both spaces are there; the old one is freed
      have hold : At U (s.proc p).pgdir (s.phys.space (s.proc p).pgdir)
          ({d} + v.pages + ({(s.proc p).kstack} + s.others p + 0)) φ₁ := by
        refine ⟨⟨hat.bal.pool, ?_⟩, ((within_held hp (.inl hlive)).frame hf₁).space⟩
        rw [← hat.bal.all, held_split hp, pages_of_has (.inl hlive)]
        unfold spacePages
        abel
      unfold setProc switchuvm
      simp only [wp_bind, wp_update, wp_look, Function.update_self]
      refine Wp.ite (fun _ => trivial) fun _ => Wp.ite (fun _ => trivial) fun _ => ?_
      simp only [wp_mem, wp_pure]
      refine (freevm_spec hold).imp fun _ φ₂ hpost => ?_
      obtain ⟨hb, hf₂⟩ := hpost
      have hat₂ : At U d v ({(s.proc p).kstack} + s.others p + 0) φ₂ := by
        refine hat.reserve hb fun x hx => hf₂.mem x (Multiset.mem_add.mpr (.inl hx))
      refine h.respace hp hlive ?_ hat₂ hsz
      refine (hf₁.mono fun x hx => Multiset.mem_add.mpr (.inl (mem_others hp hx))).trans (hf₂.mono fun x hx => ?_)
      rw [add_zero]
      exact Multiset.mem_add.mpr (.inr (Multiset.mem_add.mpr (.inr hx)))

/-! ## pipe and close -/

theorem Calm.withFd {o : Option Nat} (h : Calm s.proc) (hlive : (s.proc p).state = .live) : Calm (s.withFd p fd o).proc := by
  refine h.update ?_ fun hno => absurd hlive hno
  show (s.proc p).state ≠ .embryo
  rw [hlive]
  exact nofun

theorem fileclose_two {f g : Nat} {s : Sys} (hM : MemInv U 0 s) (hF : FileInv ({f} + ({g} + 0)) s) (hC : Calm s.proc) :
    Wp (do fileclose f; fileclose g; return (-1 : Int)) s (fun _ s' => Inv U s') fun _ => True := by
  refine Wp.bind (fileclose_spec hM hF) fun _ s₁ ⟨hM₁, hF₁, hp₁, _⟩ => ?_
  refine Wp.bind (fileclose_spec hM₁ hF₁) fun _ s₂ ⟨hM₂, hF₂, hp₂, _⟩ => ⟨hM₂, hF₂, ?_⟩
  rw [hp₂, hp₁]
  exact hC

theorem sysPipe_inv (h : Inv U s) (hp : p < NPROC) (hlive : (s.proc p).state = .live) :
    Wp (sysPipe p) s (fun _ s' => Inv U s') fun _ => True := by
  unfold sysPipe
  refine Wp.bind (pipealloc_spec h.mem h.file) ?_
  rintro (_ | ⟨rf, wf⟩) s₁ ⟨hM₁, hp₁, -, hF₁⟩
  · exact ⟨hM₁, hF₁, hp₁ ▸ h.calm⟩
  have hC₁ : Calm s₁.proc := hp₁ ▸ h.calm
  have hlive₁ : (s₁.proc p).state = .live := hp₁ ▸ hlive
  refine Wp.bind (fdalloc_spec hF₁ hp) ?_
  rintro (_ | fd0) s₂ hr
  · cases hr
    exact fileclose_two hM₁ hF₁ hC₁
  obtain ⟨hfd0, hF₂, rfl⟩ := hr
  have hM₂ : MemInv U 0 (s₁.withFd p fd0 (some rf)) := hM₁.setFd
  have hC₂ : Calm (s₁.withFd p fd0 (some rf)).proc := hC₁.withFd hlive₁
  have hlive₂ : ((s₁.withFd p fd0 (some rf)).proc p).state = .live := by
    show (Function.update s₁.proc p _ p).state = .live
    rw [Function.update_self]
    exact hlive₁
  refine Wp.bind (fdalloc_spec hF₂ hp) ?_
  rintro (_ | fd1) s₃ hr
  · cases hr
    -- no second descriptor: the first one is given back
    have hM₃ : MemInv U 0 ((s₁.withFd p fd0 (some rf)).withFd p fd0 none) := hM₂.setFd
    refine wp_bind.mpr (fileclose_two hM₃ (hF₂.remove hp hfd0 ?_) (hC₂.withFd hlive₂))
    show (Function.update s₁.proc p _ p).ofile fd0 = some rf
    rw [Function.update_self]
    exact Function.update_self _ _ _
  · obtain ⟨hfd1, hF₃, rfl⟩ := hr
    exact ⟨hM₂.setFd, hF₃, hC₂.withFd hlive₂⟩

theorem sysClose_inv (h : Inv U s) (hp : p < NPROC) (hlive : (s.proc p).state = .live) :
    Wp (sysClose p fd) s (fun _ s' => Inv U s') fun _ => True := by
  unfold sysClose
  simp only [wp_bind, wp_look]
  by_cases hfd : fd < NOFILE
  · rw [if_pos hfd]
    cases hf : (s.proc p).ofile fd with
    | none => exact h
    | some f =>
      unfold setFd setProc
      simp only [wp_bind, wp_update, wp_pure]
      have hC : Calm (s.withFd p fd none).proc := h.calm.withFd hlive
      refine (fileclose_spec h.mem.setFd (h.file.remove hp hfd hf)).imp fun _ s₁ hpost => ?_
      obtain ⟨hM₁, hF₁, hp₁, -⟩ := hpost
      refine ⟨hM₁, hF₁, ?_⟩
      rw [hp₁]
      exact hC
  · rw [if_neg hfd]
    exact h

/-! ## exit and wait -/

/-- While `exit` closes the descriptors below `j`. -/
structure Exiting (U : Multiset Nat) (s : Sys) (p j : Nat) (s' : Sys) : Prop where
  mem : MemInv U 0 s'
  file : FileInv 0 s'
  other : ∀ i, i ≠ p → s'.proc i = s.proc i
  state : (s'.proc p).state = .live
  closed : ∀ fd < j, (s'.proc p).ofile fd = none

theorem Exiting.step {j : Nat} {s' : Sys} (h : Exiting U s p j s') (hp : p < NPROC) (hj : j < NOFILE) :
    Wp (closeFd p j) s' (fun _ s'' => Exiting U s p (j + 1) s'') fun _ => True := by
  refine (closeFd_spec h.mem h.file hp hj).imp fun _ s₁ ⟨hM₁, hF₁, hp₁, _⟩ =>
    ⟨hM₁, hF₁, fun i hi => ?_, ?_, fun fd hfd => ?_⟩
  · rw [hp₁]
    exact (Function.update_of_ne hi _ _).trans (h.other i hi)
  all_goals
    rw [hp₁]
    simp only [Function.update_self]
  · exact h.state
  · by_cases hfdj : fd = j
    · rw [hfdj, Function.update_self]
    · rw [Function.update_of_ne hfdj]
      exact h.closed fd (by omega)

theorem exit_inv (h : Inv U s) (hp : p < NPROC) (hlive : (s.proc p).state = .live) :
    Wp (exit p) s (fun _ s' => Inv U s') fun _ => True := by
  unfold exit
  simp only [wp_bind, wp_look]
  refine Wp.ite (fun _ => trivial) fun _ => ?_
  simp only [wp_bind]
  have hstart : Exiting U s p 0 s := ⟨h.mem, h.file, fun _ _ => rfl, hlive, fun fd hfd => absurd hfd (Nat.not_lt_zero fd)⟩
  refine (Wp.range (Exiting U s p) NOFILE (fun j s' hj hI => hI.step hp hj) hstart).imp fun _ s₁ hI => ?_
  have hparent : ∀ c, ∃ parent,
      (if (s₁.proc c).parent = some p then { s₁.proc c with parent := some s.initproc } else s₁.proc c) =
      { s₁.proc c with parent := parent } := by
    intro c
    split_ifs
    · exact ⟨_, rfl⟩
    · exact ⟨(s₁.proc c).parent, rfl⟩
  unfold setProc
  simp only [wp_update]
  refine ⟨hI.mem.procs fun i _ => ?_, hI.file.moved rfl rfl ?_, fun i hi => ?_, fun i hi hst => ?_⟩
  · obtain ⟨q, hq⟩ := hparent i
    by_cases hip : i = p
    · subst hip
      rw [Function.update_self, hq]
      exact ⟨(pages_of_has (.inr rfl)).trans (pages_of_has (.inl hI.state)).symm, fun _ => ⟨.inl hI.state, rfl⟩⟩
    · rw [Function.update_of_ne hip, hq]
      exact ⟨rfl, fun hhas => ⟨hhas, rfl⟩⟩
  · refine congrArg (· + 0) (refs_congr fun i _ => ?_)
    obtain ⟨q, hq⟩ := hparent i
    by_cases hip : i = p
    · subst hip
      simp only [Function.update_self, hq]
    · simp only [Function.update_of_ne hip, hq]
  all_goals
    obtain ⟨q, hq⟩ := hparent i
    by_cases hip : i = p
  · subst hip
    simp only [Function.update_self]
    exact fun h => by cases h
  · simp only [Function.update_of_ne hip, hq]
    rw [hI.other i hip]
    exact h.calm.state i hi
  · subst hip
    simp only [Function.update_self, hq]
    exact hI.closed
  · simp only [Function.update_of_ne hip, hq] at hst ⊢
    rw [hI.other i hip] at hst ⊢
    exact h.calm.idle i hi hst

theorem wait_inv (h : Inv U s) : Wp (wait p) s (fun _ s' => Inv U s') fun _ => True := by
  unfold wait
  simp only [wp_bind, wp_look, id]
  cases hfind : (List.range NPROC).find? fun c => decide ((s.proc c).parent = some p ∧ (s.proc c).state = .zombie) with
  | none =>
    show Wp (if _ then _ else _) s _ _
    exact Wp.ite (fun _ => h) fun _ => h
  | some c =>
    have hc : c < NPROC := List.mem_range.mp (List.mem_of_find?_eq_some hfind)
    have hz : (s.proc c).state = .zombie := by
      have := List.find?_some hfind
      simp only [decide_eq_true_eq] at this
      exact this.2
    have hat := h.mem.space hc (.inr hz)
    rw [add_assoc, add_zero] at hat
    unfold setProc
    simp only [wp_bind, wp_mem]
    refine (kfree_at hat).imp fun _ φ₁ hpost => ?_
    obtain ⟨hat₁, hf₁⟩ := hpost
    simp only [wp_update]
    refine (freevm_spec hat₁).imp fun _ φ₂ hpost => ?_
    obtain ⟨hb, hf₂⟩ := hpost
    have hf := hf₁.trans hf₂
    have hno : ¬ ({ s.proc c with kstack := 0, parent := none, state := .unused } : Proc).Has := by
      rintro (hst | hst) <;> cases hst
    simp only [wp_pure, Function.update_self, Function.update_idem]
    refine ⟨h.mem.put hc hf.layout hf.mem hf.oom ?_ fun hhas => absurd hhas hno, h.file.moved rfl rfl ?_,
      h.calm.update (fun h => by cases h) fun _ => h.calm.idle c hc (by rw [hz]; exact fun h => by cases h)⟩
    · rw [pages_of_not hno, zero_add, add_zero]
      exact hb
    · exact congrArg (· + 0) (refs_congr fun i _ => update_ofile
        (q := { s.proc c with kstack := 0, parent := none, state := .unused }) rfl i)

end calls

/-! ## main -/

section boot

variable {U c : Multiset Nat} {φ : Phys} {s : Sys} {d : Nat} {v : Space} {E : Stop → Prop} {init : List UInt8}

theorem kfree_all {l : List Nat} (h : Bal U ((l : Multiset Nat) + c) φ) :
    Wp (each l kfree) φ (fun _ φ' => Bal U c φ' ∧ Frame c φ φ') E := by
  induction l generalizing φ with
  | nil =>
    rw [Multiset.coe_nil, zero_add] at h
    exact ⟨h, .refl c φ⟩
  | cons p l ih =>
    have hcons : ((p :: l : List Nat) : Multiset Nat) + c = {p} + ((l : Multiset Nat) + c) := by
      rw [← Multiset.cons_coe, Multiset.cons_add, Multiset.singleton_add]
    unfold each
    refine Wp.bind (kfree_spec (hcons ▸ h)) fun _ φ₁ ⟨hb, hf, _⟩ => (ih hb).imp fun _ φ₂ ⟨hb₂, hf₂⟩ => ⟨hb₂, ?_⟩
    exact (hf.mono fun x hx => Multiset.mem_add.mpr (.inr hx)).trans hf₂

theorem inituvm_spec (h : At U d v c φ) (h0 : ¬ Present (v.pte 0)) :
    Wp (inituvm d init) φ (fun _ φ' => Frame c φ φ' ∧ (Present ((φ'.space d).pte 0) → ∃ v', At U d v' c φ'))
      fun _ => True := by
  unfold inituvm
  refine Wp.ite (fun _ => trivial) fun _ => ?_
  refine Wp.bind (kalloc_at h) ?_
  rintro (_ | p) φ₁ ⟨-, hf₁, hr⟩
  · trivial
  · obtain ⟨h₂, hf₂⟩ := At.scribble hr fun _ => 0
    unfold fill
    simp only [wp_bind, wp_update]
    have hmap : Wp (mappages d (0 * PGSIZE) PGSIZE p (PTE_W ||| PTE_U)) _ _ fun _ => True :=
      mappages_one h₂ (show 0 < 524288 by decide) fun _ => trivial
    rw [Nat.zero_mul] at hmap
    refine hmap.imp fun ok φ₃ hpost => ?_
    obtain ⟨hf₃, hr₃⟩ := hpost
    have hf := hf₁.trans (hf₂.trans (hf₃.mono fun x hx => Multiset.mem_add.mpr (.inr hx)))
    cases ok with
    | true =>
      obtain ⟨v₃, hmaps, h₃⟩ := hr₃
      have hpte : v₃.pte 0 = mkPte p (PTE_W ||| PTE_U) := by rw [hmaps.pte, Function.update_self]
      have hp : p < 1048576 := hr.bal.lt (by simp)
      have hleaf : p ∈ v₃.leaves := mem_leaves.mpr ⟨0, by decide, hpte ▸ present_mkPte p _, by rw [hpte, pteAddr_mkPte hp]⟩
      obtain ⟨h₄, hf₄⟩ := h₃.writeLeaf hleaf (Fs.memmove 0 init (φ₃.mem p))
      exact ⟨hf.trans hf₄, fun _ => ⟨v₃, h₄⟩⟩
    | false =>
      obtain ⟨h₄, hf₄⟩ := At.scribble hr₃.1 (Fs.memmove 0 init (φ₃.mem p))
      refine ⟨hf.trans hf₄, fun hp => absurd hp ?_⟩
      rw [h₄.space]
      exact h0

theorem userinit_spec (h : Inv U s) :
    Wp (userinit init) s (fun _ s' => Present ((s'.phys.space (s'.proc s'.initproc).pgdir).pte 0) → Inv U s')
      fun _ => True := by
  unfold userinit
  refine Wp.bind (allocproc_spec h) ?_
  rintro (_ | p) s₁ hr
  · trivial
  obtain ⟨hp, hun, φ₁, k, rfl, hM₁⟩ := hr
  simp only [wp_bind, wp_update, wp_mem]
  refine (setupkvm_spec hM₁.bal hM₁.layout).imp ?_
  rintro (_ | d) φ₂ ⟨hf₂, hr⟩
  · trivial
  obtain ⟨v, hat, hkern⟩ := hr
  have h0 : ¬ Present (v.pte 0) := by
    rw [hkern.user hM₁.layout.range (by decide)]
    exact not_present_zero
  unfold setProc
  simp only [wp_bind, wp_update, wp_mem, Function.update_self, Function.update_idem]
  refine (inituvm_spec hat h0).imp fun _ φ₃ hpost hpresent => ?_
  obtain ⟨hf₃, hmapped⟩ := hpost
  obtain ⟨v', hat'⟩ := hmapped hpresent
  have hM₃ := hM₁.phys (Y := {k} + ({d} + v'.pages)) ((hf₂.trans hf₃).mono fun x hx => Multiset.mem_add.mpr (.inl hx))
    ⟨hat'.bal.pool, by
      rw [← hat'.bal.all]
      abel⟩
  have hM₄ := hM₃.setEmpty (p := p) (q := { s.proc p with state := .embryo, kstack := k, pgdir := d, sz := PGSIZE })
    (by simp only [Function.update_self]; rintro (hst | hst) <;> cases hst) (by rintro (hst | hst) <;> cases hst)
  simp only [Function.update_idem] at hM₄
  have hmade : Forking U ({k} + ({d} + v'.pages)) s p NOFILE φ₃
    { s.proc p with state := .embryo, kstack := k, pgdir := d, sz := PGSIZE }
      { s with
        phys := φ₃
        proc := Function.update s.proc p { s.proc p with state := .embryo, kstack := k, pgdir := d, sz := PGSIZE }
        initproc := p } := by
    refine ⟨⟨hM₄.layout, hM₄.bal, hM₄.size, hM₄.pipe⟩, h.file.moved rfl rfl ?_, rfl,
      fun i hi => Function.update_of_ne hi _ _,
      ?_, ?_, ?_, ?_, fun fd hfd hle => absurd hfd (Nat.not_lt.mpr hle)⟩
    · exact congrArg (· + 0) (refs_congr fun i _ =>
        update_ofile (q := { s.proc p with state := .embryo, kstack := k, pgdir := d, sz := PGSIZE }) rfl i)
    all_goals simp only [Function.update_self]
  have hinv := Forking.run (q := { s.proc p with state := .embryo, kstack := k, pgdir := d, sz := PGSIZE })
    (v := v') hmade h.calm hp
    hat'.space (show PGSIZE < KERNBASE by decide)
  simp only [Function.update_self, Function.update_idem] at hinv
  exact hinv

/-- The pages that `main` hands to the allocator. -/
def Layout.pages (L : Layout) : Multiset Nat := (List.range' L.first (L.last - L.first) : List Nat)

/-- Where memory begins and ends, and where `kinit2` takes over. -/
structure Bootable (L : Layout) (mid : Nat) : Prop where
  layout : L.Ok
  pos : 0 < L.first
  low : L.first ≤ mid
  high : mid ≤ L.last
  lt : L.last ≤ 1048576

theorem Bootable.pool {L : Layout} {mid : Nat} (h : Bootable L mid) : Pool L L.pages := by
  refine ⟨Multiset.coe_nodup.mpr List.nodup_range', fun p hp => ?_, h.pos, h.lt⟩
  have hlow := h.low
  have hhigh := h.high
  have := List.mem_range'_1.mp (Multiset.mem_coe.mp hp)
  omega

theorem Bootable.split {L : Layout} {mid : Nat} (h : Bootable L mid) :
    (List.range' L.first (mid - L.first) : Multiset Nat) + (List.range' mid (L.last - mid) : List Nat) = L.pages := by
  have hlow := h.low
  have hhigh := h.high
  rw [Multiset.coe_add]
  have happ := List.range'_append_1 (s := L.first) (m := mid - L.first) (n := L.last - mid)
  rw [show L.first + (mid - L.first) = mid by omega, show mid - L.first + (L.last - mid) = L.last - L.first by omega] at happ
  rw [happ]
  rfl

/-- With all memory handed out and no process made, the kernel's directory and the stacks are what is held. -/
theorem inv_before_userinit (L : Layout) (mem : Nat → Nat → UInt8) (oom : Nat → Bool) {l : List Nat} (hL : φ.layout.Ok)
    (hat : At U d v (l : Multiset Nat) φ) : Inv U { poweron L mem oom with phys := φ, kpgdir := d, apstacks := l } := by
  have hzero : ∀ n (f : Nat → Multiset Nat), (∀ i, f i = 0) → sumBelow n f = 0 := by
    intro n f hf
    refine Multiset.eq_zero_of_forall_notMem fun x hx => ?_
    obtain ⟨i, -, hi⟩ := mem_sumBelow.mp hx
    rw [hf i] at hi
    exact Multiset.notMem_zero x hi
  have hclosed : ¬ (⟨false, false⟩ : Pipe).Open := by decide
  have hheld : Sys.held { poweron L mem oom with phys := φ, kpgdir := d, apstacks := l } =
      {d} + v.pages + (l : Multiset Nat) := by
    have hpipes : (poweron L mem oom).pipes = 0 := hzero 1048576 _ fun i => if_neg hclosed
    have hprocs : (sumBelow NPROC fun i => ((poweron L mem oom).proc i).pages φ) = 0 :=
      hzero NPROC _ fun i => pages_of_not (by rintro (hst | hst) <;> cases hst)
    show {d} + (φ.space d).pages + (l : Multiset Nat) + (poweron L mem oom).pipes +
      (sumBelow NPROC fun i => ((poweron L mem oom).proc i).pages φ) = _
    rw [hpipes, hprocs, hat.space, add_zero, add_zero]
  have hrefs : Sys.refs { poweron L mem oom with phys := φ, kpgdir := d, apstacks := l } = 0 :=
    hzero NPROC _ fun i => hzero NOFILE _ fun fd => rfl
  refine ⟨⟨hL, ?_, fun p _ hhas => ?_, fun q hq => absurd hq hclosed⟩,
    ⟨fun f _ => ?_, fun f hf => ?_, fun f _ _ => rfl, fun q w => ?_,
    fun q w f f' hf => ?_⟩, fun i _ => nofun, fun i _ _ fd _ => rfl⟩
  · rw [hheld, add_zero]
    exact hat.bal
  · rcases hhas with hst | hst <;> cases hst
  · rw [hrefs]
    rfl
  · rw [hrefs] at hf
    exact absurd hf (Multiset.notMem_zero f)
  · refine iff_of_false ?_ fun ⟨f, hf⟩ => by cases hf.type
    cases w <;> exact nofun
  · cases hf.type

theorem main_spec {L : Layout} {mem : Nat → Nat → UInt8} {oom : Nat → Bool} {mid others : Nat} (h : Bootable L mid) :
    Wp (main mid others init) (poweron L mem oom)
      (fun _ s => Present ((s.phys.space (s.proc s.initproc).pgdir).pte 0) → Inv L.pages s) fun _ => True := by
  unfold main
  simp only [wp_bind, wp_look, wp_mem]
  have hstart : Bal L.pages ((List.range' L.first (mid - L.first) : Multiset Nat) +
    (List.range' mid (L.last - mid) : List Nat))
      (poweron L mem oom).phys := ⟨h.pool, by rw [h.split]; exact add_zero _⟩
  refine (kfree_all hstart).imp fun _ φ₁ hpost => ?_
  obtain ⟨hb₁, hf₁⟩ := hpost
  have hL₁ : φ₁.layout = L := hf₁.layout
  unfold kvmalloc
  simp only [wp_bind, wp_mem]
  refine (setupkvm_spec hb₁ (hL₁.symm ▸ h.layout)).imp ?_
  rintro (_ | d) φ₂ ⟨hf₂, hr⟩
  · trivial
  obtain ⟨v, hat₂, -⟩ := hr
  simp only [wp_update]
  -- the stacks of the other CPUs
  refine (Wp.range (fun _ s => ∃ φ, ∃ l : List Nat,
    s = { poweron L mem oom with phys := φ, kpgdir := d, apstacks := l } ∧ φ.layout = L ∧
    At L.pages d v ((l : Multiset Nat) + (List.range' mid (L.last - mid) : List Nat)) φ) others ?_ ?_).imp ?_
  · rintro j s - ⟨φ, l, rfl, hL, hat⟩
    unfold startother
    simp only [wp_bind, wp_mem]
    refine (kalloc_at hat).imp ?_
    rintro (_ | q) φ' ⟨-, hf, hr⟩
    · exact ⟨φ', l, rfl, hf.layout.trans hL, hr.1⟩
    · refine ⟨φ', q :: l, rfl, hf.layout.trans hL, ?_⟩
      rw [← Multiset.cons_coe, ← Multiset.singleton_add, add_assoc]
      exact hr
  · refine ⟨φ₂, [], rfl, hf₂.layout.trans hL₁, ?_⟩
    rw [Multiset.coe_nil, zero_add]
    exact hat₂
  · rintro - s₃ ⟨φ₃, l, rfl, hL₃, hat₃⟩
    have hb₃ : Bal L.pages ((List.range' mid (L.last - mid) : Multiset Nat) + ({d} + v.pages + (l : Multiset Nat))) φ₃ :=
      ⟨hat₃.bal.pool, by
        rw [← hat₃.bal.all]
        abel⟩
    refine (kfree_all hb₃).imp fun _ φ₄ hpost => ?_
    obtain ⟨hb₄, hf₄⟩ := hpost
    have hat₄ : At L.pages d v (l : Multiset Nat) φ₄ :=
      hat₃.reserve hb₄ fun x hx => hf₄.mem x (Multiset.mem_add.mpr (.inl hx))
    have hL₄ : φ₄.layout.Ok := by
      rw [hf₄.layout, hL₃]
      exact h.layout
    exact userinit_spec (inv_before_userinit L mem oom hL₄ hat₄)

end boot

/-! ## Every run -/

section run

variable {U : Multiset Nat} {s s' : Sys} {p : Nat}

theorem call_inv {c : Call} (h : Inv U s) (hp : p < NPROC) (hlive : (s.proc p).state = .live) :
    Wp (call p c) s (fun _ s' => Inv U s') fun _ => True := by
  cases c with
  | fork => exact Wp.bind (fork_inv h hp hlive) fun _ _ h' => h'
  | exec img args => exact Wp.bind (exec_inv h hp hlive) fun _ _ h' => h'
  | sbrk n => exact Wp.bind (growproc_inv h hp hlive) fun _ _ h' => h'
  | pipe => exact Wp.bind (sysPipe_inv h hp hlive) fun _ _ h' => h'
  | close fd => exact Wp.bind (sysClose_inv h hp hlive) fun _ _ h' => h'
  | exit => exact exit_inv h hp hlive
  | wait => exact Wp.bind (wait_inv h) fun _ _ h' => h'

theorem callStep_inv {a : Nat × Call} (h : Inv U s) (hstep : callStep s a = .ok s') : Inv U s' := by
  unfold callStep at hstep
  split_ifs at hstep with hlive
  cases hcall : call a.1 a.2 s with
  | error e =>
    rw [hcall] at hstep
    cases hstep
  | ok r =>
    rw [hcall] at hstep
    cases hstep
    exact (call_inv h hlive.1 hlive.2).of_ok hcall

end run

/-- Whatever the memory contains and whichever allocations fail: when `main` has returned and the first process has its
page, then after every sequence of calls by live processes the free pages, the pages of the kernel's directory, the stacks
of the other CPUs, the pages of the processes that are not unused, and the open pipes are together exactly the pages that
were handed to the allocator, each once. -/
theorem pages_conserved {L : Layout} {mem : Nat → Nat → UInt8} {oom : Nat → Bool} {mid others : Nat}
    {init : List UInt8} {s₀ s : Sys}
    {h : List (Sys × Nat × Call)} (hboot : Bootable L mid) (hmain : main mid others init (poweron L mem oom) = .ok ((), s₀))
    (hinit : Present ((s₀.phys.space (s₀.proc s₀.initproc).pgdir).pte 0)) (hrun : Run callStep s₀ h s) :
    ((s.phys.freelist : Multiset Nat) + spacePages s.phys s.kpgdir + (s.apstacks : Multiset Nat) + s.pipes +
      (sumBelow NPROC fun p => if (s.proc p).state = .unused then 0 else
        {(s.proc p).kstack} + spacePages s.phys (s.proc p).pgdir) =
        L.pages) ∧ L.pages.Nodup := by
  have hs₀ : Inv L.pages s₀ := (main_spec hboot).of_ok hmain hinit
  have hs : Inv L.pages s := hrun.induct hs₀ fun _ _ _ hI hstep => callStep_inv hI hstep
  refine ⟨?_, hboot.pool.nodup⟩
  have hprocs : (sumBelow NPROC fun p => if (s.proc p).state = .unused then (0 : Multiset Nat)
      else {(s.proc p).kstack} + spacePages s.phys (s.proc p).pgdir) = sumBelow NPROC fun p => (s.proc p).pages s.phys := by
    refine sumBelow_congr fun p hp => ?_
    have hstate := hs.calm.state p hp
    unfold Proc.pages
    cases hst : (s.proc p).state with
    | unused => rfl
    | embryo => exact absurd hst hstate
    | live => rfl
    | zombie => rfl
  rw [hprocs, ← hs.mem.bal.all]
  unfold Sys.held Sys.base
  abel

/-- Twenty-nine pages and one range of the kernel. -/
def smallLayout : Layout := ⟨[⟨KERNBASE, 0, PGSIZE, PTE_W⟩], 1, 30⟩

theorem smallLayout_bootable : Bootable smallLayout 10 := by
  refine ⟨⟨fun k hk => ?_, List.pairwise_singleton _ _⟩, by decide, by decide, by decide, by decide⟩
  rw [List.mem_singleton.mp hk]
  exact ⟨by decide, by decide, by decide, .inr rfl⟩

@[irreducible] def smallBoot : Except Stop (Unit × Sys) := main 10 1 [1] (poweron smallLayout (fun _ _ => 0) fun _ => false)

/-- The first process makes a pipe and a child, which exits. -/
theorem pages_conserved_child : ∃ s₀ h s, main 10 1 [1] (poweron smallLayout (fun _ _ => 0) fun _ => false) = .ok ((), s₀) ∧
    Run callStep s₀ h s ∧ h.length = 3 ∧
    ((s.phys.freelist : Multiset Nat) + spacePages s.phys s.kpgdir + (s.apstacks : Multiset Nat) + s.pipes +
      (sumBelow NPROC fun p => if (s.proc p).state = .unused then 0 else
        {(s.proc p).kstack} + spacePages s.phys (s.proc p).pgdir) =
        smallLayout.pages) := by
  have hboot : Sat smallBoot (fun r => Present ((r.2.phys.space (r.2.proc r.2.initproc).pgdir).pte 0) ∧
      Sat (Lib.exec callStep [] r.2 [(0, .pipe), (0, .fork), (1, .exit)]) (fun r => r.1.length = 3) fun _ => False)
        fun _ => False := by
    decide +kernel
  obtain ⟨⟨⟨⟩, s₀⟩, hmain, hinit, hexec⟩ := hboot.exists_ok
  unfold smallBoot at hmain
  obtain ⟨h, s, hrun, hlen⟩ := exists_run_of_exec callStep s₀ (P := fun h _ => h.length = 3) _ hexec
  exact ⟨s₀, h, s, hmain, hrun, hlen, (pages_conserved smallLayout_bootable hmain hinit hrun).1⟩

end Xv6Mlfq.Vm
