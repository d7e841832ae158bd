import Xv6Mlfq.Vm.Calls

/-!
# Who holds which page

The holders of pages are the kernel's directory, the stacks of the other CPUs, the processes that are live or
zombies, and the pipes with an open end (`Sys.held`). `MemInv U X s`: the pages of the allocator are those held,
those in flight (`X`) and the free ones, each once.
-/

namespace Xv6Mlfq.Vm

open Lib
open Fs (UINT)

def spacePages (φ : Phys) (d : Nat) : Multiset Nat := {d} + (φ.space d).pages

def Proc.pages (φ : Phys) (q : Proc) : Multiset Nat :=
  if q.state = .live ∨ q.state = .zombie then {q.kstack} + spacePages φ q.pgdir else 0

def Pipe.Open (x : Pipe) : Prop := x.readopen = true ∨ x.writeopen = true

instance (x : Pipe) : Decidable x.Open := inferInstanceAs (Decidable (_ ∨ _))

def Sys.pipes (s : Sys) : Multiset Nat := sumBelow 1048576 fun q => if (s.pipe q).Open then {q} else 0

def Sys.base (s : Sys) : Multiset Nat := spacePages s.phys s.kpgdir + (s.apstacks : Multiset Nat) + s.pipes

def Sys.held (s : Sys) : Multiset Nat := s.base + sumBelow NPROC fun i => (s.proc i).pages s.phys

def Sys.others (s : Sys) (p : Nat) : Multiset Nat :=
  s.base + sumBelow NPROC fun i => if i = p then 0 else (s.proc i).pages s.phys

section frame

variable {c : Multiset Nat} {φ φ' : Phys} {s : Sys} {p d : Nat}

theorem held_split (hp : p < NPROC) : s.held = (s.proc p).pages s.phys + s.others p := by
  have hchange := sumBelow_change (f := fun i => (s.proc i).pages s.phys)
    (g := fun i => if i = p then 0 else (s.proc i).pages s.phys) hp fun j _ hj => if_neg hj
  rw [if_pos rfl, add_zero] at hchange
  unfold Sys.held Sys.others
  rw [← hchange]
  abel

theorem spacePages_frame (hf : Frame c φ φ') (hin : ∀ x ∈ spacePages φ d, x ∈ c) : spacePages φ' d = spacePages φ d := by
  have hwithin : Within c φ d (φ.space d) := ⟨rfl, hin d (by simp [spacePages]), fun t ht => hin t (by
    unfold spacePages Space.pages
    simp only [Multiset.mem_add]
    exact .inr (.inl ht))⟩
  unfold spacePages
  rw [(hwithin.frame hf).space]

theorem pages_frame {q : Proc} (hf : Frame c φ φ') (hin : ∀ x ∈ q.pages φ, x ∈ c) : q.pages φ' = q.pages φ := by
  unfold Proc.pages at *
  split_ifs at hin ⊢ with hst
  · rw [spacePages_frame hf fun x hx => hin x (Multiset.mem_add.mpr (.inr hx))]
  · rfl

theorem base_frame (hf : Frame c s.phys φ) (hin : ∀ x ∈ s.base, x ∈ c) : Sys.base { s with phys := φ } = s.base := by
  have hk : spacePages φ s.kpgdir = spacePages s.phys s.kpgdir := spacePages_frame hf fun x hx => hin x (by
    unfold Sys.base
    simp only [Multiset.mem_add]
    exact .inl (.inl hx))
  show spacePages φ s.kpgdir + _ + _ = _
  rw [hk]
  rfl

/-- While the pages of the others keep their contents, the others hold what they held. -/
theorem others_frame (hf : Frame c s.phys φ) (hin : ∀ x ∈ s.others p, x ∈ c) :
    Sys.others { s with phys := φ } p = s.others p := by
  have hb := base_frame hf fun x hx => hin x (Multiset.mem_add.mpr (.inl hx))
  unfold Sys.others
  rw [hb]
  congr 1
  refine sumBelow_congr fun i hi => ?_
  by_cases hip : i = p
  · rw [if_pos hip, if_pos hip]
  · rw [if_neg hip, if_neg hip]
    refine pages_frame hf fun x hx => hin x (Multiset.mem_add.mpr (.inr (mem_sumBelow.mpr ⟨i, hi, ?_⟩)))
    rwa [if_neg hip]

theorem held_frame (hf : Frame c s.phys φ) (hin : ∀ x ∈ s.held, x ∈ c) : Sys.held { s with phys := φ } = s.held := by
  have hb := base_frame hf fun x hx => hin x (Multiset.mem_add.mpr (.inl hx))
  unfold Sys.held
  rw [hb]
  congr 1
  exact sumBelow_congr fun i hi => pages_frame hf fun x hx => hin x
    (Multiset.mem_add.mpr (.inr (mem_sumBelow.mpr ⟨i, hi, hx⟩)))

theorem others_update (s : Sys) (p : Nat) (q : Proc) :
    Sys.others { s with proc := Function.update s.proc p q } p = s.others p := by
  unfold Sys.others
  congr 1
  refine sumBelow_congr fun i _ => ?_
  by_cases hip : i = p
  · rw [if_pos hip, if_pos hip]
  · rw [if_neg hip, if_neg hip]
    show (Function.update s.proc p q i).pages s.phys = _
    rw [Function.update_of_ne hip]

theorem held_congr {proc : Nat → Proc} (h : ∀ i < NPROC, (proc i).pages s.phys = (s.proc i).pages s.phys) :
    Sys.held { s with proc := proc } = s.held := by
  unfold Sys.held
  exact congrArg (s.base + ·) (sumBelow_congr h)

end frame

/-! ## Memory -/

def Proc.Has (q : Proc) : Prop := q.state = .live ∨ q.state = .zombie

/-- The pages of the allocator are those held, those in flight and the free ones. -/
structure MemInv (U X : Multiset Nat) (s : Sys) : Prop where
  layout : s.phys.layout.Ok
  bal : Bal U (s.held + X) s.phys
  size : ∀ p < NPROC, (s.proc p).Has → (s.proc p).sz < KERNBASE
  pipe : ∀ q, (s.pipe q).Open → q < 1048576

section mem

variable {U X c : Multiset Nat} {s : Sys} {φ : Phys} {p : Nat} {q : Proc}

theorem pages_of_has (h : q.Has) : q.pages φ = {q.kstack} + spacePages φ q.pgdir := if_pos h

theorem pages_of_not (h : ¬ q.Has) : q.pages φ = 0 := if_neg h

theorem MemInv.space (h : MemInv U X s) (hp : p < NPROC) (hhas : (s.proc p).Has) :
    At U (s.proc p).pgdir (s.phys.space (s.proc p).pgdir) ({(s.proc p).kstack} + s.others p + X) s.phys := by
  refine ⟨⟨h.bal.pool, ?_⟩, rfl⟩
  rw [← h.bal.all, held_split hp, pages_of_has hhas]
  unfold spacePages
  abel

/-- The process has got another address space, size or stack; the others keep what they have. -/
theorem MemInv.put {Y : Multiset Nat} (h : MemInv U X s) (hp : p < NPROC) (hlayout : φ.layout = s.phys.layout)
    (hf : ∀ x ∈ s.others p, φ.mem x = s.phys.mem x) (hoom : φ.oom = s.phys.oom)
    (hb : Bal U (q.pages φ + s.others p + Y) φ) (hsz : q.Has → q.sz < KERNBASE) :
    MemInv U Y { s with phys := φ, proc := Function.update s.proc p q } := by
  have hothers : Sys.others { s with phys := φ, proc := Function.update s.proc p q } p = s.others p := by
    have hframe : Frame (s.others p) s.phys φ := ⟨hlayout, hoom, hf⟩
    rw [← others_frame hframe fun x hx => hx]
    exact others_update { s with phys := φ } p q
  refine ⟨?_, ?_, fun i hi hhas => ?_, h.pipe⟩
  · show φ.layout.Ok
    rw [hlayout]
    exact h.layout
  · rw [held_split hp, hothers]
    show Bal U ((Function.update s.proc p q p).pages φ + _ + _) φ
    rw [Function.update_self]
    exact hb
  · by_cases hip : i = p
    · subst hip
      simp only [Function.update_self] at hhas ⊢
      exact hsz hhas
    · simp only [Function.update_of_ne hip] at hhas ⊢
      exact h.size i hi hhas

theorem MemInv.procs {proc : Nat → Proc} (h : MemInv U X s)
    (hproc : ∀ i < NPROC, (proc i).pages s.phys = (s.proc i).pages s.phys ∧
      ((proc i).Has → (s.proc i).Has ∧ (proc i).sz = (s.proc i).sz)) :
    MemInv U X { s with proc := proc } := by
  refine ⟨h.layout, ?_, fun i hi hhas => ?_, h.pipe⟩
  · rw [held_congr fun i hi => (hproc i hi).1]
    exact h.bal
  · obtain ⟨hhas', hsz⟩ := (hproc i hi).2 hhas
    show (proc i).sz < KERNBASE
    rw [hsz]
    exact h.size i hi hhas'

theorem MemInv.phys {Y : Multiset Nat} (h : MemInv U X s) (hf : Frame s.held s.phys φ) (hb : Bal U (s.held + Y) φ) :
    MemInv U Y { s with phys := φ } := by
  refine ⟨?_, ?_, h.size, h.pipe⟩
  · show φ.layout.Ok
    rw [hf.layout]
    exact h.layout
  · rw [held_frame hf fun x hx => hx]
    exact hb

theorem held_setPipe {q : Nat} {x : Pipe} (hq : q < 1048576) :
    Sys.held { s with pipe := Function.update s.pipe q x } + (if (s.pipe q).Open then {q} else 0) =
      s.held + if x.Open then {q} else 0 := by
  have hchange := sumBelow_change (f := fun i => if (s.pipe i).Open then ({i} : Multiset Nat) else 0)
    (g := fun i => if (Function.update s.pipe q x i).Open then {i} else 0) hq fun j _ hj => by rw [Function.update_of_ne hj]
  rw [Function.update_self] at hchange
  have hpipes : Sys.pipes { s with pipe := Function.update s.pipe q x } + (if (s.pipe q).Open then {q} else 0) =
      s.pipes + if x.Open then {q} else 0 := hchange
  show spacePages s.phys s.kpgdir + (s.apstacks : Multiset Nat) + Sys.pipes { s with pipe := Function.update s.pipe q x } +
    (sumBelow NPROC fun i => (s.proc i).pages s.phys) + _ = _
  generalize Sys.pipes { s with pipe := Function.update s.pipe q x } = a at hpipes
  calc _ = spacePages s.phys s.kpgdir + (s.apstacks : Multiset Nat) + (sumBelow NPROC fun i => (s.proc i).pages s.phys) +
        (a + if (s.pipe q).Open then {q} else 0) := by abel
    _ = _ := by
      rw [hpipes]
      unfold Sys.held Sys.base
      abel

theorem MemInv.keepPipe {q : Nat} {x : Pipe} (h : MemInv U X s) (hx : x.Open ↔ (s.pipe q).Open) :
    MemInv U X { s with pipe := Function.update s.pipe q x } := by
  have hopen : ∀ i, (Function.update s.pipe q x i).Open ↔ (s.pipe i).Open := by
    intro i
    by_cases hi : i = q
    · subst hi
      rwa [Function.update_self]
    · rw [Function.update_of_ne hi]
  refine ⟨h.layout, ?_, h.size, fun i hi => h.pipe i ((hopen i).mp hi)⟩
  have hheld : Sys.held { s with pipe := Function.update s.pipe q x } = s.held := by
    unfold Sys.held Sys.base Sys.pipes
    congr 2
    exact sumBelow_congr fun i _ => if_congr (hopen i) rfl rfl
  rw [hheld]
  exact h.bal

theorem MemInv.closePipe {q : Nat} {x : Pipe} (h : MemInv U X s) (ho : (s.pipe q).Open) (hx : ¬ x.Open) :
    MemInv U ({q} + X) { s with pipe := Function.update s.pipe q x } := by
  refine ⟨h.layout, ?_, h.size, fun i hi => h.pipe i ?_⟩
  · have hheld := held_setPipe (s := s) (x := x) (h.pipe q ho)
    rw [if_pos ho, if_neg hx, add_zero] at hheld
    refine ⟨h.bal.pool, ?_⟩
    rw [← add_assoc, hheld]
    exact h.bal.all
  · by_cases hi' : i = q
    · rwa [hi']
    · simpa only [Function.update_of_ne hi'] using hi

theorem MemInv.openPipe {q : Nat} {x : Pipe} (h : MemInv U ({q} + X) s) (ho : ¬ (s.pipe q).Open) (hx : x.Open) :
    MemInv U X { s with pipe := Function.update s.pipe q x } := by
  have hq : q < 1048576 := h.bal.lt (Multiset.mem_add.mpr
    (.inr (Multiset.mem_add.mpr (.inl (Multiset.mem_singleton_self q)))))
  refine ⟨h.layout, ?_, h.size, fun i hi => ?_⟩
  · have hheld := held_setPipe (s := s) (x := x) hq
    rw [if_neg ho, if_pos hx, add_zero] at hheld
    refine ⟨h.bal.pool, ?_⟩
    rw [hheld, add_assoc s.held]
    exact h.bal.all
  · by_cases hi' : i = q
    · rwa [hi']
    · simp only [Function.update_of_ne hi'] at hi
      exact h.pipe i hi

theorem MemInv.not_open {q : Nat} (h : MemInv U ({q} + X) s) : ¬ (s.pipe q).Open := by
  intro ho
  have hheld : q ∈ s.held := by
    unfold Sys.held Sys.base
    refine Multiset.mem_add.mpr (.inl (Multiset.mem_add.mpr (.inr (mem_sumBelow.mpr ⟨q, h.pipe q ho, ?_⟩))))
    rw [if_pos ho]
    exact Multiset.mem_singleton_self q
  have hnodup := h.bal.nodup
  simp only [Multiset.nodup_add, Multiset.disjoint_left, Multiset.mem_add, Multiset.mem_singleton] at hnodup
  exact hnodup.1.2.2 hheld (.inl rfl)

theorem MemInv.kfree {q : Nat} {E : Stop → Prop} (h : MemInv U ({q} + X) s) :
    Wp (mem (kfree q)) s (fun _ s' => MemInv U X s' ∧ s' = { s with phys := s'.phys }) E := by
  rw [wp_mem]
  have hall : s.held + ({q} + X) = {q} + (s.held + X) := by abel
  refine (kfree_spec (hall ▸ h.bal)).imp fun _ φ ⟨hb, hf, _⟩ => ⟨h.phys (hf.mono fun x hx => ?_) hb, rfl⟩
  exact Multiset.mem_add.mpr (.inl hx)

theorem MemInv.kalloc {E : Stop → Prop} (h : MemInv U X s) :
    Wp (mem kalloc) s (fun r s' => s' = { s with phys := s'.phys } ∧
      r.elim (MemInv U X s') fun q => MemInv U ({q} + X) s') E := by
  rw [wp_mem]
  refine (kalloc_spec h.bal).imp fun r φ ⟨hmem, hlayout, hoom, hr⟩ => ⟨rfl, ?_⟩
  have hf : Frame s.held s.phys φ := ⟨hlayout, hoom, fun x _ => by rw [hmem]⟩
  cases r with
  | none => exact h.phys hf hr.1
  | some q =>
    refine h.phys (Y := {q} + X) hf ?_
    rw [show s.held + ({q} + X) = {q} + (s.held + X) by abel]
    exact hr

end mem

end Xv6Mlfq.Vm
