import Xv6Mlfq.Fs.Sample

/-!
# lseek

`sys_lseek` adds an `int` to an unsigned offset or size and stores the sum in an `int`. In the states that are reached
both are below 2^31, so a sum that is not an `int` comes out negative, and the call computes with exact integers.
-/

namespace Xv6Mlfq.Fs

open Lib

/-- What `whence` adds the offset to: `SEEK_SET`, `SEEK_CUR` and `SEEK_END`. -/
def seekBase (off size : Nat) (whence : Int) : Option Nat :=
  if whence = 0 then some 0 else if whence = 1 then some off else if whence = 2 then some size else none

/-- The offset that `lseek` is to set, in exact integers. -/
def seekTo (off size : Nat) (offset whence : Int) : Option Nat :=
  (seekBase off size whence).bind fun base =>
    if 0 ≤ base + offset ∧ base + offset < 2 ^ 31 then some (base + offset).toNat else none

theorem seekTo_some {off size base : Nat} {offset whence : Int} (hb : seekBase off size whence = some base)
    (hin : 0 ≤ base + offset ∧ base + offset ≤ 2 ^ 31 - 1) :
    seekTo off size offset whence = some (base + offset).toNat := by
  unfold seekTo
  rw [hb, Option.bind_some, if_pos ⟨hin.1, by omega⟩]

theorem seekTo_none {off size : Nat} {offset whence : Int} (hbad : ∀ base, seekBase off size whence = some base →
    ¬ (0 ≤ base + offset ∧ base + offset ≤ 2 ^ 31 - 1)) : seekTo off size offset whence = none := by
  unfold seekTo
  cases hb : seekBase off size whence with
  | none => rfl
  | some base => rw [Option.bind_some, if_neg fun hin => hbad base hb ⟨hin.1, by omega⟩]

theorem int_add {base : Nat} {offset : Int} (hb : base < 2 ^ 31) (ho : -2 ^ 31 ≤ offset ∧ offset < 2 ^ 31) :
    (base + offset < 2 ^ 31 ∧ int (base + offset) = base + offset) ∨ (2 ^ 31 ≤ base + offset ∧ int (base + offset) < 0) := by
  obtain ⟨hge, hlt⟩ := ho
  have hmod := Int.emod_add_mul_ediv (base + offset) UINT
  unfold int
  rw [Int.bmod_def]
  simp only [UINT] at *
  by_cases hs : (base : Int) + offset < 2 ^ 31
  · refine .inl ⟨hs, ?_⟩
    split_ifs
    · omega
    · omega
  · refine .inr ⟨by omega, ?_⟩
    split_ifs
    · omega
    · omega

/-- The sum of C is the sum of the integers, if that is an `int`, and negative otherwise. -/
theorem newOffset_eq {off size : Nat} {offset : Int} (hoff : off < 2 ^ 31) (hsize : size < 2 ^ 31)
    (ho : -2 ^ 31 ≤ offset ∧ offset < 2 ^ 31) (whence : Int) :
    (∃ n, seekTo off size offset whence = some n ∧ newOffset off size offset whence = some (n : Int)) ∨
    (seekTo off size offset whence = none ∧ ∀ new, newOffset off size offset whence = some new → new < 0) := by
  have hsum : ∀ {base : Nat} {x : Int}, (base + offset < 2 ^ 31 ∧ x = base + offset) ∨ (2 ^ 31 ≤ base + offset ∧ x < 0) →
      (∃ n, (if 0 ≤ base + offset ∧ base + offset < 2 ^ 31 then some (base + offset).toNat else none) = some n ∧
        some x = some (n : Int)) ∨
      ((if 0 ≤ base + offset ∧ base + offset < 2 ^ 31 then some (base + offset).toNat else none) = none ∧
        ∀ new, some x = some new → new < 0) := by
    intro base x hx
    split_ifs with hin
    · refine .inl ⟨_, rfl, congrArg some ?_⟩
      omega
    · refine .inr ⟨rfl, fun new hnew => ?_⟩
      cases hnew
      omega
  unfold seekTo seekBase newOffset
  split_ifs
  · exact hsum (.inl (by omega))
  · exact hsum (int_add hoff ho)
  · exact hsum (int_add hsize ho)
  · exact .inr ⟨rfl, fun new hnew => by cases hnew⟩

section seek

variable {img : Image} {h : List Event} {s : FS} {p : PIdx} {fd : Fin NOFILE} {f : FRef}

/-- The state with another offset of open file `f`. -/
def FS.seek (s : FS) (f : FRef) (n : Nat) : FS :=
  { s with ftable := Function.update s.ftable f { s.ftable f with off := n } }

theorem seek_ftable (s : FS) (f : FRef) (n : Nat) : ((s.seek f n).ftable f).off = n := by
  simp [FS.seek]

theorem sysLseek_run (hfd : (s.proc p).ofile fd = some f) (ht : (s.ftable f).type = .inode)
    (hl : (s.icache (s.ftable f).ip).lock = false) (offset whence : Int) :
    Wp (sysLseek p fd.val offset whence) s (fun r s' => (r, s') =
      (newOffset (s.ftable f).off (s.icache (s.ftable f).ip).copy.size offset whence).elim (-1, s)
        fun new => if new < 0 then (-1, s) else (new, s.seek f new.toNat)) fun _ => False := by
  obtain ⟨k, hk⟩ : ∃ k, (s.ftable f).ip = k := ⟨_, rfl⟩
  have hin : 0 ≤ (fd.val : Int) ∧ (fd.val : Int) < NOFILE := by
    have := fd.isLt
    omega
  have hback : Function.update s.icache k { s.icache k with lock := false } = s.icache := by
    rw [show ({ s.icache k with lock := false } : Inode) = s.icache k by rw [← hk, ← hl], Function.update_eq_self]
  unfold sysLseek argfd
  simp only [wp_bind, wp_look]
  rw [dif_pos hin]
  simp only [Int.toNat_natCast, hfd, Option.map_some, wp_pure, wp_bind, wp_look, hk] at hl ⊢
  rw [if_neg (not_not.mpr ht)]
  simp only [acquire, release, Fs.inode, setInode, setFile, wp_bind, wp_look]
  rw [if_neg (by rw [hl]; decide)]
  simp only [wp_update, Function.update_self, Function.update_idem, hback]
  cases newOffset (s.ftable f).off (s.icache k).copy.size offset whence with
  | none => rfl
  | some new =>
    refine Wp.ite (fun hneg => ?_) fun hneg => ?_
    · rw [Option.elim_some, if_pos hneg]
      rfl
    · rw [Option.elim_some, if_neg hneg]
      rfl

/-- The same in exact integers, where the sum cannot wrap around to something positive. -/
theorem sysLseek_eq (hfd : (s.proc p).ofile fd = some f) (ht : (s.ftable f).type = .inode)
    (hl : (s.icache (s.ftable f).ip).lock = false) (hsize : (s.icache (s.ftable f).ip).copy.size < 2 ^ 31)
    (hoff : (s.ftable f).off < 2 ^ 31) {offset : Int} (ho : -2 ^ 31 ≤ offset ∧ offset < 2 ^ 31) (whence : Int) :
    sysLseek p fd.val offset whence s = .ok ((seekTo (s.ftable f).off
      (s.icache (s.ftable f).ip).copy.size offset whence).elim
      (-1, s) fun n => ((n : Int), s.seek f n)) := by
  obtain ⟨r, s', hrun, hpair⟩ := (sysLseek_run hfd ht hl offset whence).returns
  rw [hrun, hpair]
  rcases newOffset_eq hoff hsize ho whence with ⟨n, hseek, hnew⟩ | ⟨hseek, hneg⟩
  · rw [hseek, hnew, Option.elim_some, Option.elim_some, if_neg (by omega), Int.toNat_natCast]
  · rw [hseek]
    cases hnew : newOffset (s.ftable f).off (s.icache (s.ftable f).ip).copy.size offset whence with
    | none => rfl
    | some new =>
      rw [Option.elim_some, if_pos (hneg new hnew)]
      rfl

/-- The open files of a run: their inodes are unlocked, and sizes and offsets are below 2^31. -/
structure Seekable (s : FS) (f : FRef) : Prop where
  lock : (s.icache (s.ftable f).ip).lock = false
  copy : (s.icache (s.ftable f).ip).copy.size = (s.view.inodeAt (s.ftable f).ip).contents.length
  disk : (s.inode (s.icache (s.ftable f).ip).inum).size = (s.view.inodeAt (s.ftable f).ip).contents.length
  size : (s.icache (s.ftable f).ip).copy.size < 2 ^ 31
  off : (s.view.inodeAt (s.ftable f).ip).type ≠ .dev → (s.ftable f).off < 2 ^ 31

theorem run_seekable (hok : img.Ok) (hr : FRun img h s) (hi : Always Ints h) (ht : (s.ftable f).type = .inode) :
    Seekable s f := by
  have hrest := run_rest hok hr hi
  obtain ⟨hvalid, -, hoff⟩ := hrest.files.inode f ht
  have hk := mem_refs_file (v := s.view) ht
  have hcopy : (s.icache (s.ftable f).ip).copy.size = (s.view.inodeAt (s.ftable f).ip).contents.length :=
    hrest.st.toAt.size ⟨hrest.refs_pos hk, hvalid⟩
  refine ⟨?_, hcopy, hrest.st.toAt.inode_size (hrest.live_of_known hk (.inl hvalid)), ?_, hoff⟩
  · apply Bool.eq_false_iff.mpr
    intro hlock
    exact absurd ((hrest.st.lock _).mp hlock) (Finset.notMem_empty _)
  · rw [hcopy]
    exact lt_of_le_of_lt (hrest.st.toAt.length_le _) (by decide)

/-- `lseek` on a file or a directory computes with exact integers, and changes nothing but the offset. -/
theorem lseek_exact (hok : img.Ok) (hr : FRun img h s) (hi : Always Ints h) (hfd : (s.proc p).ofile fd = some f)
    (ht : (s.ftable f).type = .inode) (hdev : (s.view.inodeAt (s.ftable f).ip).type ≠ .dev) {offset : Int}
    (ho : -2 ^ 31 ≤ offset ∧ offset < 2 ^ 31) (whence : Int) :
    sysLseek p fd.val offset whence s = .ok ((seekTo (s.ftable f).off (s.view.inodeAt (s.ftable f).ip).contents.length
      offset whence).elim (-1, s) fun n => ((n : Int), s.seek f n)) := by
  have hseek := run_seekable hok hr hi ht
  rw [← hseek.copy]
  exact sysLseek_eq hfd ht hseek.lock hseek.size (hseek.off hdev) ho whence

theorem lseek_exact_sample : ∃ im h s, Mkfs.mkfs sampleFiles = .ok im ∧ FRun im.disk h s ∧
    sysLseek 0 0 (-1) 2 s = .ok (2, s.seek 0 2) := by
  obtain ⟨im, h, s, hrun, hsound, hr, he⟩ := sample_run
  have ho : -2 ^ 31 ≤ (-1 : Int) ∧ (-1 : Int) < 2 ^ 31 := by decide
  have hcall := lseek_exact hsound.toOk hr he.ints he.fd he.inode he.not_dev ho 2
  rw [← (run_seekable hsound.toOk hr he.ints he.inode).disk, he.off, he.size] at hcall
  exact ⟨im, h, s, hrun, hr, hcall⟩

/-- On the disk: `lseek` fails and leaves the offset alone iff `whence` is unknown or the integer `base + offset` is not in
[0, 2^31 - 1]; otherwise that is the new offset and the result. The file stays as it is. -/
theorem lseek_arithmetic (hok : img.Ok) (hr : FRun img h s) (hi : Always Ints h) (hfd : (s.proc p).ofile fd = some f)
    (ht : (s.ftable f).type = .inode) {i : Nat} (hin : (s.icache (s.ftable f).ip).inum = i)
    (hfile : (s.inode i).type = .file ∨ (s.inode i).type = .dir) {offset : Int}
    (ho : -2 ^ 31 ≤ offset ∧ offset < 2 ^ 31) (whence : Int) :
    ∃ r s', sysLseek p fd.val offset whence s = .ok (r, s') ∧
      ((r = -1 ∧ (s'.ftable f).off = (s.ftable f).off) ↔
        ∀ base, seekBase (s.ftable f).off (s.inode i).size whence = some base →
          ¬ (0 ≤ base + offset ∧ base + offset ≤ 2 ^ 31 - 1)) ∧
      (∀ base, seekBase (s.ftable f).off (s.inode i).size whence = some base →
        0 ≤ base + offset ∧ base + offset ≤ 2 ^ 31 - 1 → r = base + offset ∧ (s'.ftable f).off = base + offset) ∧
      (s'.inode i).size = (s.inode i).size ∧ (s'.vol.node i).contents = (s.vol.node i).contents := by
  subst hin
  have hseek := run_seekable hok hr hi ht
  have hdev : (s.vol.node (s.icache (s.ftable f).ip).inum).type ≠ .dev := by
    apply node_not_dev
    rcases hfile with hfile | hfile
    · rw [hfile]
      decide
    · rw [hfile]
      decide
  have hcall := sysLseek_eq hfd ht hseek.lock hseek.size (hseek.off hdev) ho whence
  rw [hseek.copy, ← hseek.disk] at hcall
  by_cases hgood : ∃ base, seekBase (s.ftable f).off (s.inode (s.icache (s.ftable f).ip).inum).size whence = some base ∧
      0 ≤ (base : Int) + offset ∧ (base : Int) + offset ≤ 2 ^ 31 - 1
  · obtain ⟨base, hb, hin⟩ := hgood
    rw [seekTo_some hb hin, Option.elim_some, Int.toNat_of_nonneg hin.1] at hcall
    refine ⟨_, _, hcall, ?_, ?_, rfl, rfl⟩
    · refine iff_of_false (fun hneg => ?_) fun hall => hall base hb hin
      have := hneg.1
      omega
    · intro base' hb' _
      obtain rfl : base = base' := Option.some.inj (hb.symm.trans hb')
      refine ⟨rfl, ?_⟩
      rw [seek_ftable]
      omega
  · have hbad : ∀ base, seekBase (s.ftable f).off (s.inode (s.icache (s.ftable f).ip).inum).size whence = some base →
        ¬ (0 ≤ (base : Int) + offset ∧ (base : Int) + offset ≤ 2 ^ 31 - 1) :=
      fun base hb hin => hgood ⟨base, hb, hin⟩
    rw [seekTo_none hbad, Option.elim_none] at hcall
    exact ⟨-1, s, hcall, iff_of_true ⟨rfl, rfl⟩ hbad, fun base hb hin => absurd hin (hbad base hb), rfl, rfl⟩

/-- One byte before the end of the three bytes, and one byte before the start. -/
theorem lseek_arithmetic_sample : ∃ im h s, Mkfs.mkfs sampleFiles = .ok im ∧ FRun im.disk h s ∧
    (∃ s', sysLseek 0 0 (-1) 2 s = .ok (2, s') ∧ (s'.ftable 0).off = 2) ∧
    ∃ s', sysLseek 0 0 (-4) 2 s = .ok (-1, s') ∧ (s'.ftable 0).off = 1 := by
  obtain ⟨im, h, s, hrun, hsound, hr, he⟩ := sample_run
  have ho₁ : -2 ^ 31 ≤ (-1 : Int) ∧ (-1 : Int) < 2 ^ 31 := by decide
  have ho₄ : -2 ^ 31 ≤ (-4 : Int) ∧ (-4 : Int) < 2 ^ 31 := by decide
  obtain ⟨r, s₁, hcall₁, -, hmove, -⟩ := lseek_arithmetic hsound.toOk hr he.ints he.fd he.inode rfl (.inl he.file) ho₁ 2
  obtain ⟨r', s₂, hcall₂, hfail, -⟩ := lseek_arithmetic hsound.toOk hr he.ints he.fd he.inode rfl (.inl he.file) ho₄ 2
  rw [he.size] at hmove hfail
  obtain ⟨rfl, hoff⟩ := hmove 3 rfl (by decide)
  obtain ⟨rfl, hsame⟩ := hfail.mpr (by
    intro base hb
    obtain rfl := Option.some.inj hb
    decide)
  refine ⟨im, h, s, hrun, hr, ⟨s₁, hcall₁, ?_⟩, s₂, hcall₂, hsame.trans he.off⟩
  have : ((s₁.ftable 0).off : Int) = 2 := hoff
  omega

end seek

end Xv6Mlfq.Fs
