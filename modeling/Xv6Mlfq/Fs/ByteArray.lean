import Xv6Mlfq.Fs.Cache

/-!
# An open file is a byte array with an offset

`lseek`, `read` and `write` on an open regular file, against the list of its bytes: `lseek` moves the offset, `read`
returns a slice, and `write` replaces one, through the transactions of `filewrite`, the blocks of `writei` and the
addresses of `bmap`.
-/

namespace Xv6Mlfq.Fs

open Lib

section lists

variable {bs d : List UInt8} {k m : Nat}

@[simp] theorem splice_nil (bs : List UInt8) (k : Nat) : splice bs k [] = bs := by
  simp [splice]

theorem splice_splice (hk : k ≤ bs.length) (hm : m ≤ d.length) :
    splice (splice bs k (d.take m)) (k + m) (d.drop m) = splice bs k d := by
  have htake : (d.take m).length = m := by
    rw [List.length_take]
    omega
  have hlen : (splice bs k (d.take m)).length = _ := length_splice hk
  rw [htake] at hlen
  refine List.ext_getElem? fun x => ?_
  rw [splice_getElem? (by omega), splice_getElem? hk, splice_getElem? hk, htake, List.length_drop,
    List.getElem?_take, List.getElem?_drop]
  split_ifs <;> first | rfl | omega | (congr 1; omega)

theorem splice_slice (hk : k ≤ bs.length) : ((splice bs k d).drop k).take d.length = d := by
  unfold splice
  rw [List.append_assoc, List.drop_append, List.drop_of_length_le (by simp), List.length_take,
    show k - min k bs.length = 0 by omega]
  simp

end lists

theorem write_of_le {d : Node} {off : Nat} {src : List UInt8} (htype : d.type = .file) (hoff : off ≤ d.contents.length)
    (hmax : off + src.length ≤ MAXFILE * BSIZE) :
    d.write off src = (some src.length, { d with contents := splice d.contents off src }) := by
  unfold Node.write
  have hwrap : (off + src.length) % UINT = off + src.length := by
    refine Nat.mod_eq_of_lt ?_
    simp only [MAXFILE, NDIRECT, NINDIRECT, BSIZE, UINT] at *
    omega
  rw [htype, if_neg nofun, if_neg (by rw [hwrap]; omega), if_neg (by omega)]

theorem write_of_gt {d : Node} {off : Nat} {src : List UInt8} (htype : d.type = .file) (hoff : d.contents.length < off) :
    d.write off src = (none, d) := by
  unfold Node.write
  rw [htype, if_neg nofun, if_pos (.inl hoff)]

theorem At.length_le {v : View} {s : FS} (h : At v s) (i : Nat) : (v.node i).contents.length ≤ MAXFILE * BSIZE := by
  rw [← h.node]
  unfold Vol.node
  split_ifs with hl
  · have hcnt := (h.good.shaped i hl).cnt_le
    have hsize := le_blocksIn_mul (s.inode i).size
    rw [length_contents]
    exact hsize.trans (Nat.mul_le_mul_right _ hcnt)
  · simp [Node.none]

theorem ilock_unlock {v : View} {k : IRef} (hk : v.Loaded k) (hl : (v.slot k).lock = false) :
    (v.ilock k).unlock k = v := by
  have hslot : (⟨(v.slot k).inum, (v.slot k).ref, false, true⟩ : Slot) = v.slot k := by rw [← hl, ← hk.valid]
  simp only [View.ilock, View.unlock, View.setSlot, Function.update_self, Function.update_idem, hslot,
    Function.update_eq_self]

section files

variable {v : View} {s : FS} {f : FRef} {ip : IRef} {p : PIdx} {fd : Fin NOFILE} {i : Nat}

/-- The inode of the file is in the cache, is a regular file and is not locked. -/
structure Regular (v : View) (ip : IRef) : Prop where
  loaded : v.Loaded ip
  unlocked : (v.slot ip).lock = false
  file : (v.inodeAt ip).type = .file

theorem Regular.no_fault (h : Regular v ip) {e : Stop} (he : LockFault v ip e) : False := by
  cases he with
  | held hl => exact absurd (h.unlocked.symm.trans hl) (by simp)
  | beyond _ hv => exact absurd (h.loaded.valid.symm.trans hv) (by simp)
  | noType _ hv => exact absurd (h.loaded.valid.symm.trans hv) (by simp)

theorem acquire_free (s : FS) (k : IRef) : Wp (acquire k) s (fun _ s' => s'.free = s.free) fun _ => True := by
  unfold acquire
  simp only [Fs.inode, setInode, wp_bind, wp_look]
  exact Wp.ite (fun _ => trivial) fun _ => rfl

theorem ilock_free (s : FS) (k : IRef) : Wp (ilock k) s (fun _ s' => s'.free = s.free) fun _ => True := by
  unfold ilock iload
  simp only [Fs.inode, wp_bind, wp_look]
  refine Wp.ite (fun _ => trivial) fun _ => Wp.bind (acquire_free s k) fun _ s₁ hfree => ?_
  refine Wp.ite (fun _ => hfree) fun _ => ?_
  simp only [setInode, wp_bind, wp_look]
  refine Wp.ite (fun _ => ?_) fun _ => trivial
  simp only [wp_bind, wp_update]
  exact Wp.ite (fun _ => trivial) fun _ => hfree

theorem iunlock_free (s : FS) (k : IRef) : Wp (iunlock k) s (fun _ s' => s'.free = s.free) fun _ => True := by
  unfold iunlock release
  simp only [Fs.inode, setInode, wp_bind, wp_look]
  exact Wp.ite (fun _ => trivial) fun _ => rfl

/-- The file at offset `off` after a write of `src`. -/
def View.wrote (v : View) (f : FRef) (ip : IRef) (src : List UInt8) : View :=
  (v.setNode (v.slot ip).inum { v.inodeAt ip with
    contents := splice (v.inodeAt ip).contents (v.ftable f).off src }).setFile f
      fun x => { x with off := (v.ftable f).off + src.length }

theorem filewriteChunk_spec (h : At v s) (hreg : Regular v ip) (src : List UInt8) :
    Wp (filewriteChunk f ip src) s
      (fun r s' => r = ((v.inodeAt ip).write (v.ftable f).off src).1 ∧
        At ((v.setNode (v.slot ip).inum ((v.inodeAt ip).write (v.ftable f).off src).2).setFile f
          (advance (((v.inodeAt ip).write (v.ftable f).off src).1.getD 0))) s' ∧
        s'.free + blocksFor (blocksIn ((v.inodeAt ip).write (v.ftable f).off src).2.contents.length) =
          s.free + blocksFor (blocksIn (v.inodeAt ip).contents.length))
      fun _ => s.free + blocksFor (blocksIn (v.inodeAt ip).contents.length) <
        blocksFor (blocksIn ((v.inodeAt ip).write (v.ftable f).off src).2.contents.length) := by
  unfold filewriteChunk
  refine Wp.bind ((beginOp_spec h).keep (R := fun _ s' => s'.free = s.free) (wp_update.mpr rfl)) ?_
  rintro _ s₁ ⟨h₁, hfree₁⟩
  have hreg₁ : Regular v.beginOp ip := ⟨⟨hreg.loaded.ref, hreg.loaded.valid⟩, hreg.unlocked, hreg.file⟩
  refine Wp.bind (((ilock_spec h₁ hreg₁.loaded.ref).mono (fun _ _ h => h) fun _ he => (hreg₁.no_fault he).elim).keep
    (ilock_free s₁ ip)) ?_
  rintro _ s₂ ⟨⟨-, -, h₂⟩, hfree₂⟩
  have hslot : (v.beginOp.ilock ip).slot ip = ⟨(v.slot ip).inum, (v.slot ip).ref, true, true⟩ := by
    simp [View.ilock, View.setSlot, View.beginOp]
  have hinum : ((v.beginOp.ilock ip).slot ip).inum = (v.slot ip).inum := by rw [hslot]
  have hat : (v.beginOp.ilock ip).inodeAt ip = v.inodeAt ip := by
    unfold View.inodeAt
    rw [hinum]
    rfl
  have hloaded : (v.beginOp.ilock ip).Loaded ip := ⟨by rw [hslot]; exact hreg.loaded.ref, by rw [hslot]⟩
  have hoff : (s₂.ftable f).off = (v.ftable f).off := by
    have := congrArg (fun w => (w.ftable f).off) h₂.view
    exact this
  simp only [wp_bind, wp_look, hoff]
  have hwrite := writei_view h₂ hloaded (v.ftable f).off src
  rw [hat, hinum] at hwrite
  refine hwrite.mono ?_ ?_
  · rintro r s₃ ⟨rfl, h₃, hpaid⟩
    refine ((setFile_spec h₃ f _).keep (R := fun _ s' => s'.free = s₃.free) (wp_update.mpr rfl)).imp ?_
    rintro _ s₄ ⟨h₄, hfree₄⟩
    refine ((iunlock_spec (k := ip) h₄ ?_ ?_).keep (iunlock_free s₄ ip)).imp ?_
    rotate_right
    · rintro _ s₅ ⟨h₅, hfree₅⟩
      refine ((endOp_spec h₅).keep (R := fun _ s' => s'.free = s₅.free) (wp_update.mpr rfl)).imp ?_
      rintro _ s₆ ⟨h₆, hfree₆⟩
      refine ⟨rfl, ?_, show s₆.free + _ = _ by omega⟩
      -- nothing is left of the lock and the transaction
      have hback : ∀ d g, ((((v.beginOp.ilock ip).setNode (v.slot ip).inum d).setFile f g).unlock ip).endOp =
          (((v.ilock ip).unlock ip).setNode (v.slot ip).inum d).setFile f g := by
        intro d g
        simp only [View.endOp, View.beginOp, View.ilock, View.setNode, View.setFile, View.unlock, View.setSlot,
          add_sub_cancel_right]
      rw [hback, ilock_unlock hreg.loaded hreg.unlocked] at h₆
      exact h₆
    · show 0 < ((v.beginOp.ilock ip).slot ip).ref
      rw [hslot]
      exact hreg.loaded.ref
    · show ((v.beginOp.ilock ip).slot ip).lock = true
      rw [hslot]
  · rintro e ⟨-, hfull⟩
    omega

theorem filewriteChunk_all (src : List UInt8) (h : At v s) (hreg : Regular v ip) (hpos : 0 < src.length)
    (hoff : (v.ftable f).off ≤ (v.inodeAt ip).contents.length)
    (hmax : (v.ftable f).off + src.length ≤ MAXFILE * BSIZE) :
    Wp (filewriteChunk f ip src) s
      (fun r s' => r = some src.length ∧ At (v.wrote f ip src) s' ∧
        s'.free + blocksFor (blocksIn (max (v.inodeAt ip).contents.length ((v.ftable f).off + src.length))) =
          s.free + blocksFor (blocksIn (v.inodeAt ip).contents.length))
      fun _ => s.free + blocksFor (blocksIn (v.inodeAt ip).contents.length) <
        blocksFor (blocksIn (max (v.inodeAt ip).contents.length ((v.ftable f).off + src.length))) := by
  have hwrite := write_of_le hreg.file hoff hmax
  have hspec := filewriteChunk_spec (f := f) h hreg src
  rw [hwrite] at hspec
  simp only [length_splice hoff] at hspec
  refine hspec.imp ?_
  rintro r s' ⟨rfl, h', hpaid⟩
  refine ⟨rfl, ?_, hpaid⟩
  have hadv : ∀ w : View, w.ftable f = v.ftable f → w.setFile f (advance src.length) =
      w.setFile f fun x => { x with off := (v.ftable f).off + src.length } := by
    intro w hw
    unfold View.setFile advance
    have hmod : ((v.ftable f).off + src.length) % UINT = (v.ftable f).off + src.length := by
      refine Nat.mod_eq_of_lt ?_
      simp only [MAXFILE, NDIRECT, NINDIRECT, BSIZE, UINT] at *
      omega
    rw [if_pos hpos, hw, hmod]
  rw [show (some src.length).getD 0 = src.length from rfl, hadv (v.setNode _ _) rfl] at h'
  exact h'

theorem filewriteChunk_refused (src : List UInt8) (h : At v s) (hreg : Regular v ip)
    (hw : (v.inodeAt ip).write (v.ftable f).off src = (none, v.inodeAt ip)) :
    Wp (filewriteChunk f ip src) s (fun r s' => r = none ∧ At v s') fun _ => False := by
  have hspec := filewriteChunk_spec (f := f) h hreg src
  rw [hw] at hspec
  refine hspec.mono ?_ fun _ hfull => absurd hfull (by simp)
  rintro r s' ⟨rfl, h', -⟩
  refine ⟨rfl, ?_⟩
  have hsame : (v.setNode (v.slot ip).inum (v.inodeAt ip)).setFile f (advance ((none : Option Nat).getD 0)) = v := by
    rw [show v.setNode (v.slot ip).inum (v.inodeAt ip) = v from setNode_self v _]
    show v.setFile f (fun x => x) = v
    simp [View.setFile]
  rwa [hsame] at h'

theorem wrote_wrote {src : List UInt8} {m : Nat} (hm : m ≤ src.length)
    (hoff : (v.ftable f).off ≤ (v.inodeAt ip).contents.length) :
    (v.wrote f ip (src.take m)).wrote f ip (src.drop m) = v.wrote f ip src := by
  have htake : (src.take m).length = m := by
    rw [List.length_take]
    omega
  unfold View.inodeAt at hoff
  unfold View.wrote
  simp only [View.setFile, View.setNode, View.inodeAt, Function.update_self, Function.update_idem, htake,
    List.length_drop]
  rw [splice_splice hoff hm, show (v.ftable f).off + m + (src.length - m) = (v.ftable f).off + src.length by omega]

/-- How many of `n` bytes `filewrite` stores from offset `off` on: it writes `writeMax` bytes at a time, and stops
at the first piece that does not fit. -/
def stored (off n : Nat) : Nat :=
  if off + n ≤ MAXFILE * BSIZE then n else (MAXFILE * BSIZE - off) / writeMax * writeMax

theorem stored_le (off n : Nat) : stored off n ≤ n := by
  unfold stored
  split_ifs with hfit
  · exact le_rfl
  · have := Nat.div_mul_le_self (MAXFILE * BSIZE - off) writeMax
    omega

theorem stored_eq_zero {off n : Nat} (h : MAXFILE * BSIZE < off + min n writeMax) : stored off n = 0 := by
  have hmax : 0 < writeMax := by decide
  unfold stored
  rw [if_neg (by omega), Nat.div_eq_of_lt (by omega), Nat.zero_mul]

theorem stored_step {off n : Nat} (h : off + min n writeMax ≤ MAXFILE * BSIZE) :
    stored off n = min n writeMax + stored (off + min n writeMax) (n - min n writeMax) := by
  have hmax : 0 < writeMax := by decide
  unfold stored
  by_cases hn : n ≤ writeMax
  · rw [min_eq_left hn] at h ⊢
    rw [if_pos h, if_pos (by omega)]
    omega
  · rw [min_eq_right (by omega)] at h ⊢
    by_cases hfit : off + n ≤ MAXFILE * BSIZE
    · rw [if_pos hfit, if_pos (by omega)]
      omega
    · have hdiv : (MAXFILE * BSIZE - off) / writeMax = (MAXFILE * BSIZE - (off + writeMax)) / writeMax + 1 := by
        rw [← Nat.add_div_right _ hmax]
        congr 1
        omega
      rw [if_neg hfit, if_neg (by omega), hdiv, Nat.add_mul, Nat.one_mul, Nat.add_comm]

/-- The loop of `filewrite`: it returns whether everything fits, and `stored` bytes are in the file. -/
theorem filewriteLoop_spec (fuel : Nat) : ∀ (v : View) (s : FS) (src : List UInt8), src.length ≤ fuel → At v s →
    Regular v ip → (v.ftable f).off ≤ (v.inodeAt ip).contents.length →
    Wp (filewriteLoop f ip fuel src) s
      (fun ok s' => (ok = true ↔ (v.ftable f).off + src.length ≤ MAXFILE * BSIZE) ∧
        At (v.wrote f ip (src.take (stored (v.ftable f).off src.length))) s')
      fun _ => s.free + blocksFor (blocksIn (v.inodeAt ip).contents.length) <
        blocksFor (blocksIn (max (v.inodeAt ip).contents.length
          ((v.ftable f).off + stored (v.ftable f).off src.length))) := by
  have hnil : ∀ (v : View) (s : FS), At v s → At (v.wrote f ip []) s := by
    intro v s h
    have : v.wrote f ip [] = v := by
      simp [View.wrote, View.setFile, View.setNode, View.inodeAt]
    rwa [this]
  have hdone : ∀ (v : View) (s : FS), At v s → Regular v ip →
      (v.ftable f).off ≤ (v.inodeAt ip).contents.length →
      ((true = true) ↔ (v.ftable f).off + ([] : List UInt8).length ≤ MAXFILE * BSIZE) ∧
        At (v.wrote f ip (List.take (stored (v.ftable f).off ([] : List UInt8).length) [])) s := by
    intro v s h hreg hoff
    have hlen := h.length_le (v.slot ip).inum
    refine ⟨⟨fun _ => hoff.trans hlen, fun _ => rfl⟩, ?_⟩
    rw [List.take_nil]
    exact hnil v s h
  induction fuel with
  | zero =>
    intro v s src hlen h hreg hoff
    obtain rfl : src = [] := List.length_eq_zero_iff.mp (by omega)
    exact hdone v s h hreg hoff
  | succ fuel ih =>
    intro v s src hlen h hreg hoff
    unfold filewriteLoop
    refine Wp.ite (fun h0 => ?_) fun h0 => ?_
    · subst h0
      exact hdone v s h hreg hoff
    have hpos : 0 < src.length := List.length_pos_iff.mpr h0
    have hm : 0 < min src.length writeMax := by
      unfold writeMax
      omega
    have hstep := @stored_step (v.ftable f).off src.length
    have hzero := @stored_eq_zero (v.ftable f).off src.length
    have hle : min src.length writeMax ≤ src.length := min_le_left _ _
    generalize min src.length writeMax = m at hm hstep hzero hle
    have htake : (src.take m).length = m := by
      rw [List.length_take]
      omega
    by_cases hfit : (v.ftable f).off + m ≤ MAXFILE * BSIZE
    · -- this piece is written, the others follow it
      have hst := hstep hfit
      have hmono : blocksFor (blocksIn (max (v.inodeAt ip).contents.length ((v.ftable f).off + m))) ≤
          blocksFor (blocksIn (max (v.inodeAt ip).contents.length
            ((v.ftable f).off + stored (v.ftable f).off src.length))) :=
        blocksFor_mono (blocksIn_mono (max_le_max_left _ (by omega)))
      have hchunk := filewriteChunk_all (f := f) (src.take m) h hreg (by omega) hoff (by omega)
      rw [htake] at hchunk
      refine Wp.bind (hchunk.mono (fun _ _ h => h) fun _ hfull => by omega) ?_
      rintro r s₁ ⟨rfl, h₁, hpaid⟩
      simp only [ne_eq, not_true, if_false]
      have hoff₁ : ((v.wrote f ip (src.take m)).ftable f).off = (v.ftable f).off + m := by
        simp [View.wrote, View.setFile, htake]
      have hat₁ : (v.wrote f ip (src.take m)).inodeAt ip = { v.inodeAt ip with
          contents := splice (v.inodeAt ip).contents (v.ftable f).off (src.take m) } := by
        simp [View.wrote, View.setFile, View.setNode, View.inodeAt]
      have hlen₁ : ((v.wrote f ip (src.take m)).inodeAt ip).contents.length =
          max (v.inodeAt ip).contents.length ((v.ftable f).off + m) := by
        rw [hat₁, length_splice hoff, htake]
      have hdrop : (src.drop m).length = src.length - m := List.length_drop
      have hrest := ih (v.wrote f ip (src.take m)) s₁ (src.drop m) (by omega) h₁
        ⟨⟨hreg.loaded.ref, hreg.loaded.valid⟩, hreg.unlocked, by rw [hat₁]; exact hreg.file⟩ (by omega)
      rw [hlen₁, hoff₁, hdrop] at hrest
      refine hrest.mono ?_ fun _ hfull => ?_
      · rintro ok s' ⟨hok, h'⟩
        refine ⟨hok.trans (by omega), ?_⟩
        rw [hst, List.take_add, ← wrote_wrote (m := m) (by simp; omega) hoff]
        rw [List.take_left' htake, List.drop_left' htake]
        exact h'
      · rw [max_assoc, max_eq_right (by omega : (v.ftable f).off + m ≤ _), Nat.add_assoc, ← hst] at hfull
        omega
    · -- this piece is refused
      have hw : (v.inodeAt ip).write (v.ftable f).off (src.take m) = (none, v.inodeAt ip) := by
        unfold Node.write
        rw [hreg.file, if_neg (fun h => by cases h), htake]
        split_ifs
        · rfl
        · rfl
        · omega
      refine Wp.bind ((filewriteChunk_refused _ h hreg hw).mono (fun _ _ h => h) fun _ he => he.elim) ?_
      rintro r s₁ ⟨rfl, h₁⟩
      refine ⟨iff_of_false (by simp) (by omega), ?_⟩
      rw [hzero (by omega)]
      exact hnil v s₁ h₁

theorem fileread_spec (h : At v s) (htype : (v.ftable f).type = .inode) (hread : (v.ftable f).readable = true)
    (hreg : Regular v (v.ftable f).ip) (n : Nat) (dev : Option (List UInt8)) :
    Wp (fileread f n dev) s (fun r s' => r = readiResult (v.inodeAt (v.ftable f).ip) (v.ftable f).off n dev ∧
      At (v.setFile f (advance
        ((readiResult (v.inodeAt (v.ftable f).ip) (v.ftable f).off n dev).getD []).length)) s') fun _ => False := by
  have hfile : s.ftable f = v.ftable f := by
    rw [← h.view]
    rfl
  unfold fileread
  simp only [wp_bind, wp_look, hfile, htype]
  rw [if_neg (by simp [hread])]
  generalize hip : (v.ftable f).ip = ip at *
  refine Wp.bind ((ilock_spec h hreg.loaded.ref).mono (fun _ _ h => h) fun _ he => (hreg.no_fault he).elim) ?_
  rintro _ s₁ ⟨-, -, h₁⟩
  have hslot : (v.ilock ip).slot ip = ⟨(v.slot ip).inum, (v.slot ip).ref, true, true⟩ := by
    simp [View.ilock, View.setSlot]
  have hat : (v.ilock ip).inodeAt ip = v.inodeAt ip := by
    unfold View.inodeAt
    rw [hslot]
    rfl
  have hloaded : (v.ilock ip).Loaded ip := ⟨by rw [hslot]; exact hreg.loaded.ref, by rw [hslot]⟩
  have hreadi := readi_view h₁ hloaded (v.ftable f).off n dev (E := fun _ => False)
  rw [hat] at hreadi
  refine Wp.bind hreadi ?_
  rintro r s₂ ⟨rfl, rfl⟩
  refine Wp.bind (setFile_spec h₁ f _) ?_
  intro _ s₃ h₃
  refine Wp.bind (iunlock_spec (k := ip) h₃ ?_ ?_) ?_
  · show 0 < ((v.ilock ip).slot ip).ref
    rw [hslot]
    exact hreg.loaded.ref
  · show ((v.ilock ip).slot ip).lock = true
    rw [hslot]
  intro _ s₄ h₄
  have hback : ∀ g, ((v.ilock ip).setFile f g).unlock ip = ((v.ilock ip).unlock ip).setFile f g := fun _ => rfl
  rw [hback, ilock_unlock hreg.loaded hreg.unlocked] at h₄
  exact ⟨rfl, h₄⟩

/-- Descriptor `fd` of process `p` is the open file `f` on the regular file `i`, for reading and writing. -/
structure OpenRW (v : View) (p : PIdx) (fd : Fin NOFILE) (f : FRef) (i : Nat) : Prop where
  fd : (v.proc p).ofile fd = some f
  type : (v.ftable f).type = .inode
  readable : (v.ftable f).readable = true
  writable : (v.ftable f).writable = true
  regular : Regular v (v.ftable f).ip
  inum : (v.slot (v.ftable f).ip).inum = i

theorem argfd_spec (h : At v s) (hf : (v.proc p).ofile fd = some f) {E : Stop → Prop} :
    Wp (argfd p fd) s (fun r s' => s' = s ∧ r = some (fd, f)) E := by
  have hproc : s.proc p = v.proc p := by
    rw [← h.view]
    rfl
  unfold argfd
  simp only [wp_bind, wp_look, hproc]
  have hfd : 0 ≤ (fd.val : Int) ∧ (fd.val : Int) < NOFILE := by
    have := fd.isLt
    omega
  rw [dif_pos hfd]
  refine ⟨rfl, ?_⟩
  simp [hf]

def View.seek (v : View) (f : FRef) (k : Nat) : View := v.setFile f fun x => { x with off := k }

theorem sysLseek_spec (h : At v s) (ho : OpenRW v p fd f i) (k : Nat) :
    Wp (sysLseek p fd k 0) s (fun r s' => r = k ∧ At (v.seek f k) s' ∧ s'.free = s.free) fun _ => False := by
  have hfile : s.ftable f = v.ftable f := by
    rw [← h.view]
    rfl
  unfold sysLseek
  refine Wp.bind (argfd_spec h ho.fd) ?_
  rintro _ s₀ ⟨hs₀, rfl⟩
  rw [hs₀]
  simp only [wp_bind, wp_look, hfile]
  rw [if_neg (by simp [ho.type])]
  refine Wp.bind (((acquire_spec h (v.ftable f).ip).mono (fun _ _ h => h) ?_).keep (acquire_free s _)) ?_
  · rintro e ⟨-, hl⟩
    exact absurd (ho.regular.unlocked.symm.trans hl) (by simp)
  rintro _ s₁ ⟨⟨-, h₁⟩, hfree₁⟩
  simp only [Fs.inode, wp_bind, wp_look]
  refine ((release_spec h₁ _).keep (R := fun _ s' => s'.free = s₁.free) (wp_update.mpr rfl)).imp ?_
  rintro _ s₂ ⟨h₂, hfree₂⟩
  have hnew : ∀ n, newOffset (v.ftable f).off n k 0 = some (k : Int) := fun n => if_pos rfl
  simp only [hnew]
  rw [if_neg (by omega)]
  have hback : (v.lock (v.ftable f).ip).unlock (v.ftable f).ip = v := by
    have hslot : (⟨(v.slot (v.ftable f).ip).inum, (v.slot (v.ftable f).ip).ref, false,
        (v.slot (v.ftable f).ip).valid⟩ : Slot) = v.slot (v.ftable f).ip := by rw [← ho.regular.unlocked]
    simp only [View.lock, View.unlock, View.setSlot, Function.update_self, Function.update_idem, hslot,
      Function.update_eq_self]
  rw [hback] at h₂
  refine Wp.bind ((setFile_spec h₂ f _).keep (R := fun _ s' => s'.free = s₂.free) (wp_update.mpr rfl)) ?_
  rintro _ s₃ ⟨h₃, hfree₃⟩
  exact ⟨rfl, h₃, hfree₃.trans (hfree₂.trans hfree₁)⟩

theorem OpenRW.seek (ho : OpenRW v p fd f i) (k : Nat) : OpenRW (v.seek f k) p fd f i := by
  have hfile : (v.seek f k).ftable f = { v.ftable f with off := k } := by simp [View.seek, View.setFile]
  obtain ⟨h₁, h₂, h₃, h₄, h₅, h₆⟩ := ho
  refine ⟨h₁, ?_, ?_, ?_, ?_, ?_⟩
  · rw [hfile]
    exact h₂
  · rw [hfile]
    exact h₃
  · rw [hfile]
    exact h₄
  · rw [hfile]
    exact ⟨⟨h₅.loaded.ref, h₅.loaded.valid⟩, h₅.unlocked, h₅.file⟩
  · rw [hfile]
    exact h₆

theorem sysRead_spec (h : At v s) (ho : OpenRW v p fd f i) (n : Nat) (dev : Option (List UInt8)) :
    Wp (sysRead p fd n dev) s (fun r s' => r = readiResult (v.node i) (v.ftable f).off n dev ∧
      ∃ o, At (v.seek f o) s') fun _ => False := by
  have hat : v.inodeAt (v.ftable f).ip = v.node i := by
    unfold View.inodeAt
    rw [ho.inum]
  unfold sysRead
  refine Wp.bind (argfd_spec h ho.fd) ?_
  rintro _ _ ⟨rfl, rfl⟩
  refine (fileread_spec h ho.type ho.readable ho.regular n dev).imp ?_
  rintro r s' ⟨rfl, h'⟩
  rw [hat] at h' ⊢
  refine ⟨rfl, ?_⟩
  unfold advance at h'
  by_cases hr : ((readiResult (v.node i) (v.ftable f).off n dev).getD []).length > 0
  · simp only [if_pos hr] at h'
    exact ⟨_, h'⟩
  · simp only [if_neg hr] at h'
    exact ⟨(v.ftable f).off, h'⟩

theorem sysWrite_spec (h : At v s) (ho : OpenRW v p fd f i) (d : List UInt8) (dev : Int)
    (hoff : (v.ftable f).off ≤ (v.node i).contents.length) (hmax : (v.ftable f).off + d.length ≤ MAXFILE * BSIZE)
    (hfree : blocksFor (blocksIn (max (v.node i).contents.length ((v.ftable f).off + d.length))) ≤
      s.free + blocksFor (blocksIn (v.node i).contents.length)) :
    Wp (sysWrite p fd d dev) s (fun r s' => r = d.length ∧ At (v.wrote f (v.ftable f).ip d) s') fun _ => False := by
  have hat : v.inodeAt (v.ftable f).ip = v.node i := by
    unfold View.inodeAt
    rw [ho.inum]
  have hfile : s.ftable f = v.ftable f := by
    rw [← h.view]
    rfl
  unfold sysWrite filewrite
  refine Wp.bind (argfd_spec h ho.fd) ?_
  rintro _ _ ⟨rfl, rfl⟩
  simp only [wp_bind, wp_look, hfile, ho.type]
  rw [if_neg (by simp [ho.writable])]
  rw [← hat] at hoff hfree
  have hall : stored (v.ftable f).off d.length = d.length := if_pos hmax
  have hloop := filewriteLoop_spec (f := f) d.length v _ d le_rfl h ho.regular hoff
  rw [hall, List.take_length] at hloop
  refine Wp.bind (hloop.mono (fun _ _ h => h) fun _ hfull => by omega) ?_
  rintro ok s' ⟨hok, h'⟩
  rw [hok.mpr hmax]
  exact ⟨rfl, h'⟩

theorem ilock_loaded {k : IRef} (hk : Fs.Loaded s k) (hl : (s.icache k).lock = false) :
    Wp (ilock k) s (fun _ s' => s' = { s with
      icache := Function.update s.icache k { s.icache k with lock := true } }) fun _ => False := by
  have hr := hk.ref
  unfold ilock acquire
  simp only [Fs.inode, setInode, wp_bind, wp_look]
  refine Wp.ite (fun h => by omega) fun _ => ?_
  simp only [wp_bind, wp_look, hl, Bool.false_eq_true, if_false, wp_update]
  rw [if_pos hk.valid]
  rfl

theorem filewriteChunk_beyond {src : List UInt8} (hk : Fs.Loaded s ip) (hl : (s.icache ip).lock = false)
    (htype : (s.icache ip).copy.type = .file) (hoff : (s.icache ip).copy.size < (s.ftable f).off) :
    Wp (filewriteChunk f ip src) s (fun r s' => r = none ∧ s' = s) fun _ => False := by
  unfold filewriteChunk
  simp only [beginOp, wp_bind, wp_update]
  refine (ilock_loaded (s := { s with outstanding := s.outstanding + 1 }) ⟨hk.ref, hk.valid⟩ hl).imp ?_
  rintro _ s₁ rfl
  simp only [wp_look]
  have hwritei : Wp (writei ip src (s.ftable f).off) { s with
      outstanding := s.outstanding + 1
      icache := Function.update s.icache ip { s.icache ip with lock := true } }
      (fun r s' => r = none ∧ s' = { s with
        outstanding := s.outstanding + 1
        icache := Function.update s.icache ip { s.icache ip with lock := true } }) fun _ => False := by
    unfold writei
    simp only [Fs.inode, wp_bind, wp_look, Function.update_self, htype]
    rw [if_neg (fun h => by cases h), if_pos (.inl hoff)]
    exact ⟨rfl, rfl⟩
  refine hwritei.imp ?_
  rintro r s₂ ⟨rfl, rfl⟩
  have hr := hk.ref
  unfold iunlock release
  simp only [setFile, Fs.inode, setInode, endOp, wp_bind, wp_update, wp_look, Function.update_self]
  rw [if_neg (by simp; omega)]
  refine ⟨rfl, ?_⟩
  have hslot : (⟨(s.icache ip).inum, (s.icache ip).ref, false, (s.icache ip).valid, (s.icache ip).copy⟩ : Inode) =
      s.icache ip := by rw [← hl]
  have hadv : advance ((none : Option Nat).getD 0) (s.ftable f) = s.ftable f := rfl
  simp only [Function.update_idem, Function.update_self, hadv, Function.update_eq_self, hslot, add_sub_cancel_right]

theorem sysWrite_beyond (h : At v s) (ho : OpenRW v p fd f i) {d : List UInt8} (dev : Int)
    (hoff : (v.node i).contents.length < (v.ftable f).off) (hd : d ≠ []) :
    Wp (sysWrite p fd d dev) s (fun r s' => r = -1 ∧ s' = s) fun _ => False := by
  have hat : v.inodeAt (v.ftable f).ip = v.node i := by
    unfold View.inodeAt
    rw [ho.inum]
  have hfile : s.ftable f = v.ftable f := by
    rw [← h.view]
    rfl
  have hpos : 0 < d.length := List.length_pos_iff.mpr hd
  unfold sysWrite filewrite
  refine Wp.bind (argfd_spec h ho.fd) ?_
  rintro _ s₁ ⟨hs₁, rfl⟩
  rw [hs₁]
  simp only [wp_bind, wp_look, hfile, ho.type]
  rw [if_neg (by simp [ho.writable])]
  have hloaded := ho.regular.loaded
  obtain ⟨n, hn⟩ : ∃ n, d.length = n + 1 := ⟨d.length - 1, by omega⟩
  rw [hn]
  unfold filewriteLoop
  rw [if_neg hd]
  refine Wp.bind (Q := fun ok s' => ok = false ∧ s' = s) ?_ ?_
  · refine Wp.bind (filewriteChunk_beyond (h.loaded hloaded) ?_ ?_ ?_) ?_
    · rw [h.lock]
      exact ho.regular.unlocked
    · rw [h.type hloaded]
      exact ho.regular.file
    · rw [h.size hloaded, hat, hfile]
      exact hoff
    · rintro r s' ⟨rfl, hs'⟩
      exact ⟨rfl, hs'⟩
  · rintro _ s' ⟨rfl, hs'⟩
    exact ⟨rfl, hs'⟩

end files

theorem readiResult_file {d : Node} {o n : Nat} (htype : d.type = .file) (ho : o ≤ d.contents.length)
    (hlen : d.contents.length ≤ MAXFILE * BSIZE) (hn : n < 2 ^ 31) (dev : Option (List UInt8)) :
    readiResult d o n dev = some ((d.contents.drop o).take n) := by
  have hwrap : (o + n) % UINT = o + n := by
    refine Nat.mod_eq_of_lt ?_
    simp only [MAXFILE, NDIRECT, NINDIRECT, BSIZE, UINT] at *
    omega
  unfold readiResult
  rw [htype, if_neg nofun, if_neg (by rw [hwrap]; omega)]

section

variable {v : View} {s : FS} {f : FRef} {p : PIdx} {fd : Fin NOFILE} {i : Nat}

@[simp] theorem seek_off (v : View) (f : FRef) (k : Nat) : ((v.seek f k).ftable f).off = k := by
  simp [View.seek, View.setFile]

theorem OpenRW.file (ho : OpenRW v p fd f i) : (v.node i).type = .file := by
  have := ho.regular.file
  unfold View.inodeAt at this
  rwa [ho.inum] at this

theorem seek_read (h : At v s) (ho : OpenRW v p fd f i) {o n : Nat} (hle : o ≤ (v.node i).contents.length)
    (hn : n < 2 ^ 31) : ∃ s₁ s₂, sysLseek p fd o 0 s = .ok ((o : Int), s₁) ∧
      sysRead p fd n none s₁ = .ok (some (((v.node i).contents.drop o).take n), s₂) := by
  obtain ⟨_, s₁, hseek, rfl, h₁, -⟩ := (sysLseek_spec h ho o).returns
  obtain ⟨_, s₂, hread, rfl, -⟩ := (sysRead_spec h₁ (ho.seek o) n none).returns
  refine ⟨s₁, s₂, hseek, ?_⟩
  have hlen := h.length_le i
  rw [hread, seek_off, show (v.seek f o).node i = v.node i from rfl, readiResult_file ho.file hle hlen hn]

theorem seek_write (h : At v s) (ho : OpenRW v p fd f i) {k : Nat} {d : List UInt8} (dev : Int)
    (hle : k ≤ (v.node i).contents.length) (hmax : k + d.length ≤ MAXFILE * BSIZE)
    (hfree : blocksFor (blocksIn (max (v.node i).contents.length (k + d.length))) ≤
      s.free + blocksFor (blocksIn (v.node i).contents.length)) :
    ∃ s₁ s₂, sysLseek p fd k 0 s = .ok ((k : Int), s₁) ∧ sysWrite p fd d dev s₁ = .ok ((d.length : Int), s₂) ∧
      At ((v.setNode i { v.node i with contents := splice (v.node i).contents k d }).seek f (k + d.length)) s₂ := by
  obtain ⟨_, s₁, hseek, rfl, h₁, hfree₁⟩ := (sysLseek_spec h ho k).returns
  obtain ⟨_, s₂, hwrite, rfl, h₂⟩ := (sysWrite_spec h₁ (ho.seek k) d dev (by rw [seek_off]; exact hle)
    (by rw [seek_off]; exact hmax) (by rw [seek_off, hfree₁]; exact hfree)).returns
  refine ⟨s₁, s₂, hseek, hwrite, ?_⟩
  have hip : ((v.seek f k).ftable f).ip = (v.ftable f).ip := by simp [View.seek, View.setFile]
  rw [hip] at h₂
  have hview : (v.seek f k).wrote f (v.ftable f).ip d =
      (v.setNode i { v.node i with contents := splice (v.node i).contents k d }).seek f (k + d.length) := by
    unfold View.wrote
    simp only [seek_off, View.inodeAt, show (v.seek f k).slot = v.slot from rfl, ho.inum]
    simp only [View.seek, View.setFile, View.setNode, Function.update_self, Function.update_idem]
  rw [← hview]
  exact h₂

theorem OpenRW.wrote (ho : OpenRW v p fd f i) (bs : List UInt8) (k : Nat) :
    OpenRW ((v.setNode i { v.node i with contents := bs }).seek f k) p fd f i := by
  have hset : OpenRW (v.setNode i { v.node i with contents := bs }) p fd f i := by
    refine ⟨ho.fd, ho.type, ho.readable, ho.writable, ⟨⟨ho.regular.loaded.ref, ho.regular.loaded.valid⟩,
      ho.regular.unlocked, ?_⟩, ho.inum⟩
    show (Function.update v.node i { v.node i with contents := bs } (v.slot (v.ftable f).ip).inum).type = .file
    rw [ho.inum, Function.update_self]
    exact ho.file
  exact hset.seek k

end

/-- Seek, write and read on an open regular file, for any file system whose blocks are in order. -/
theorem file_is_byte_array (s : FS) (p : PIdx) (fd : Fin NOFILE) (f : FRef) (i : Nat) (dev : Int) (h : Good s)
    (ho : OpenRW s.view p fd f i) :
    -- a write of `d` at `k`, and the bytes read back
    (∀ (k : Nat) (d : List UInt8), k ≤ (s.view.node i).contents.length → k + d.length ≤ MAXFILE * BSIZE →
      blocksFor (blocksIn (max (s.view.node i).contents.length (k + d.length))) ≤
        s.free + blocksFor (blocksIn (s.view.node i).contents.length) →
      ∃ s₁ s₂ s₃ s₄, sysLseek p fd k 0 s = .ok ((k : Int), s₁) ∧ sysWrite p fd d dev s₁ = .ok ((d.length : Int), s₂) ∧
        Good s₂ ∧ OpenRW s₂.view p fd f i ∧
        (s₂.view.node i).contents = (s.view.node i).contents.take k ++ d ++ (s.view.node i).contents.drop (k + d.length) ∧
        (s₂.inode i).size = max (s.view.node i).contents.length (k + d.length) ∧ (s₂.ftable f).off = k + d.length ∧
        (∀ j, j ≠ i → s₂.view.node j = s.view.node j) ∧
        sysLseek p fd k 0 s₂ = .ok ((k : Int), s₃) ∧ sysRead p fd d.length none s₃ = .ok (some d, s₄)) ∧
    -- a read of `n` bytes at `o`
    (∀ o n : Nat, o ≤ (s.view.node i).contents.length → n < 2 ^ 31 →
      ∃ s₁ s₂, sysLseek p fd o 0 s = .ok ((o : Int), s₁) ∧
        sysRead p fd n none s₁ = .ok (some (((s.view.node i).contents.drop o).take n), s₂)) ∧
    -- a write behind the end
    (∀ (k : Nat) (d : List UInt8), (s.view.node i).contents.length < k → d ≠ [] →
      ∃ s₁, sysLseek p fd k 0 s = .ok ((k : Int), s₁) ∧ sysWrite p fd d dev s₁ = .ok (-1, s₁)) := by
  have hat := At.of_good h
  refine ⟨fun k d hle hmax hfree => ?_, fun o n hle hn => seek_read hat ho hle hn, fun k d hgt hd => ?_⟩
  · obtain ⟨s₁, s₂, hseek, hwrite, h₂⟩ := seek_write hat ho dev hle hmax hfree
    have ho₂ := ho.wrote (splice (s.view.node i).contents k d) (k + d.length)
    have hnode : (s₂.view.node i).contents = splice (s.view.node i).contents k d := by
      rw [h₂.view]
      simp [View.seek, View.setFile, View.setNode]
    have hlen : (splice (s.view.node i).contents k d).length = _ := length_splice hle
    obtain ⟨s₃, s₄, hseek', hread⟩ := seek_read (o := k) (n := d.length) h₂ ho₂ (by
      rw [← h₂.view, hnode, hlen]
      omega) (by
      simp only [MAXFILE, NDIRECT, NINDIRECT, BSIZE] at *
      omega)
    rw [← h₂.view, hnode, splice_slice hle] at hread
    refine ⟨s₁, s₂, s₃, s₄, hseek, hwrite, h₂.good, ?_, hnode, ?_, ?_, fun j hj => ?_, hseek', hread⟩
    · rw [h₂.view]
      exact ho₂
    · have hlive : s₂.vol.Live i := by
        rw [h₂.live]
        show (View.node _ i).type ≠ .free
        rw [ho₂.file]
        exact fun h => by cases h
      rw [← hlen, ← hnode]
      show _ = (s₂.vol.node i).contents.length
      rw [node_of_live hlive, length_contents]
      rfl
    · have := congrArg (fun w => (w.ftable f).off) h₂.view
      exact this.trans (seek_off _ _ _)
    · rw [h₂.view]
      exact Function.update_of_ne hj _ _
  · obtain ⟨_, s₁, hseek, rfl, h₁, -⟩ := (sysLseek_spec hat ho k).returns
    obtain ⟨_, s₂, hwrite, rfl, rfl⟩ := (sysWrite_beyond h₁ (ho.seek k) dev
      (by rw [seek_off]; exact hgt) hd).returns
    exact ⟨_, hseek, hwrite⟩

/-- A file system with one file, which is empty and open. -/
def oneFile : FS where
  sb := ⟨16, 8, 8, 2, 3, by decide, by decide⟩
  inode := fun i => if i = 2 then ⟨.file, 0, 0, 1, 0, fun _ => 0⟩ else .zero
  bitmap := fun b => decide (b < 8)
  data := fun _ _ => 0
  icache := fun k => ⟨if k.val = 0 then 2 else 0, if k.val = 0 then 1 else 0, false, decide (k.val = 0),
    if k.val = 0 then ⟨.file, 0, 0, 1, 0, fun _ => 0⟩ else .zero⟩
  ftable := fun f => ⟨if f.val = 0 then .inode else .none, if f.val = 0 then 1 else 0, true, true, 0, 0⟩
  proc := fun p => ⟨fun fd => if p.val = 0 ∧ fd.val = 0 then some 0 else none, none⟩
  outstanding := 0
  logged := []

/-- The blocks of that file system are in order on any disk whose data region starts at block 8. -/
theorem oneFile_good_on (sb : Superblock) (hstart : sb.dataStart = 8) (hn : 2 < sb.ninodes) :
    Good { oneFile with sb := sb } := by
  generalize hs : ({ oneFile with sb := sb } : FS) = s
  have hino : s.inode = oneFile.inode := by rw [← hs]
  have hic : s.icache = oneFile.icache := by rw [← hs]
  have haddrs : ∀ i j, (oneFile.inode i).addrs j = 0 := by
    intro i j
    show (ite _ _ _ : Dinode).addrs j = 0
    split_ifs <;> rfl
  have hsize : ∀ i, (oneFile.inode i).size = 0 := by
    intro i
    show (ite _ _ _ : Dinode).size = 0
    split_ifs <;> rfl
  have haddr : ∀ p, s.vol.addr p = 0 := fun p => addr_eq_zero fun j _ => by
    show (s.inode _).addrs j = 0
    rw [hino, haddrs]
  have hslot : ∀ k, 0 < (s.icache k).ref → k = 0 := by
    intro k hk
    by_contra hne
    have : (oneFile.icache k).ref = 0 := if_neg fun h => hne (Fin.ext h)
    rw [hic] at hk
    omega
  refine ⟨⟨fun p _ hne => absurd (haddr p) hne, fun p q _ _ hne => absurd (haddr p) hne, fun b hb => ?_⟩,
    fun i _ => ?_, fun k k' hk hk' _ => ?_, fun k hk _ => ?_⟩
  · have hin : s.vol.sb.InData b ↔ 8 ≤ b := by
      rw [← hstart, show s.vol.sb = sb by rw [← hs]; rfl]
      refine ⟨fun h => h.1, fun h => ⟨h, ?_⟩⟩
      rwa [show s.vol.sb = sb by rw [← hs]; rfl] at hb
    have hbit : s.vol.bitmap b = decide (b < 8) := by
      rw [← hs]
      rfl
    rw [hbit, decide_eq_true_iff, hin]
    refine ⟨fun h => .inl (by omega), ?_⟩
    rintro (h | ⟨p, -, h⟩)
    · omega
    · rw [haddr] at h
      omega
  · have hcnt : s.cnt i = 0 := by
      unfold FS.cnt
      rw [hino, hsize]
      rfl
    rw [hcnt]
    exact ⟨fun bn => by simp [haddr], by simp [haddr]⟩
  · rw [hslot k hk, hslot k' hk']
  · rw [hslot k hk, hic, hino]
    refine ⟨⟨?_, ?_⟩, rfl⟩
    · rw [← hs]
      exact hn
    · show (s.inode _).type ≠ .free
      rw [hino]
      decide

theorem oneFile_good : Good oneFile := oneFile_good_on oneFile.sb rfl (by decide)

theorem oneFile_open : OpenRW oneFile.view 0 0 0 2 := ⟨rfl, rfl, rfl, rfl, ⟨⟨by decide, rfl⟩, rfl, rfl⟩, rfl⟩

/-- The file with three bytes in it, open at the second one. -/
theorem written_file : ∃ s, Good s ∧ OpenRW s.view 0 0 0 2 ∧ (s.view.node 2).contents = [1, 2, 3] ∧
    (s.ftable 0).off = 1 := by
  obtain ⟨_, s₂, -, -, h₂⟩ := seek_write (At.of_good oneFile_good) oneFile_open (k := 0) (d := [1, 2, 3]) 0
    (by decide) (by decide) (by decide)
  have ho₂ := oneFile_open.wrote (splice (oneFile.view.node 2).contents 0 [1, 2, 3]) (0 + 3)
  obtain ⟨_, s₃, -, -, h₃, -⟩ := (sysLseek_spec h₂ ho₂ 1).returns
  refine ⟨s₃, h₃.good, ?_, ?_, ?_⟩
  · rw [h₃.view]
    exact ho₂.seek 1
  · rw [h₃.view]
    decide
  · have hoff := congrArg (fun w => (w.ftable 0).off) h₃.view
    exact hoff.trans (seek_off _ _ _)

/-- Two of the three bytes are overwritten and one is added, and the file is read. -/
theorem file_is_byte_array_overwrite : ∃ s s₁ s₂, Good s ∧ (s.view.node 2).contents = [1, 2, 3] ∧
    sysLseek 0 0 1 0 s = .ok (1, s₁) ∧ sysWrite 0 0 [7, 8, 9] 0 s₁ = .ok (3, s₂) ∧
    (s₂.view.node 2).contents = [1, 7, 8, 9] ∧
    (∃ s₃ s₄, sysLseek 0 0 1 0 s₂ = .ok (1, s₃) ∧ sysRead 0 0 3 none s₃ = .ok (some [7, 8, 9], s₄)) ∧
    ∃ s₅, sysLseek 0 0 4 0 s = .ok (4, s₅) ∧ sysWrite 0 0 [7] 0 s₅ = .ok (-1, s₅) := by
  obtain ⟨s, hgood, ho, hbytes, -⟩ := written_file
  obtain ⟨hwrite, -, hbehind⟩ := file_is_byte_array s 0 0 0 2 0 hgood ho
  rw [hbytes] at hwrite hbehind
  obtain ⟨s₁, s₂, s₃, s₄, hseek, hwritten, -, -, hnew, -, -, -, hback, hread⟩ :=
    hwrite 1 [7, 8, 9] (by decide) (by decide) (Nat.le_add_left _ _)
  obtain ⟨s₅, hseek₅, hfail⟩ := hbehind 4 [7] (by decide) (by decide)
  exact ⟨s, s₁, s₂, hgood, hbytes, hseek, hwritten, hnew, ⟨s₃, s₄, hback, hread⟩, s₅, hseek₅, hfail⟩

end Xv6Mlfq.Fs
