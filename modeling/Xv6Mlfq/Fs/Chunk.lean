import Xv6Mlfq.Log.Model
import Xv6Mlfq.Fs.Owned
import Xv6Mlfq.Fs.Syscall

/-!
# The blocks that a write logs

`filewrite` hands `writei` at most `writeMax` bytes, so that one transaction of `MAXOPBLOCKS` blocks is enough. Per block of
the file a write logs the block and, if it is new, its bitmap block; besides these the indirect block, with its bitmap block
if it is new, and the block of the inode (`writei_fits`). A write that begins inside a block reaches one block more, but
begins in a block that is mapped, which costs no bitmap block.
-/

namespace Xv6Mlfq.Fs

open Lib

def FS.ind (s : FS) (k : IRef) : Nat := (s.icache k).copy.addrs NDIRECT

/-- A part of a write: the boot block stays in use, an indirect block stays, and the blocks `l` are logged. -/
structure Wrote (k : IRef) (s s' : FS) (l : List Nat) : Prop where
  sb : s'.sb = s.sb
  boot : s'.bitmap 0 = true
  ind : s.ind k ≠ 0 → s'.ind k = s.ind k
  logged : s'.logged = l ++ s.logged

/-- The number of blocks that `n` bytes from `off` on reach. -/
def span (off n : Nat) : Nat := if n = 0 then 0 else (off % BSIZE + n + (BSIZE - 1)) / BSIZE

theorem span_step (off : Nat) {n : Nat} (hn : n ≠ 0) :
    span (off + min n (BSIZE - off % BSIZE)) (n - min n (BSIZE - off % BSIZE)) + 1 ≤ span off n := by
  unfold span
  rw [if_neg hn]
  simp only [BSIZE]
  split_ifs <;> omega

theorem span_le {off n : Nat} (h : n = 0 ∨ off % BSIZE = 0) (hn : n ≤ writeMax) : span off n ≤ 3 := by
  have hmax : n ≤ 1536 := hn
  unfold span
  simp only [BSIZE] at *
  split_ifs <;> omega

section

variable {k : IRef} {s s' s'' : FS} {l l' : List Nat} {off bn i : Nat} {src : List UInt8}

theorem Wrote.refl (h : s.bitmap 0 = true) : Wrote k s s [] := ⟨rfl, h, fun _ => rfl, rfl⟩

theorem Wrote.trans (h : Wrote k s s' l) (h' : Wrote k s' s'' l') : Wrote k s s'' (l' ++ l) := by
  refine ⟨h'.sb.trans h.sb, h'.boot, fun hne => ?_, ?_⟩
  · have hi := h.ind hne
    rw [h'.ind (hi ▸ hne), hi]
  · rw [h'.logged, h.logged, List.append_assoc]

theorem balloc_logs (h0 : s.bitmap 0 = true) :
    Wp balloc s (fun b s' => b ≠ 0 ∧ s'.sb = s.sb ∧ s'.icache = s.icache ∧ s'.bitmap 0 = true ∧
      s'.logged = [b, s.sb.bblock b] ++ s.logged) fun _ => True := by
  unfold balloc
  simp only [wp_bind, wp_look, id]
  cases hfind : (List.range s.sb.size).find? fun b => !s.bitmap b with
  | none => trivial
  | some b =>
    have hfree : s.bitmap b = false := by simpa using List.find?_some hfind
    have hb : b ≠ 0 := by
      rintro rfl
      rw [h0] at hfree
      cases hfree
    refine ⟨hb, rfl, rfl, ?_, rfl⟩
    exact (Function.update_of_ne hb.symm _ _).trans h0

theorem bmapAddr_logs (h0 : s.bitmap 0 = true) :
    Wp (bmapAddr k i) s (fun b s' => b ≠ 0 ∧ (s' = s ∧ (s.icache k).copy.addrs i = b ∨
      (s.icache k).copy.addrs i = 0 ∧ (s'.icache k).copy.addrs = Function.update (s.icache k).copy.addrs i b ∧ s'.sb = s.sb ∧
        s'.bitmap 0 = true ∧ s'.logged = [b, s.sb.bblock b] ++ s.logged)) fun _ => True := by
  unfold bmapAddr inode
  simp only [wp_bind, wp_look]
  refine Wp.ite (fun hzero => ?_) fun hne => ⟨hne, .inl ⟨rfl, rfl⟩⟩
  refine Wp.bind (balloc_logs h0) fun b s₁ hpost => ?_
  obtain ⟨hb, hsb, hic, hboot, hlog⟩ := hpost
  refine ⟨hb, .inr ⟨hzero, ?_, hsb, hboot, hlog⟩⟩
  simp only [Function.update_self, hic]

/-- `bmap` logs the block with its bitmap block, the indirect block and, if that one is new, its bitmap block. -/
theorem bmap_logs (h0 : s.bitmap 0 = true) :
    Wp (bmap k bn) s (fun b s' => ∃ l, Wrote k s s' l ∧ ∀ x ∈ l, x = b ∨ x = s.sb.bblock b ∨
      s'.ind k ≠ 0 ∧ (x = s'.ind k ∨ s.ind k = 0 ∧ x = s.sb.bblock (s'.ind k))) fun _ => True := by
  unfold bmap
  refine Wp.ite (fun hd => ?_) fun _ => Wp.ite (fun _ => ?_) fun _ => trivial
  · refine (bmapAddr_logs h0).imp fun b s₁ hpost => ?_
    obtain ⟨_, hor⟩ := hpost
    rcases hor with ⟨rfl, -⟩ | ⟨-, haddrs, hsb, hboot, hlog⟩
    · exact ⟨[], .refl h0, fun x hx => absurd hx List.not_mem_nil⟩
    · refine ⟨_, ⟨hsb, hboot, fun _ => ?_, hlog⟩, fun x hx => ?_⟩
      · unfold FS.ind
        rw [haddrs, Function.update_of_ne (by omega)]
      · simp only [List.mem_cons, List.not_mem_nil, or_false] at hx
        exact hx.imp_right .inl
  · refine Wp.bind (bmapAddr_logs h0) fun a s₁ hpost => ?_
    obtain ⟨ha, hor⟩ := hpost
    -- the indirect block is there now
    obtain ⟨l, hw, hind, hl⟩ : ∃ l, Wrote k s s₁ l ∧ s₁.ind k = a ∧ ∀ x ∈ l, x = a ∨ s.ind k = 0 ∧ x = s.sb.bblock a := by
      rcases hor with ⟨rfl, hold⟩ | ⟨hzero, haddrs, hsb, hboot, hlog⟩
      · exact ⟨[], .refl h0, hold, fun x hx => absurd hx List.not_mem_nil⟩
      · refine ⟨_, ⟨hsb, hboot, fun hne => absurd hzero hne, hlog⟩, ?_, fun x hx => ?_⟩
        · unfold FS.ind
          rw [haddrs, Function.update_self]
        · simp only [List.mem_cons, List.not_mem_nil, or_false] at hx
          exact hx.imp_right fun hx => ⟨hzero, hx⟩
    simp only [wp_bind, wp_look]
    refine Wp.ite (fun _ => ?_) fun _ => ?_
    · refine Wp.bind (balloc_logs hw.boot) fun b s₂ hpost => ?_
      obtain ⟨_, hsb, hic, hboot, hlog⟩ := hpost
      unfold setData logWrite
      simp only [wp_bind, wp_update, wp_pure]
      have hind₂ : s₂.ind k = a := by
        unfold FS.ind
        rw [hic]
        exact hind
      refine ⟨a :: ([b, s₁.sb.bblock b] ++ l), ⟨hsb.trans hw.sb, hboot, fun hne => ?_, ?_⟩, fun x hx => ?_⟩
      · exact hind₂.trans (hind.symm.trans (hw.ind hne))
      · show a :: s₂.logged = _
        rw [hlog, hw.logged]
        rfl
      · have hind₃ : FS.ind { s₂ with
            data := Function.update s₂.data a (setWord (bn - NDIRECT) b (s₂.data a)), logged := a :: s₂.logged }
              k = a := hind₂
        rw [hind₃]
        rcases List.mem_cons.mp hx with rfl | hx
        · exact .inr (.inr ⟨ha, .inl rfl⟩)
        · rcases List.mem_append.mp hx with hx | hx
          · simp only [List.mem_cons, List.not_mem_nil, or_false, hw.sb] at hx
            exact hx.imp_right .inl
          · exact .inr (.inr ⟨ha, hl x hx⟩)
    · refine ⟨l, hw, fun x hx => .inr (.inr ?_)⟩
      rw [hind]
      exact ⟨ha, hl x hx⟩

theorem bmap_mapped (h : addrOf s.data (s.icache k).copy bn ≠ 0) : Wp (bmap k bn) s (fun _ s' => s' = s) fun _ => True := by
  unfold addrOf at h
  unfold bmap bmapAddr inode
  refine Wp.ite (fun hd => ?_) fun hd => Wp.ite (fun hlt => ?_) fun _ => trivial
  · rw [if_pos hd] at h
    simp only [wp_bind, wp_look]
    rw [if_neg h]
    exact rfl
  · rw [if_neg hd] at h
    split_ifs at h with hind
    · simp only [wp_bind, wp_look]
      rw [if_neg hind.2]
      simp only [wp_pure]
      rw [if_neg h]
      exact rfl
    · exact absurd rfl h

theorem writeiLoop_logs (fuel : Nat) (h0 : s.bitmap 0 = true) :
    Wp (writeiLoop k fuel off src) s (fun _ s' => ∃ l, Wrote k s s' l ∧ ∃ T : Finset Nat,
      T.card ≤ 2 * span off src.length + (if s.ind k = 0 then 1 else 0) ∧ ∀ x ∈ l, x ∈ T ∨ s'.ind k ≠ 0 ∧ x = s'.ind k)
        fun _ => True := by
  induction fuel generalizing off src s with
  | zero => exact ⟨[], .refl h0, ∅, Nat.zero_le _, fun x hx => absurd hx List.not_mem_nil⟩
  | succ fuel ih =>
    unfold writeiLoop
    refine Wp.ite (fun _ => ⟨[], .refl h0, ∅, Nat.zero_le _, fun x hx => absurd hx List.not_mem_nil⟩) fun hne => ?_
    have hpos : 0 < src.length := List.length_pos_of_ne_nil hne
    refine Wp.bind (bmap_logs h0) fun b s₁ hpost => ?_
    obtain ⟨l₁, hw₁, hl₁⟩ := hpost
    unfold setData logWrite
    simp only [wp_bind, wp_update]
    have hw₂ : Wrote k s₁ { s₁ with data := Function.update s₁.data b (memmove (off % BSIZE)
        (src.take (min src.length (BSIZE - off % BSIZE))) (s₁.data b)), logged := b :: s₁.logged } [b] :=
      ⟨rfl, hw₁.boot, fun _ => rfl, rfl⟩
    refine (ih hw₂.boot).imp fun _ s₃ hpost => ?_
    obtain ⟨l₃, hw₃, T, hT, hl₃⟩ := hpost
    have hkeep : s₁.ind k ≠ 0 → s₃.ind k = s₁.ind k := fun hi => hw₃.ind hi
    have hspan : span (off + min src.length (BSIZE - off % BSIZE))
      (src.drop (min src.length (BSIZE - off % BSIZE))).length + 1 ≤
        span off src.length := by
      rw [List.length_drop]
      exact span_step off (Nat.ne_of_gt hpos)
    have hcard : T.card ≤ 2 * span (off + min src.length (BSIZE - off % BSIZE))
      (src.drop (min src.length (BSIZE - off % BSIZE))).length +
        if s₁.ind k = 0 then 1 else 0 := hT
    generalize span (off + min src.length (BSIZE - off % BSIZE)) (src.drop (min src.length (BSIZE - off % BSIZE))).length = q
      at hcard hspan
    refine ⟨l₃ ++ ([b] ++ l₁), (hw₁.trans hw₂).trans hw₃,
      insert b (insert (s.sb.bblock b) (if s.ind k = 0 ∧ s₁.ind k ≠ 0 then insert (s.sb.bblock (s₁.ind k)) T else T)),
        ?_, fun x hx => ?_⟩
    · refine (Finset.card_insert_le _ _).trans (Nat.succ_le_of_lt (Nat.lt_of_le_of_lt (Finset.card_insert_le _ _) ?_))
      split_ifs with hnew hs hs
      · have := Finset.card_insert_le (s.sb.bblock (s₁.ind k)) T
        rw [if_neg hnew.2] at hcard
        omega
      · exact absurd hnew.1 hs
      · split_ifs at hcard <;> omega
      · rw [if_neg (by rwa [hw₁.ind hs])] at hcard
        omega
    · have hsub : ∀ y, y ∈ T → y ∈ (if s.ind k = 0 ∧ s₁.ind k ≠ 0 then insert (s.sb.bblock (s₁.ind k)) T else T) := by
        intro y hy
        split_ifs
        · exact Finset.mem_insert_of_mem hy
        · exact hy
      simp only [Finset.mem_insert]
      rcases List.mem_append.mp hx with hx | hx
      · exact (hl₃ x hx).imp_left fun h => .inr (.inr (hsub x h))
      · rcases List.mem_append.mp hx with hx | hx
        · exact .inl (.inl (List.mem_singleton.mp hx))
        · rcases hl₁ x hx with rfl | rfl | ⟨hi, rfl | ⟨hz, rfl⟩⟩
          · exact .inl (.inl rfl)
          · exact .inl (.inr (.inl rfl))
          · rw [hkeep hi]
            exact .inr ⟨hi, rfl⟩
          · rw [if_pos ⟨hz, hi⟩]
            exact .inl (.inr (.inr (Finset.mem_insert_self _ _)))

theorem card_logged_le {T : Finset Nat} {a n : Nat} (hT : T.card ≤ n) (hl : ∀ x ∈ l, x ∈ T ∨ x = a) :
    l.toFinset.card ≤ n + 1 := by
  have hsub : l.toFinset ⊆ insert a T := by
    intro x hx
    exact Finset.mem_insert.mpr (hl x (List.mem_toFinset.mp hx)).symm
  exact (Finset.card_le_card hsub).trans ((Finset.card_insert_le a T).trans (Nat.succ_le_succ hT))

theorem writeiLoop_chunk (hmap : ∀ bn, addrOf s.data (s.icache k).copy bn ≠ 0 ↔
    bn < ((s.icache k).copy.size + (BSIZE - 1)) / BSIZE)
    (h0 : s.bitmap 0 = true) (hlen : src.length ≤ writeMax) (hoff : off ≤ (s.icache k).copy.size) :
    Wp (writeiLoop k src.length off src) s (fun _ s' => ∃ l, s'.logged = l ++ s.logged ∧ l.toFinset.card ≤ 9)
      fun _ => True := by
  have hone : (if s.ind k = 0 then 1 else 0) ≤ 1 := by split_ifs <;> omega
  by_cases halign : off % BSIZE = 0
  · have hspan := span_le (.inr halign) hlen
    refine (writeiLoop_logs src.length h0).imp fun _ s' ⟨l, hw, T, hT, hl⟩ => ⟨l, hw.logged, ?_⟩
    exact (card_logged_le (n := 7) (by omega) fun x hx => (hl x hx).imp_right And.right).trans (by decide)
  · cases src with
    | nil => exact ⟨[], rfl, Nat.zero_le _⟩
    | cons c src =>
      have hmapped : addrOf s.data (s.icache k).copy (off / BSIZE) ≠ 0 := by
        refine (hmap _).mpr ?_
        simp only [BSIZE] at *
        omega
      -- the first block is mapped, and the others are whole blocks from their first byte on
      rw [List.length_cons]
      unfold writeiLoop
      rw [if_neg (List.cons_ne_nil c src)]
      refine Wp.bind (bmap_mapped hmapped) ?_
      rintro b s rfl
      unfold setData logWrite
      simp only [wp_bind, wp_update]
      refine Wp.imp (writeiLoop_logs src.length ?_) ?_
      · exact h0
      rintro - s' ⟨l, hw, T, hT, hl⟩
      refine ⟨l ++ [b], ?_, ?_⟩
      · rw [hw.logged, List.append_assoc]
        rfl
      have hspan : span (off + min (c :: src).length (BSIZE - off % BSIZE))
          ((c :: src).drop (min (c :: src).length (BSIZE - off % BSIZE))).length ≤ 3 := by
        rw [List.length_drop]
        refine span_le ?_ (Nat.le_trans (Nat.sub_le _ _) hlen)
        simp only [BSIZE] at *
        omega
      have hcard : T.card ≤ 7 := hT.trans (Nat.add_le_add (Nat.mul_le_mul_left 2 hspan) hone)
      have hins : (insert b T).card ≤ 8 := (Finset.card_insert_le b T).trans (Nat.succ_le_succ hcard)
      refine card_logged_le hins (a := s'.ind k) fun x hx => ?_
      rcases List.mem_append.mp hx with hx | hx
      · exact (hl x hx).imp Finset.mem_insert_of_mem And.right
      · exact .inl (Finset.mem_insert.mpr (.inl (List.mem_singleton.mp hx)))

/-- For every disk, every file whose mapped blocks are those below its size, every offset and every chunk that `filewrite`
hands to `writei`: the blocks that are logged fit into the reservation of one operation. Block 0, the boot block,
is not free; its number in an inode means that there is no block. -/
theorem writei_fits {r : Option Nat} (hmap : ∀ bn, addrOf s.data (s.icache k).copy bn ≠ 0 ↔
    bn < ((s.icache k).copy.size + (BSIZE - 1)) / BSIZE)
    (hboot : s.bitmap 0 = true) (hlen : src.length ≤ writeMax) (hrun : writei k src off s = .ok (r, s')) :
    ∃ l, s'.logged = l ++ s.logged ∧ l.toFinset.card ≤ Log.MAXOPBLOCKS := by
  have hnone : ∃ l, s.logged = l ++ s.logged ∧ l.toFinset.card ≤ Log.MAXOPBLOCKS := ⟨[], rfl, Nat.zero_le _⟩
  have hwrite : Wp (writei k src off) s
      (fun _ s' => ∃ l, s'.logged = l ++ s.logged ∧ l.toFinset.card ≤ Log.MAXOPBLOCKS) fun _ => True := by
    unfold writei inode
    simp only [wp_bind, wp_look]
    refine Wp.ite (fun _ => hnone) fun _ => Wp.ite (fun _ => hnone) fun hoff => Wp.ite (fun _ => hnone) fun _ => ?_
    have hle : off ≤ (s.icache k).copy.size := by omega
    refine Wp.bind (writeiLoop_chunk hmap hboot hlen hle) fun _ s₁ hpost => ?_
    obtain ⟨l, hlog, hcard⟩ := hpost
    refine Wp.ite (fun _ => ?_) fun _ => ⟨l, hlog, hcard.trans (by decide)⟩
    -- the inode block is the tenth
    unfold setCopy setInode iupdate inode logWrite
    simp only [wp_bind, wp_look, wp_update, wp_pure]
    refine ⟨_ :: l, congrArg _ hlog, ?_⟩
    rw [List.toFinset_cons]
    exact (Finset.card_insert_le _ _).trans (Nat.succ_le_succ hcard)
  exact hwrite.of_ok hrun

end

/-- A disk with four free blocks, and a file that uses its direct blocks. -/
def fourFree : FS where
  sb := ⟨104, 40, 200, 32, 58, by decide, by decide⟩
  inode := fun _ => Dinode.zero
  bitmap := fun b => decide (b < 100)
  data := fun _ _ => 0
  icache := fun _ => ⟨2, 1, true, true, ⟨.file, 0, 0, 1, 6044, fun i => if i < 12 then 70 + i else 0⟩⟩
  ftable := fun _ => ⟨.none, 0, false, false, 0, 0⟩
  proc := fun _ => ⟨fun _ => none, none⟩
  outstanding := 1
  logged := []

theorem fourFree_mapped (bn : Nat) : addrOf fourFree.data (fourFree.icache 0).copy bn ≠ 0 ↔
    bn < ((fourFree.icache 0).copy.size + (BSIZE - 1)) / BSIZE := by
  have hsize : ((fourFree.icache 0).copy.size + (BSIZE - 1)) / BSIZE = 12 := rfl
  rw [hsize]
  unfold addrOf
  by_cases hd : bn < 12
  · rw [if_pos hd]
    refine iff_of_true ?_ hd
    show (if bn < 12 then 70 + bn else 0) ≠ 0
    rw [if_pos hd]
    omega
  · rw [if_neg hd, if_neg fun h => h.2 rfl]
    exact iff_of_false (fun h => h rfl) hd

/-- The largest chunk at the end of that file. -/
@[irreducible] def fourFreeWrite : Except Stop (Option Nat × FS) := writei 0 (List.replicate 1536 1) 6044 fourFree

/-- Four blocks, the indirect block, one bitmap block and the inode block. -/
theorem writei_fits_fourFree : ∃ r s', writei 0 (List.replicate 1536 1) 6044 fourFree = .ok (r, s') ∧
    s'.logged.toFinset.card = 7 ∧
    ∃ l, s'.logged = l ++ fourFree.logged ∧ l.toFinset.card ≤ Log.MAXOPBLOCKS := by
  have hsat : Sat fourFreeWrite (fun r => r.2.logged.toFinset.card = 7) fun _ => False := by decide +kernel
  obtain ⟨⟨r, s'⟩, hrun, hten⟩ := hsat.exists_ok
  unfold fourFreeWrite at hrun
  exact ⟨r, s', hrun, hten, writei_fits fourFree_mapped rfl (by rw [List.length_replicate]; decide) hrun⟩

end Xv6Mlfq.Fs
