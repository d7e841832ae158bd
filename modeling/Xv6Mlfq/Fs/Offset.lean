import Xv6Mlfq.Fs.ByteArray

/-!
# What the result of a read or a write says

`fileread` and `filewrite` on an open regular file: which results tell what has happened to the offset, the size and
the bytes of the file. A read always does. A write is cut into transactions of `writeMax` bytes, and a transaction that
does not fit into the largest file ends it with -1, whatever the transactions before it have stored.
-/

namespace Xv6Mlfq.Fs

open Lib

/-- Offset, size and bytes of the file are the same. -/
structure SameFile (f : FRef) (i : Nat) (s s' : FS) : Prop where
  off : (s'.ftable f).off = (s.ftable f).off
  size : (s'.inode i).size = (s.inode i).size
  contents : (s'.view.node i).contents = (s.view.node i).contents

/-- What a read with result `r` (`none` is -1) has to say about the open file `f` on inode `i`. -/
def ReadTells (f : FRef) (i : Nat) (s s' : FS) : Option (List UInt8) → Prop
  | some bs => (s'.ftable f).off = (s.ftable f).off + bs.length ∧
      (s'.view.node i).contents = (s.view.node i).contents
  | none => SameFile f i s s'

/-- What a write of `src` with result `r` has to say about the open file `f` on inode `i`. -/
def WriteTells (f : FRef) (i : Nat) (src : List UInt8) (s s' : FS) (r : Int) : Prop :=
  (0 ≤ r → (s'.ftable f).off = (s.ftable f).off + r ∧
    (s'.view.node i).contents = splice (s.view.node i).contents (s.ftable f).off (src.take r.toNat)) ∧
  (r = -1 → SameFile f i s s')

/-- Either the whole of `src` is written or not even its first transaction. -/
def AllOrNothing (s : FS) (f : FRef) (i : Nat) (src : List UInt8) : Prop :=
  (s.ftable f).writable = false ∨ (s.inode i).size < (s.ftable f).off ∨
    (s.ftable f).off + src.length ≤ MAXFILE * BSIZE ∨
    MAXFILE * BSIZE < (s.ftable f).off + min src.length writeMax

/-! ## The node after a write -/

/-- `filewrite` on a node, from offset `off` on: the result, and the node. -/
def Node.filewrite (d : Node) (off : Nat) (src : List UInt8) : Int × Node :=
  if src = [] then (0, d)
  else if d.type = .dev then (if d.major = CONSOLE then src.length else -1, d)
  else if d.contents.length < off then (-1, d)
  else (if off + src.length ≤ MAXFILE * BSIZE then src.length else -1,
    { d with contents := splice d.contents off (src.take (stored off src.length)) })

section node

variable {d : Node} {off m : Nat} {src : List UInt8}

theorem filewrite_nil (d : Node) (off : Nat) : d.filewrite off [] = (0, d) := if_pos rfl

theorem filewrite_dev (hs : src ≠ []) (hd : d.type = .dev) :
    d.filewrite off src = (if d.major = CONSOLE then (src.length : Int) else -1, d) := by
  unfold Node.filewrite
  rw [if_neg hs, if_pos hd]

theorem filewrite_console (hd : d.type = .dev) (hcons : d.major = CONSOLE) :
    d.filewrite off src = ((src.length : Int), d) := by
  by_cases hs : src = []
  · rw [hs, filewrite_nil]
    rfl
  · rw [filewrite_dev hs hd, if_pos hcons]

theorem filewrite_behind (hs : src ≠ []) (hd : d.type ≠ .dev) (hoff : d.contents.length < off) :
    d.filewrite off src = (-1, d) := by
  unfold Node.filewrite
  rw [if_neg hs, if_neg hd, if_pos hoff]

theorem filewrite_within (hd : d.type ≠ .dev) (hoff : off ≤ d.contents.length) (hlen : d.contents.length ≤ MAXFILE * BSIZE) :
    d.filewrite off src = (if off + src.length ≤ MAXFILE * BSIZE then (src.length : Int) else -1,
      { d with contents := splice d.contents off (src.take (stored off src.length)) }) := by
  unfold Node.filewrite
  split_ifs with hs hlt hfit hfit
  · subst hs
    rw [List.take_nil, splice_nil]
    rfl
  · subst hs
    exact absurd (hoff.trans hlen) hlt
  · omega
  · omega
  · rfl
  · rfl

theorem filewrite_result (d : Node) (off : Nat) (src : List UInt8) :
    (d.filewrite off src).1 = src.length ∨ (d.filewrite off src).1 = -1 := by
  unfold Node.filewrite
  split_ifs with hs
  · left
    rw [hs]
    rfl
  all_goals simp

theorem filewrite_node (d : Node) (off : Nat) (src : List UInt8) :
    (d.filewrite off src).2 = d ∨ (d.type ≠ .dev ∧ ∃ bs, (d.filewrite off src).2 = { d with contents := bs }) := by
  unfold Node.filewrite
  split_ifs with hs hd
  · exact .inl rfl
  · exact .inl rfl
  · exact .inl rfl
  · exact .inl rfl
  all_goals exact .inr ⟨hd, _, rfl⟩

theorem write_chunk (hd : d.type ≠ .dev) (hoff : off ≤ d.contents.length) (hlen : d.contents.length ≤ MAXFILE * BSIZE)
    (hsrc : src.length ≤ writeMax) : d.write off src = if off + src.length ≤ MAXFILE * BSIZE then
      (some src.length, { d with contents := splice d.contents off src }) else (none, d) := by
  have hwrap : (off + src.length) % UINT = off + src.length := by
    apply Nat.mod_eq_of_lt
    unfold writeMax at hsrc
    simp only [MAXFILE, NDIRECT, NINDIRECT, BSIZE, UINT] at *
    omega
  unfold Node.write
  rw [if_neg hd, if_neg (by rw [hwrap]; omega)]
  split_ifs <;> first | rfl | omega

theorem write_behind (hd : d.type ≠ .dev) (hoff : d.contents.length < off) : d.write off src = (none, d) := by
  unfold Node.write
  rw [if_neg hd, if_pos (.inl hoff)]

theorem write_dev (hd : d.type = .dev) : d.write off src = (if d.major = CONSOLE then some src.length else none, d) := by
  unfold Node.write
  rw [if_pos hd]

theorem filewrite_refused (hlen : d.contents.length ≤ MAXFILE * BSIZE) (hs : src ≠ []) (hm : m = min src.length writeMax)
    (h : (d.write off (src.take m)).1 = none) : d.filewrite off src = (-1, (d.write off (src.take m)).2) := by
  have htake : (src.take m).length = m := by
    rw [List.length_take]
    omega
  by_cases hd : d.type = .dev
  · rw [write_dev hd] at h ⊢
    rw [filewrite_dev hs hd]
    split_ifs at h ⊢
    rfl
  by_cases hoff : d.contents.length < off
  · rw [write_behind hd hoff, filewrite_behind hs hd hoff]
  · rw [write_chunk hd (by omega) hlen (by omega), htake] at h ⊢
    split_ifs at h ⊢ with hfit
    rw [filewrite_within hd (by omega) hlen, if_neg (by omega), stored_eq_zero (by omega), List.take_zero, splice_nil]

theorem splice_stored {bs : List UInt8} (hoff : off ≤ bs.length) (hm : m ≤ src.length)
    (hstep : stored off src.length = m + stored (off + m) (src.length - m)) :
    splice (splice bs off (src.take m)) (off + m) ((src.drop m).take (stored (off + m) (src.length - m))) =
      splice bs off (src.take (stored off src.length)) := by
  have htake : (src.take m).length = m := by
    rw [List.length_take]
    omega
  rw [hstep, List.take_add, ← splice_splice (d := src.take m ++ _) (m := m) hoff (by simp; omega)]
  rw [List.take_left' htake, List.drop_left' htake]

theorem filewrite_written (hlen : d.contents.length ≤ MAXFILE * BSIZE) (hm : m = min src.length writeMax)
    (h : (d.write off (src.take m)).1 = some m) {x : Int × Node}
    (hx : (d.write off (src.take m)).2.filewrite ((off + m) % UINT) (src.drop m) = x) :
    d.filewrite off src = (if x.1 = -1 then -1 else (src.length : Int), x.2) := by
  have htake : (src.take m).length = m := by
    rw [List.length_take]
    omega
  have hdrop : (src.drop m).length = src.length - m := List.length_drop
  subst hx
  by_cases hd : d.type = .dev
  · rw [write_dev hd] at h ⊢
    have hcons : d.major = CONSOLE := by
      by_contra hne
      rw [if_neg hne] at h
      cases h
    rw [filewrite_console hd hcons, filewrite_console hd hcons, if_neg (by simp only; omega)]
  by_cases hoff : d.contents.length < off
  · rw [write_behind hd hoff] at h
    cases h
  · rw [write_chunk hd (by omega) hlen (by omega), htake] at h ⊢
    split_ifs at h with hfit
    rw [if_pos hfit]
    have hmod : (off + m) % UINT = off + m := by
      apply Nat.mod_eq_of_lt
      simp only [MAXFILE, NDIRECT, NINDIRECT, BSIZE, UINT] at *
      omega
    have hlen' : (splice d.contents off (src.take m)).length = max d.contents.length (off + m) := by
      rw [length_splice (by omega), htake]
    have hstep := stored_step (n := src.length) (hm ▸ hfit)
    rw [← hm] at hstep
    obtain ⟨d', hd'⟩ : ∃ d' : Node, { d with contents := splice d.contents off (src.take m) } = d' := ⟨_, rfl⟩
    have hcont : d'.contents = splice d.contents off (src.take m) := by rw [← hd']
    have hrest : d'.filewrite (off + m) (src.drop m) = _ :=
      filewrite_within (by rw [← hd']; exact hd) (by rw [hcont]; omega) (by rw [hcont]; omega)
    rw [hmod, hd', hrest, filewrite_within hd (by omega) hlen, hdrop]
    refine Prod.ext ?_ ?_
    · simp only
      split_ifs <;> omega
    · rw [← hd', ← splice_stored (by omega) (by omega) hstep]

end node

/-! ## What the result says -/

section

variable {v : View} {s s' : FS} {f : FRef} {ip : IRef} {i : Nat}

theorem At.ftable (h : At v s) : s.ftable = v.ftable := by
  rw [← h.view]
  rfl

theorem At.inode_size (h : At v s) (hl : v.Live i) : (s.inode i).size = (v.node i).contents.length := by
  rw [← h.node, node_of_live ((h.live i).mpr hl), length_contents]
  rfl

theorem Regular.live (h : Regular v ip) : v.Live (v.slot ip).inum := by
  show (v.inodeAt ip).type ≠ .free
  rw [h.file]
  nofun

theorem At.sameFile (h : At v s) (h' : At v s') (hl : v.Live i) : SameFile f i s s' :=
  ⟨by rw [h.ftable, h'.ftable], by rw [h.inode_size hl, h'.inode_size hl], by rw [h.view, h'.view]⟩

theorem wrote_off (v : View) (f : FRef) (ip : IRef) (src : List UInt8) :
    ((v.wrote f ip src).ftable f).off = (v.ftable f).off + src.length := by
  simp [View.wrote, View.setFile]

theorem wrote_contents (v : View) (f : FRef) (ip : IRef) (src : List UInt8) :
    ((v.wrote f ip src).node (v.slot ip).inum).contents =
      splice (v.inodeAt ip).contents (v.ftable f).off src := by
  simp [View.wrote, View.setFile, View.setNode]

/-- A read: `readiResult` is at most as long as what is left of the file, so the offset does not wrap. -/
theorem readTells_of_readi (h : At v s) (hreg : Regular v ip) (n : Nat) (dev : Option (List UInt8))
    (h' : At (v.setFile f (advance ((readiResult (v.inodeAt ip) (v.ftable f).off n dev).getD []).length)) s') :
    ReadTells f (v.slot ip).inum s s' (readiResult (v.inodeAt ip) (v.ftable f).off n dev) := by
  have hlen := h.length_le (v.slot ip).inum
  have hnode : (s'.view.node (v.slot ip).inum).contents = (s.view.node (v.slot ip).inum).contents := by
    rw [h'.view, h.view]
    rfl
  unfold readiResult at h' ⊢
  rw [hreg.file, if_neg nofun] at h' ⊢
  by_cases hbad : (v.ftable f).off > (v.inodeAt ip).contents.length ∨ ((v.ftable f).off + n) % UINT < (v.ftable f).off
  · rw [if_pos hbad] at h' ⊢
    refine h.sameFile ?_ hreg.live
    have : v.setFile f (advance ((none : Option (List UInt8)).getD []).length) = v := by
      show v.setFile f (fun x => x) = v
      simp [View.setFile]
    rwa [this] at h'
  · rw [if_neg hbad] at h' ⊢
    refine ⟨?_, hnode⟩
    have hoff : (v.ftable f).off ≤ (v.inodeAt ip).contents.length := by omega
    generalize hbs : ((v.inodeAt ip).contents.drop (v.ftable f).off).take n = bs at *
    have hbslen : bs.length ≤ (v.inodeAt ip).contents.length - (v.ftable f).off := by
      rw [← hbs, List.length_take, List.length_drop]
      omega
    rw [h.ftable, h'.ftable]
    show (Function.update v.ftable f (advance bs.length (v.ftable f)) f).off = _
    rw [Function.update_self]
    unfold advance
    split_ifs with hpos
    · refine Nat.mod_eq_of_lt ?_
      unfold View.inodeAt at hoff hbslen
      simp only [MAXFILE, NDIRECT, NINDIRECT, BSIZE, UINT] at *
      omega
    · omega

theorem filewrite_spec (h : At v s) (htype : (v.ftable f).type = .inode) (hreg : Regular v (v.ftable f).ip)
    (src : List UInt8) (dev : Int) :
    Wp (filewrite f src dev) s
      (fun r s' => ((v.ftable f).writable = false ∧ r = -1 ∧ At v s') ∨
        ((v.inodeAt (v.ftable f).ip).contents.length < (v.ftable f).off ∧ At v s' ∧
          r = if src = [] then 0 else -1) ∨
        ((v.ftable f).writable = true ∧ (v.ftable f).off ≤ (v.inodeAt (v.ftable f).ip).contents.length ∧
          (r = if (v.ftable f).off + src.length ≤ MAXFILE * BSIZE then (src.length : Int) else -1) ∧
          At (v.wrote f (v.ftable f).ip (src.take (stored (v.ftable f).off src.length))) s'))
      fun _ => s.free + blocksFor (blocksIn (v.inodeAt (v.ftable f).ip).contents.length) <
        blocksFor (blocksIn (max (v.inodeAt (v.ftable f).ip).contents.length
          ((v.ftable f).off + stored (v.ftable f).off src.length))) := by
  unfold filewrite
  simp only [wp_bind, wp_look, h.ftable, htype]
  refine Wp.ite (fun hw => .inl ⟨hw, rfl, h⟩) fun hw => ?_
  have hw : (v.ftable f).writable = true := by simpa using hw
  by_cases hoff : (v.inodeAt (v.ftable f).ip).contents.length < (v.ftable f).off
  · have hloop : Wp (filewriteLoop f (v.ftable f).ip src.length src) s
        (fun ok s' => (ok = true ↔ src = []) ∧ At v s') fun _ => False := by
      cases src with
      | nil => exact ⟨by simp, h⟩
      | cons b src =>
        rw [List.length_cons]
        unfold filewriteLoop
        rw [if_neg (List.cons_ne_nil b src)]
        refine Wp.bind (filewriteChunk_refused _ h hreg (write_of_gt hreg.file hoff)) ?_
        rintro r s₁ ⟨rfl, h₁⟩
        exact ⟨by simp, h₁⟩
    refine Wp.bind (hloop.mono (fun _ _ h => h) fun _ he => he.elim) ?_
    rintro ok s' ⟨hok, h'⟩
    refine .inr (.inl ⟨hoff, h', ?_⟩)
    by_cases hsrc : src = []
    · rw [hok.mpr hsrc, if_pos rfl, if_pos hsrc, hsrc]
      rfl
    · rw [if_neg (fun ht => hsrc (hok.mp ht)), if_neg hsrc]
  · refine Wp.bind (filewriteLoop_spec (f := f) src.length v s src le_rfl h hreg (by omega)) ?_
    rintro ok s' ⟨hok, h'⟩
    refine .inr (.inr ⟨hw, by omega, ?_, h'⟩)
    by_cases hfit : (v.ftable f).off + src.length ≤ MAXFILE * BSIZE
    · rw [hok.mpr hfit, if_pos rfl, if_pos hfit]
    · rw [if_neg (fun ht => hfit (hok.mp ht)), if_neg hfit]

end

/-- Reads and writes on an open regular file of a file system whose blocks are in order. A read returns, and its result
tells what happened. Of a write that returns, the result tells what happened if and only if `AllOrNothing`. -/
theorem result_tells (s : FS) (f : FRef) (h : Good s) (htype : (s.ftable f).type = .inode)
    (hreg : Regular s.view (s.ftable f).ip) :
    (∀ (n : Nat) (dev : Option (List UInt8)), ∃ r s', fileread f n dev s = .ok (r, s') ∧
      ReadTells f (s.icache (s.ftable f).ip).inum s s' r) ∧
    ∀ (src : List UInt8) (dev r : Int) (s' : FS), filewrite f src dev s = .ok (r, s') →
      (WriteTells f (s.icache (s.ftable f).ip).inum src s s' r ↔
        AllOrNothing s f (s.icache (s.ftable f).ip).inum src) := by
  have hat := At.of_good h
  have hlen := hat.length_le (s.icache (s.ftable f).ip).inum
  refine ⟨fun n dev => ?_, fun src dev r s' hrun => ?_⟩
  · by_cases hread : (s.ftable f).readable = true
    · obtain ⟨r, s', hrun, rfl, h'⟩ := (fileread_spec hat htype hread hreg n dev).returns
      exact ⟨_, s', hrun, readTells_of_readi hat hreg n dev h'⟩
    · refine ⟨none, s, ?_, hat.sameFile hat hreg.live⟩
      unfold fileread
      simp only [look, bind, StateT.bind, Except.bind]
      rw [if_pos (by simpa using hread)]
      rfl
  · have hsize := hat.inode_size hreg.live
    change (s.inode (s.icache (s.ftable f).ip).inum).size = _ at hsize
    unfold AllOrNothing
    rw [hsize]
    have hcases := (filewrite_spec hat htype hreg src dev).of_ok hrun
    simp only [show s.view.ftable = s.ftable from rfl, View.inodeAt,
      show ∀ k, (s.view.slot k).inum = (s.icache k).inum from fun _ => rfl] at hcases ⊢
    rcases hcases with ⟨hw, rfl, h'⟩ | ⟨hoff, h', hr⟩ | ⟨hw, hoff, hr, h'⟩
    · exact iff_of_true ⟨fun hr => absurd hr (by decide), fun _ => hat.sameFile h' hreg.live⟩ (.inl hw)
    · have hsame : SameFile f (s.icache (s.ftable f).ip).inum s s' := hat.sameFile h' hreg.live
      refine iff_of_true ⟨fun hpos => ?_, fun _ => hsame⟩ (.inr (.inl hoff))
      split_ifs at hr with hsrc
      · subst hr hsrc
        refine ⟨?_, ?_⟩
        · rw [hsame.off]
          omega
        · rw [hsame.contents]
          simp
      · omega
    · have hoff' : (s'.ftable f).off = (s.ftable f).off + (src.take (stored (s.ftable f).off src.length)).length := by
        rw [h'.ftable, wrote_off]
        rfl
      rw [List.length_take, min_eq_left (stored_le _ _)] at hoff'
      have hcont : (s'.view.node (s.icache (s.ftable f).ip).inum).contents =
          splice (s.view.node (s.icache (s.ftable f).ip).inum).contents (s.ftable f).off
            (src.take (stored (s.ftable f).off src.length)) := by
        rw [h'.view]
        exact wrote_contents ..
      split_ifs at hr with hfit
      · refine iff_of_true ⟨fun _ => ?_, fun hneg => by omega⟩ (.inr (.inr (.inl hfit)))
        have hall : stored (s.ftable f).off src.length = src.length := if_pos hfit
        rw [hall] at hoff' hcont
        subst hr
        exact ⟨by omega, hcont⟩
      · -- some transaction was refused: nothing is stored only if it was the first
        have hfirst : stored (s.ftable f).off src.length = 0 ↔
            MAXFILE * BSIZE < (s.ftable f).off + min src.length writeMax := by
          refine ⟨fun hz => ?_, stored_eq_zero⟩
          by_contra hlt
          have hmax : (s.ftable f).off ≤ MAXFILE * BSIZE := le_trans hoff hlen
          have hpos : 0 < min src.length writeMax := by
            have : 0 < writeMax := by decide
            omega
          have hfits : (s.ftable f).off + min src.length writeMax ≤ MAXFILE * BSIZE := by omega
          have := stored_step hfits
          omega
        rw [← hfirst]
        constructor
        · rintro ⟨-, hsame⟩
          have := (hsame hr).off
          exact .inr (.inr (.inr (by omega)))
        · rintro (hno | hno | hno | hz)
          · exact absurd (hw.symm.trans hno) (by simp)
          · exact absurd hoff (by omega)
          · exact absurd hno hfit
          · have hview : s.view.wrote f (s.ftable f).ip (src.take (stored (s.ftable f).off src.length)) = s.view := by
              rw [hz, List.take_zero]
              simp [View.wrote, View.setFile, View.setNode, View.inodeAt]
            refine ⟨fun hpos => by omega, fun _ => hat.sameFile ?_ hreg.live⟩
            rwa [hview] at h'

/-- A file of three bytes, read and written from the second one on. -/
theorem result_tells_second : ∃ s, (s.view.node 2).contents = [1, 2, 3] ∧ (s.ftable 0).off = 1 ∧
    (∃ r s', fileread 0 10 none s = .ok (r, s') ∧ ReadTells 0 2 s s' r) ∧
    ∃ r s', filewrite 0 [7, 8, 9] 0 s = .ok (r, s') ∧ WriteTells 0 2 [7, 8, 9] s s' r := by
  obtain ⟨s, hgood, ho, hbytes, hoff⟩ := written_file
  have hat := At.of_good hgood
  have hinum : (s.icache (s.ftable 0).ip).inum = 2 := ho.inum
  obtain ⟨hread, hwrite⟩ := result_tells s 0 hgood ho.type ho.regular
  rw [hinum] at hread hwrite
  have hspec : Wp (filewrite 0 [7, 8, 9] 0) s (fun _ _ => True) fun _ => False := by
    refine (filewrite_spec hat ho.type ho.regular [7, 8, 9] 0).mono (fun _ _ _ => trivial) ?_
    intro _ hfull
    have hnode : s.view.inodeAt (s.view.ftable 0).ip = s.view.node 2 := congrArg s.view.node ho.inum
    have hoff' : (s.view.ftable 0).off = 1 := hoff
    rw [hnode, hbytes, hoff'] at hfull
    exact absurd hfull (Nat.not_lt.mpr (Nat.le_add_left _ _))
  obtain ⟨r, s', hrun, -⟩ := hspec.returns
  refine ⟨s, hbytes, hoff, hread 10 none, r, s', hrun, (hwrite [7, 8, 9] 0 r s' hrun).mpr (.inr (.inr (.inl ?_)))⟩
  rw [hoff]
  decide

/-- **A write that fails half-way.** 71681 bytes written to an empty file, on a disk of 1000 blocks with 992 of them
free: the result is -1, but 46 transactions of 1536 bytes have been stored and the offset is behind them. -/
theorem write_half_done : ∃ s s' : FS, Good s ∧ (s.ftable 0).type = .inode ∧ Regular s.view (s.ftable 0).ip ∧
    (s.ftable 0).off = 0 ∧ (s.inode 2).size = 0 ∧ (s.icache (s.ftable 0).ip).inum = 2 ∧
    filewrite 0 (List.replicate 71681 0) 0 s = .ok (-1, s') ∧
    (s'.ftable 0).off = 70656 ∧ (s'.inode 2).size = 70656 ∧
    ¬ WriteTells 0 2 (List.replicate 71681 0) s s' (-1) := by
  generalize hs : ({ oneFile with sb := ⟨1000, 992, 8, 2, 3, by decide, by decide⟩ } : FS) = s
  have hgood : Good s := hs ▸ oneFile_good_on _ rfl (by decide)
  have hat := At.of_good hgood
  have hfile : s.ftable 0 = oneFile.ftable 0 := by rw [← hs]
  have htype : (s.ftable 0).type = .inode := by rw [hfile]; rfl
  have hreg : Regular s.view (s.ftable 0).ip := by
    rw [← hs]
    exact ⟨⟨by decide, rfl⟩, rfl, rfl⟩
  have hfree : s.free = 992 := by
    rw [← hs]
    decide +kernel
  have hempty : (s.view.inodeAt (s.ftable 0).ip).contents = [] := by
    rw [← hs]
    rfl
  have hst : stored 0 71681 = 70656 := by decide
  have hlen : (List.replicate 71681 (0 : UInt8)).length = 71681 := List.length_replicate
  have hoff : (s.view.ftable 0).off = 0 := congrArg File.off hfile
  have hspec := filewrite_spec hat htype hreg (List.replicate 71681 0) 0
  rw [hoff, hlen, hst, show (s.view.ftable 0).ip = (s.ftable 0).ip from rfl, hempty, hfree] at hspec
  replace hspec : Wp _ s _ fun _ => False := hspec.mono (fun _ _ h => h) fun _ hfull => absurd hfull (by decide)
  obtain ⟨r, s', hrun, hcase⟩ := hspec.returns
  have hwr : (s.view.ftable 0).writable = true := congrArg File.writable hfile
  rcases hcase with ⟨hw, -⟩ | ⟨hlt, -⟩ | ⟨-, -, hr, h'⟩
  · exact absurd (hwr.symm.trans hw) (by simp)
  · exact absurd hlt (by simp)
  · rw [if_neg (by decide)] at hr
    subst hr
    have hinum : (s.view.slot (s.ftable 0).ip).inum = 2 := by
      rw [← hs]
      rfl
    have hoff' : (s'.ftable 0).off = 70656 := by
      rw [h'.ftable, wrote_off, hoff, List.length_take, hlen]
      rfl
    have hlive : ((s.view.wrote 0 (s.ftable 0).ip (List.take 70656 (List.replicate 71681 0))).node 2).type = .file := by
      rw [← hinum]
      show (Function.update s.view.node _ _ _).type = _
      rw [Function.update_self]
      exact hreg.file
    have hsize : (s'.inode 2).size = 70656 := by
      have hl := h'.inode_size (i := 2) (by
        unfold View.Live
        rw [hlive]
        nofun)
      rw [hl, ← hinum, wrote_contents, hempty, hoff, length_splice (Nat.zero_le _), List.length_take, hlen]
      rfl
    refine ⟨s, s', hgood, htype, hreg, hoff, ?_, hinum, hrun, hoff', hsize, fun htells => ?_⟩
    · rw [← hs]
      rfl
    · have := (htells.2 rfl).off
      rw [hoff', show (s.ftable 0).off = 0 from hoff] at this
      cases this

end Xv6Mlfq.Fs
