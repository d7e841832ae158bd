import Xv6Mlfq.Fs.Owned

/-!
# Allocating and freeing the blocks of an inode

The functions of fs.c that move blocks between the bitmap and an inode, for an inode whose copy in the cache is being
changed (`FS.volAt`). `bmap_spec`: asked for a block that is mapped or the next one to be mapped, `bmap` returns its
address, changes nothing that was there, and a new block is zero; the number of free blocks pays for it
(`blocksFor`). `itrunc_spec`: `itrunc` returns, and leaves the inode without blocks.
-/

namespace Xv6Mlfq.Fs

open Lib

def FS.vol (s : FS) : Vol := ⟨s.sb, s.inode, s.bitmap, s.data⟩

/-- The disk with the copy of one inode in the cache in the place of the inode. -/
def FS.volAt (s : FS) (k : IRef) : Vol :=
  ⟨s.sb, Function.update s.inode (s.icache k).inum (s.icache k).copy, s.bitmap, s.data⟩

/-- The number of blocks that `balloc` can still return. -/
def freeIn (size : Nat) (bitmap : Nat → Bool) : Nat :=
  ((Finset.range size).filter fun b => bitmap b = false).card

def FS.free (s : FS) : Nat := freeIn s.sb.size s.bitmap

/-- The blocks that an inode with `cnt` blocks uses, with its indirect block. -/
def blocksFor (cnt : Nat) : Nat := if NDIRECT < cnt then cnt + 1 else cnt

theorem blocksFor_mono {m n : Nat} (h : m ≤ n) : blocksFor m ≤ blocksFor n := by
  unfold blocksFor
  split_ifs <;> omega

def OutOfBlocks (e : Stop) : Prop := e = .panic "balloc: out of blocks"

theorem freeIn_update {size b : Nat} {bitmap : Nat → Bool} (hlt : b < size) (hfree : bitmap b = false) :
    freeIn size (Function.update bitmap b true) + 1 = freeIn size bitmap := by
  unfold freeIn
  have herase : (Finset.range size).filter (fun c => Function.update bitmap b true c = false) =
      ((Finset.range size).filter fun c => bitmap c = false).erase b := by
    ext c
    simp only [Finset.mem_filter, Finset.mem_range, Finset.mem_erase, Function.update_apply]
    split_ifs with hcb
    · simp [hcb]
    · simp [hcb]
  rw [herase, Finset.card_erase_add_one]
  simp [hlt, hfree]

/-! ## balloc -/

theorem balloc_spec (s : FS) :
    Wp balloc s (fun b s' => b < s.sb.size ∧ s.bitmap b = false ∧
        s' = { s with
          bitmap := Function.update s.bitmap b true
          data := Function.update s.data b fun _ => 0
          logged := s'.logged })
      fun e => OutOfBlocks e ∧ s.free = 0 := by
  unfold balloc
  rw [wp_bind, wp_look]
  cases hfind : (List.range (id s).sb.size).find? fun b => !(id s).bitmap b with
  | none =>
    have hnone : s.free = 0 := by
      unfold FS.free freeIn
      rw [Finset.card_eq_zero, Finset.filter_eq_empty_iff]
      intro b hb
      have := List.find?_eq_none.mp hfind b (by simpa using hb)
      simpa using this
    exact ⟨rfl, hnone⟩
  | some b =>
    have hmem := List.mem_of_find?_eq_some hfind
    have hfree := List.find?_some hfind
    refine ⟨by simpa using hmem, by simpa using hfree, ?_⟩
    rfl

/-- What a change of the blocks of the inode in entry `k` touches. -/
def Touches (k : IRef) (s s' : FS) : Prop :=
  ∃ addrs, s' = { s with
    bitmap := s'.bitmap
    data := s'.data
    logged := s'.logged
    icache := Function.update s.icache k
      { s.icache k with copy := { (s.icache k).copy with addrs := addrs } } }

namespace Touches

variable {k : IRef} {s s' s'' : FS}

theorem refl (k : IRef) (s : FS) : Touches k s s := ⟨(s.icache k).copy.addrs, by simp⟩

theorem sb (h : Touches k s s') : s'.sb = s.sb := by
  obtain ⟨a, h⟩ := h
  rw [h]

theorem inode (h : Touches k s s') : s'.inode = s.inode := by
  obtain ⟨a, h⟩ := h
  rw [h]

theorem slot (h : Touches k s s') :
    s'.icache k = { s.icache k with copy := { (s.icache k).copy with addrs := (s'.icache k).copy.addrs } } := by
  obtain ⟨a, h⟩ := h
  rw [h]
  simp

theorem other (h : Touches k s s') {j : IRef} (hj : j ≠ k) : s'.icache j = s.icache j := by
  obtain ⟨a, h⟩ := h
  rw [h]
  simp [hj]

theorem inum (h : Touches k s s') : (s'.icache k).inum = (s.icache k).inum := by rw [h.slot]

theorem ftable (h : Touches k s s') : s'.ftable = s.ftable := by
  obtain ⟨a, h⟩ := h
  rw [h]

theorem proc (h : Touches k s s') : s'.proc = s.proc := by
  obtain ⟨a, h⟩ := h
  rw [h]

theorem outstanding (h : Touches k s s') : s'.outstanding = s.outstanding := by
  obtain ⟨a, h⟩ := h
  rw [h]

theorem setCopy (h : Touches k s s') (d : Dinode) :
    Function.update s'.icache k { s'.icache k with copy := d } =
      Function.update s.icache k { s.icache k with copy := d } := by
  funext j
  simp only [Function.update_apply]
  split_ifs with hj
  · rw [h.slot]
  · exact h.other hj

theorem trans (h : Touches k s s') (h' : Touches k s' s'') : Touches k s s'' := by
  obtain ⟨a, h⟩ := h
  obtain ⟨a', h'⟩ := h'
  refine ⟨a', ?_⟩
  rw [h'] at *
  rw [h]
  simp

theorem ino (h : Touches k s s') : (s'.volAt k).ino = Function.update (s.volAt k).ino (s.icache k).inum
    { (s.icache k).copy with addrs := (s'.icache k).copy.addrs } := by
  show Function.update s'.inode _ _ = Function.update (Function.update s.inode _ _) _ _
  rw [h.inode, h.slot, Function.update_idem]

theorem live (h : Touches k s s') (j : Nat) : (s'.volAt k).Live j ↔ (s.volAt k).Live j := by
  unfold Vol.Live
  rw [h.ino, show (s'.volAt k).sb = (s.volAt k).sb from h.sb, Function.update_apply]
  split_ifs with hj
  · rw [hj, show (s.volAt k).ino (s.icache k).inum = (s.icache k).copy from Function.update_self ..]
  · exact Iff.rfl

end Touches

/-! ## bmap -/

/-- The state while the inode in entry `k` grows: inode `j` has `cnt j` blocks, and this one has an indirect block
iff `ind`. -/
structure Growing (s : FS) (k : IRef) (cnt : Nat → Nat) (ind : Prop) : Prop where
  owned : Owned (s.volAt k)
  live : (s.volAt k).Live (s.icache k).inum
  self : Shaped (s.volAt k) (s.icache k).inum (cnt (s.icache k).inum) ind
  others : ∀ j, j ≠ (s.icache k).inum → (s.volAt k).Live j → Shaped (s.volAt k) j (cnt j) (NDIRECT < cnt j)

structure Kept (k : IRef) (s s' : FS) : Prop where
  addr : ∀ p, (s.volAt k).Live p.inum → (s.volAt k).addr p ≠ 0 → (s'.volAt k).addr p = (s.volAt k).addr p
  data : ∀ j bn, (s.volAt k).Live j → (s.volAt k).addr (.block j bn) ≠ 0 →
    s'.data ((s.volAt k).addr (.block j bn)) = s.data ((s.volAt k).addr (.block j bn))

theorem Kept.refl (k : IRef) (s : FS) : Kept k s s := ⟨fun _ _ _ => rfl, fun _ _ _ _ => rfl⟩

theorem Kept.trans {k : IRef} {s s' s'' : FS} (h : Kept k s s') (ht : Touches k s s') (h' : Kept k s' s'') :
    Kept k s s'' := by
  refine ⟨fun p hp hne => ?_, fun j bn hj hne => ?_⟩
  · have heq := h.addr p hp hne
    rw [h'.addr p ((ht.live _).mpr hp) (heq ▸ hne), heq]
  · have heq := h.addr (.block j bn) hj hne
    have hdata := h'.data j bn ((ht.live _).mpr hj) (heq ▸ hne)
    rw [heq] at hdata
    rw [hdata, h.data j bn hj hne]

section bmap

variable {s s' : FS} {k : IRef} {cnt : Nat → Nat} {ind : Prop} {b bn : Nat}

@[simp] theorem volAt_self (s : FS) (k : IRef) : (s.volAt k).ino (s.icache k).inum = (s.icache k).copy :=
  Function.update_self ..

/-- The state after `balloc` has returned `b` for the address `j` of the inode in entry `k`. -/
def FS.withAddr (s : FS) (k : IRef) (j b : Nat) (logged : List Nat) : FS :=
  { s with
    bitmap := Function.update s.bitmap b true
    data := Function.update s.data b fun _ => 0
    logged := logged
    icache := Function.update s.icache k
      { s.icache k with
        copy := { (s.icache k).copy with addrs := Function.update (s.icache k).copy.addrs j b } } }

theorem withAddr_touches (s : FS) (k : IRef) (j b : Nat) (logged : List Nat) :
    Touches k s (s.withAddr k j b logged) := ⟨_, rfl⟩

theorem withAddr_ino (s : FS) (k : IRef) (j b : Nat) (logged : List Nat) :
    ((s.withAddr k j b logged).volAt k).ino = Function.update (s.volAt k).ino (s.icache k).inum
      { (s.volAt k).ino (s.icache k).inum with
        addrs := Function.update ((s.volAt k).ino (s.icache k).inum).addrs j b } := by
  rw [(withAddr_touches s k j b logged).ino, volAt_self]
  simp [FS.withAddr]

theorem bmapAddr_spec (s : FS) (k : IRef) (j : Nat) :
    Wp (bmapAddr k j) s (fun b s' =>
        ((s.icache k).copy.addrs j ≠ 0 ∧ b = (s.icache k).copy.addrs j ∧ s' = s) ∨
        ((s.icache k).copy.addrs j = 0 ∧ b < s.sb.size ∧ s.bitmap b = false ∧
          ∃ l, s' = s.withAddr k j b l))
      fun e => OutOfBlocks e ∧ s.free = 0 ∧ (s.icache k).copy.addrs j = 0 := by
  unfold bmapAddr
  simp only [Fs.inode, wp_bind, wp_look]
  refine Wp.ite (fun hzero => ?_) fun hne => .inl ⟨hne, rfl, rfl⟩
  refine Wp.bind ((balloc_spec s).mono (fun _ _ h => h) fun e he => ⟨he.1, he.2, hzero⟩) ?_
  rintro b s' ⟨hlt, hfree, hs'⟩
  simp only [setCopy, setInode, wp_bind, wp_update, wp_pure]
  refine .inr ⟨hzero, hlt, hfree, s'.logged, ?_⟩
  rw [hs']
  rfl

theorem Kept.of_attach {q : Place} (hq : (s.volAt k).addr q = 0)
    (haddr : ∀ p, (s.volAt k).Live p.inum → (s'.volAt k).addr p = if p = q then b else (s.volAt k).addr p)
    (hdata : ∀ j bn, (s.volAt k).Live j → (s.volAt k).addr (.block j bn) ≠ 0 →
      s'.data ((s.volAt k).addr (.block j bn)) = s.data ((s.volAt k).addr (.block j bn))) : Kept k s s' := by
  refine ⟨fun p hp hne => ?_, hdata⟩
  rw [haddr p hp, if_neg]
  rintro rfl
  exact hne hq

theorem Growing.attach (hg : Growing s k cnt ind) (ht : Touches k s s') {q : Place} {n : Nat} {ind' : Prop}
    (hqi : q.inum = (s.icache k).inum)
    (hnew : Owned (s'.volAt k) ∧ ∀ p, (s.volAt k).Live p.inum →
      (s'.volAt k).addr p = if p = q then b else (s.volAt k).addr p)
    (hself : Shaped (s'.volAt k) (s.icache k).inum n ind') :
    Growing s' k (Function.update cnt (s.icache k).inum n) ind' := by
  obtain ⟨howned, haddr⟩ := hnew
  refine ⟨howned, ?_, ?_, fun j hj hlive => ?_⟩
  · rw [ht.inum]
    exact (ht.live _).mpr hg.live
  · rw [ht.inum, Function.update_self]
    exact hself
  · rw [ht.inum] at hj
    have hlive := (ht.live j).mp hlive
    rw [Function.update_of_ne hj]
    refine (hg.others j hj hlive).congr fun p hp => ?_
    rw [haddr p (hp ▸ hlive), if_neg]
    rintro rfl
    exact hj (hp.symm.trans hqi)

theorem Growing.data_zeroed (hg : Growing s k cnt ind) (hlt : b < s.sb.size) (hfree : s.bitmap b = false) (j bn : Nat)
    (hj : (s.volAt k).Live j) :
    Function.update s.data b (fun _ => 0) ((s.volAt k).addr (.block j bn)) =
      s.data ((s.volAt k).addr (.block j bn)) :=
  Function.update_of_ne ((hg.owned.fresh hlt hfree).2 (.block j bn) hj) _ _

theorem Growing.ne_zero (hg : Growing s k cnt ind) (hlt : b < s.sb.size) (hfree : s.bitmap b = false) : b ≠ 0 :=
  (hg.owned.fresh hlt hfree).1.ne_zero

/-- What `bmap` gives for block `bn` of the inode in entry `k`. -/
structure Mapped (s : FS) (k : IRef) (cnt : Nat → Nat) (bn b : Nat) (s' : FS) : Prop where
  touches : Touches k s s'
  growing : Growing s' k (Function.update cnt (s.icache k).inum (max (cnt (s.icache k).inum) (bn + 1)))
    (NDIRECT < max (cnt (s.icache k).inum) (bn + 1))
  kept : Kept k s s'
  addr : b = (s'.volAt k).addr (.block (s.icache k).inum bn)
  zeroed : bn = cnt (s.icache k).inum → s'.data b = fun _ => 0
  same : bn < cnt (s.icache k).inum → s' = s
  paid : s'.free + blocksFor (max (cnt (s.icache k).inum) (bn + 1)) = s.free + blocksFor (cnt (s.icache k).inum)

theorem Mapped.old (hg : Growing s k cnt (NDIRECT < cnt (s.icache k).inum)) (hbn : bn < cnt (s.icache k).inum) :
    Mapped s k cnt bn ((s.volAt k).addr (.block (s.icache k).inum bn)) s := by
  have hmax : max (cnt (s.icache k).inum) (bn + 1) = cnt (s.icache k).inum := by omega
  refine ⟨.refl k s, ?_, .refl k s, rfl, fun h => by omega, fun _ => rfl, by rw [hmax]⟩
  rw [hmax, Function.update_eq_self]
  exact hg

theorem withAddr_free (hlt : b < s.sb.size) (hfree : s.bitmap b = false) (j : Nat) (l : List Nat) :
    (s.withAddr k j b l).free + 1 = s.free := freeIn_update hlt hfree

theorem Mapped.direct (hg : Growing s k cnt (NDIRECT < cnt (s.icache k).inum)) (hlt : b < s.sb.size)
    (hfree : s.bitmap b = false) (hbn : bn = cnt (s.icache k).inum) (hd : bn < NDIRECT) (l : List Nat) :
    Mapped s k cnt bn b (s.withAddr k bn b l) := by
  have hmax : max (cnt (s.icache k).inum) (bn + 1) = bn + 1 := by omega
  have hb := hg.ne_zero hlt hfree
  have hzero : (s.volAt k).addr (.block (s.icache k).inum bn) = 0 := by
    by_contra hne
    have := (hg.self.mapped bn).mp hne
    omega
  have ht := withAddr_touches s k bn b l
  have hnew := hg.owned.direct ((s.withAddr k bn b l).volAt k) hlt hfree hg.live hd
    ((addr_block_direct hd).symm.trans hzero) rfl (withAddr_ino s k bn b l) rfl rfl
  have hself : Shaped ((s.withAddr k bn b l).volAt k) (s.icache k).inum (bn + 1)
      (NDIRECT < cnt (s.icache k).inum) := by
    have hself := hg.self
    rw [← hbn] at hself ⊢
    exact hself.block hb fun p hp => hnew.2 p (hp ▸ hg.live)
  refine ⟨ht, ?_, ?_, ?_, fun _ => Function.update_self .., fun h => by omega, ?_⟩
  · rw [hmax]
    exact hg.attach ht rfl hnew (hself.of_iff (by omega))
  · exact Kept.of_attach hzero hnew.2 fun j bn' hj _ => hg.data_zeroed hlt hfree j bn' hj
  · rw [hnew.2 (.block _ bn) hg.live, if_pos rfl]
  · have := withAddr_free (k := k) hlt hfree bn l
    rw [hmax, ← hbn]
    unfold blocksFor
    rw [if_neg (by omega), if_neg (by omega)]
    omega

theorem Growing.pointer (hg : Growing s k cnt ind) (hlt : b < s.sb.size) (hfree : s.bitmap b = false)
    (hzero : (s.icache k).copy.addrs NDIRECT = 0) (l : List Nat) :
    Growing (s.withAddr k NDIRECT b l) k cnt True ∧ Kept k s (s.withAddr k NDIRECT b l) := by
  have ht := withAddr_touches s k NDIRECT b l
  have hnew := hg.owned.pointer ((s.withAddr k NDIRECT b l).volAt k) hlt hfree hg.live
    (by rw [volAt_self]; exact hzero) rfl (withAddr_ino s k NDIRECT b l) rfl rfl
  have hself := hg.self.pointer (hg.ne_zero hlt hfree) fun p hp => hnew.2 p (hp ▸ hg.live)
  have hgrow := hg.attach ht rfl hnew hself
  rw [Function.update_eq_self] at hgrow
  refine ⟨hgrow, Kept.of_attach ?_ hnew.2 fun j bn hj _ => hg.data_zeroed hlt hfree j bn hj⟩
  show ((s.volAt k).ino (s.icache k).inum).addrs NDIRECT = 0
  rw [volAt_self]
  exact hzero

/-- The state after `balloc` has returned `b` for the entry `j` of the indirect block of the inode in entry `k`. -/
def FS.withEntry (s : FS) (k : IRef) (j b : Nat) (logged : List Nat) : FS :=
  { s with
    bitmap := Function.update s.bitmap b true
    data := Function.update (Function.update s.data b fun _ => 0) ((s.icache k).copy.addrs NDIRECT)
      (setWord j b (s.data ((s.icache k).copy.addrs NDIRECT)))
    logged := logged }

theorem withEntry_touches (s : FS) (k : IRef) (j b : Nat) (l : List Nat) : Touches k s (s.withEntry k j b l) :=
  ⟨(s.icache k).copy.addrs, by simp [FS.withEntry]⟩

theorem Growing.entry (hg : Growing s k cnt True) (hlt : b < s.sb.size) (hfree : s.bitmap b = false)
    (hbn : bn = cnt (s.icache k).inum) (hd : NDIRECT ≤ bn) (hmax : bn < MAXFILE) (l : List Nat) :
    Growing (s.withEntry k (bn - NDIRECT) b l) k (Function.update cnt (s.icache k).inum (bn + 1)) True ∧
      Kept k s (s.withEntry k (bn - NDIRECT) b l) ∧
      ((s.withEntry k (bn - NDIRECT) b l).volAt k).addr (.block (s.icache k).inum bn) = b ∧
      (s.withEntry k (bn - NDIRECT) b l).data b = fun _ => 0 := by
  have ht := withEntry_touches s k (bn - NDIRECT) b l
  have ha : (s.icache k).copy.addrs NDIRECT ≠ 0 := by
    have := hg.self.indirect.mpr trivial
    rwa [show (s.volAt k).addr (.indirect (s.icache k).inum) = ((s.volAt k).ino _).addrs NDIRECT from rfl,
      volAt_self] at this
  have hzero : (s.volAt k).addr (.block (s.icache k).inum bn) = 0 := by
    by_contra hne
    have := (hg.self.mapped bn).mp hne
    omega
  have hnew := hg.owned.entry ((s.withEntry k (bn - NDIRECT) b l).volAt k) hlt hfree hg.live
    (by rw [volAt_self]; exact ha) hd hmax hzero rfl rfl (by rw [volAt_self]; rfl) rfl
  have hself : Shaped ((s.withEntry k (bn - NDIRECT) b l).volAt k) (s.icache k).inum (bn + 1) True := by
    have hself := hg.self
    rw [← hbn] at hself
    exact hself.block (hg.ne_zero hlt hfree) fun p hp => hnew.2 p (hp ▸ hg.live)
  -- neither the new block nor a block of a file is the indirect block
  have hab : (s.icache k).copy.addrs NDIRECT ≠ b := by
    have := hg.owned.fresh_pointer hlt hfree hg.live
    rwa [volAt_self] at this
  refine ⟨hg.attach ht rfl hnew hself, Kept.of_attach hzero hnew.2 fun j bn' hj hne => ?_, ?_, ?_⟩
  · have hother : (s.volAt k).addr (.block j bn') ≠ (s.icache k).copy.addrs NDIRECT := by
      intro heq
      have := hg.owned.inj (.block j bn') (.indirect (s.icache k).inum) hj hg.live hne
        (by rw [heq]; show _ = ((s.volAt k).ino _).addrs NDIRECT; rw [volAt_self])
      cases this
    refine (Function.update_of_ne hother _ _).trans ?_
    exact hg.data_zeroed hlt hfree j bn' hj
  · rw [hnew.2 (.block _ bn) hg.live, if_pos rfl]
  · exact (Function.update_of_ne hab.symm _ _).trans (Function.update_self ..)

theorem Growing.word_eq (hg : Growing s k cnt True) (hd : NDIRECT ≤ bn) (hmax : bn < MAXFILE) :
    word (s.data ((s.icache k).copy.addrs NDIRECT)) (bn - NDIRECT) =
      (s.volAt k).addr (.block (s.icache k).inum bn) := by
  have ha : ((s.volAt k).ino (s.icache k).inum).addrs NDIRECT ≠ 0 := hg.self.indirect.mpr trivial
  rw [addr_block_indirect hd hmax, if_pos ha, volAt_self]
  rfl

theorem bmapEntry_spec {a : Nat} (hg : Growing s k cnt True) (ha : (s.icache k).copy.addrs NDIRECT = a)
    (hd : NDIRECT ≤ bn) (hmax : bn < MAXFILE) (hbn : bn ≤ cnt (s.icache k).inum) :
    Wp (do
        let blk ← look fun s => s.data a
        if word blk (bn - NDIRECT) = 0 then do
          let b ← balloc
          setData a (setWord (bn - NDIRECT) b)
          logWrite a
          return b
        else return word blk (bn - NDIRECT)) s
      (fun b s' => (bn < cnt (s.icache k).inum ∧ s' = s ∧ b = (s.volAt k).addr (.block (s.icache k).inum bn)) ∨
        (bn = cnt (s.icache k).inum ∧ b < s.sb.size ∧ s.bitmap b = false ∧
          ∃ l, s' = s.withEntry k (bn - NDIRECT) b l))
      fun e => OutOfBlocks e ∧ s.free = 0 ∧ bn = cnt (s.icache k).inum := by
  subst ha
  simp only [wp_bind, wp_look, hg.word_eq hd hmax]
  refine Wp.ite (fun hzero => ?_) fun hne => ?_
  · have hbn : bn = cnt (s.icache k).inum := by
      by_contra hne
      exact (hg.self.mapped bn).mpr (by omega) hzero
    refine Wp.bind ((balloc_spec s).mono (fun _ _ h => h) fun e he => ⟨he.1, he.2, hbn⟩) ?_
    rintro b s' ⟨hlt, hfree, hs'⟩
    simp only [setData, logWrite, wp_bind, wp_update, wp_pure]
    refine .inr ⟨hbn, hlt, hfree, (s.icache k).copy.addrs NDIRECT :: s'.logged, ?_⟩
    have hab : (s.icache k).copy.addrs NDIRECT ≠ b := by
      have := hg.owned.fresh_pointer hlt hfree hg.live
      rwa [volAt_self] at this
    rw [hs']
    simp only [FS.withEntry, Function.update_of_ne hab]
  · exact .inl ⟨(hg.self.mapped bn).mp hne, rfl, rfl⟩

theorem Mapped.entry (ht : Touches k s s') (hg : Growing s' k cnt True) (hk : Kept k s s')
    (hpaid : s'.free + blocksFor (cnt (s.icache k).inum + 1) = s.free + blocksFor (cnt (s.icache k).inum) + 1)
    (hlt : b < s'.sb.size) (hfree : s'.bitmap b = false) (hbn : bn = cnt (s.icache k).inum) (hd : NDIRECT ≤ bn)
    (hmax : bn < MAXFILE) (l : List Nat) : Mapped s k cnt bn b (s'.withEntry k (bn - NDIRECT) b l) := by
  have hi := ht.inum
  obtain ⟨hgrow, hkept, haddr, hzero⟩ := hg.entry hlt hfree (by rw [hi]; exact hbn) hd hmax l
  have hcnt : max (cnt (s.icache k).inum) (bn + 1) = bn + 1 := by omega
  have hcount : (s'.withEntry k (bn - NDIRECT) b l).free + 1 = s'.free := freeIn_update hlt hfree
  rw [hi] at hgrow haddr
  refine ⟨ht.trans (withEntry_touches ..), ?_, hk.trans ht hkept, haddr.symm, fun _ => hzero,
    fun h => by omega, ?_⟩
  · rw [hcnt]
    exact ⟨hgrow.owned, hgrow.live, hgrow.self.of_iff (iff_of_true trivial (by omega)), hgrow.others⟩
  · rw [hcnt]
    rw [← hbn] at hpaid ⊢
    omega

theorem bmap_spec (hg : Growing s k cnt (NDIRECT < cnt (s.icache k).inum)) (hbn : bn ≤ cnt (s.icache k).inum)
    (hmax : bn < MAXFILE) :
    Wp (bmap k bn) s (fun b s' => Mapped s k cnt bn b s') fun e => OutOfBlocks e ∧
      s.free + blocksFor (cnt (s.icache k).inum) < blocksFor (max (cnt (s.icache k).inum) (bn + 1)) := by
  have hmapped := hg.self.mapped bn
  unfold bmap
  refine Wp.ite (fun hd => ?_) fun hd => Wp.ite (fun _ => ?_) fun hout => ?_
  · rw [addr_block_direct hd, volAt_self] at hmapped
    refine (bmapAddr_spec s k bn).mono ?_ ?_
    · rintro b s' (⟨hne, rfl, rfl⟩ | ⟨hzero, hlt, hfree, l, rfl⟩)
      · have := Mapped.old hg (hmapped.mp hne)
        rwa [addr_block_direct hd, volAt_self] at this
      · have : ¬ bn < cnt (s.icache k).inum := fun h => hmapped.mpr h hzero
        exact Mapped.direct hg hlt hfree (by omega) hd l
    · rintro e ⟨he, hfull, hzero⟩
      have : ¬ bn < cnt (s.icache k).inum := fun h => hmapped.mpr h hzero
      refine ⟨he, ?_⟩
      unfold blocksFor
      rw [if_neg (by omega), if_neg (by omega)]
      omega
  · have hpointer := hg.self.indirect
    rw [show (s.volAt k).addr (.indirect (s.icache k).inum) = ((s.volAt k).ino _).addrs NDIRECT from rfl,
      volAt_self] at hpointer
    refine Wp.bind ((bmapAddr_spec s k NDIRECT).mono (fun _ _ h => h) ?_) ?_
    · rintro e ⟨he, hfull, hzero⟩
      have : ¬ NDIRECT < cnt (s.icache k).inum := fun h => hpointer.mpr h hzero
      refine ⟨he, ?_⟩
      unfold blocksFor
      rw [if_neg (by omega), if_pos (by omega)]
      omega
    · rintro a s₁ (⟨hne, rfl, rfl⟩ | ⟨hzero, hlt, hfree, l, rfl⟩)
      · -- the indirect block is there
        have hcnt := hpointer.mp hne
        have hg' : Growing s₁ k cnt True :=
          ⟨hg.owned, hg.live, hg.self.of_iff (iff_true_intro hcnt), hg.others⟩
        refine (bmapEntry_spec hg' rfl (by omega) hmax hbn).mono ?_ ?_
        · rintro b s' (⟨hlt, rfl, rfl⟩ | ⟨heq, hlt, hfree, l, rfl⟩)
          · exact Mapped.old hg hlt
          · refine Mapped.entry (.refl k s₁) hg' (.refl k s₁) ?_ hlt hfree heq (by omega) hmax l
            unfold blocksFor
            rw [if_pos (by omega), if_pos hcnt]
            omega
        · rintro e ⟨he, hfull, heq⟩
          refine ⟨he, ?_⟩
          unfold blocksFor
          rw [if_pos hcnt, if_pos (by omega)]
          omega
      · -- it is new, so this is the first block after the direct ones
        have hcnt : ¬ NDIRECT < cnt (s.icache k).inum := fun h => hpointer.mpr h hzero
        obtain ⟨hg', hk⟩ := hg.pointer hlt hfree hzero l
        have ht := withAddr_touches s k NDIRECT a l
        have hpaid := withAddr_free (k := k) hlt hfree NDIRECT l
        have ha : ((s.withAddr k NDIRECT a l).icache k).copy.addrs NDIRECT = a := by
          simp [FS.withAddr]
        have hentry := bmapEntry_spec hg' ha (by omega) hmax (by rw [ht.inum]; exact hbn)
        rw [ht.inum] at hentry
        refine hentry.mono ?_ ?_
        · rintro b s' (⟨hlt, -⟩ | ⟨heq, hlt, hfree, l', rfl⟩)
          · omega
          · refine Mapped.entry ht hg' hk ?_ hlt hfree heq (by omega) hmax l'
            unfold blocksFor
            rw [if_pos (by omega), if_neg hcnt]
            omega
        · rintro e ⟨he, hfull, heq⟩
          refine ⟨he, ?_⟩
          unfold blocksFor
          rw [if_neg hcnt, if_pos (by omega)]
          omega
  · simp only [MAXFILE, NDIRECT, NINDIRECT] at *
    omega

end bmap

/-! ## itrunc -/

/-- The bitmap once the blocks at the places in `S` are freed. -/
def Cleared (v : Vol) (S : Place → Prop) (bitmap : Nat → Bool) : Prop :=
  ∀ b, bitmap b = true ↔ v.bitmap b = true ∧ ¬ (b ≠ 0 ∧ ∃ p, S p ∧ v.addr p = b)

namespace Cleared

variable {v : Vol} {i : Nat} {S S' : Place → Prop} {bitmap : Nat → Bool} {q : Place}

theorem none (v : Vol) (h : ∀ p, ¬ S p) : Cleared v S v.bitmap := fun b => by simp [h]

theorem congr (h : Cleared v S bitmap) (hS : ∀ p, v.addr p ≠ 0 → (S p ↔ S' p)) : Cleared v S' bitmap := by
  intro b
  rw [h b]
  refine and_congr Iff.rfl (not_congr (and_congr_right fun hb => exists_congr fun p => ?_))
  refine and_congr_left fun hp => hS p (hp ▸ hb)

theorem marked (h : Cleared v S bitmap) (hv : Owned v) (hi : v.Live i) (hS : ∀ p, S p → p.inum = i)
    (hqi : q.inum = i) (hq : ¬ S q) (hne : v.addr q ≠ 0) : bitmap (v.addr q) = true := by
  refine (h _).mpr ⟨hv.marked (hqi ▸ hi) hne, fun ⟨_, p, hp, heq⟩ => hq ?_⟩
  rw [← hv.inj p q (hS p hp ▸ hi) (hqi ▸ hi) (heq ▸ hne) heq]
  exact hp

theorem insert (h : Cleared v S bitmap) (hne : v.addr q ≠ 0) :
    Cleared v (fun p => S p ∨ p = q) (Function.update bitmap (v.addr q) false) := by
  intro b
  rw [Function.update_apply]
  split_ifs with hb
  · subst hb
    exact iff_of_false not_false fun hno => hno.2 ⟨hne, q, .inr rfl, rfl⟩
  · rw [h b]
    refine and_congr Iff.rfl (not_congr (and_congr_right fun _ => exists_congr fun p => ?_))
    refine and_congr_left fun hp => (or_iff_left ?_).symm
    rintro rfl
    exact hb hp.symm

end Cleared

theorem bfree_spec {s : FS} {b : Nat} (hb : s.bitmap b = true) :
    Wp (bfree b) s (fun _ s' => s' = { s with
        bitmap := Function.update s.bitmap b false
        logged := s'.logged }) fun _ => False := by
  unfold bfree
  simp only [wp_bind, wp_look]
  refine Wp.ite (fun _ => ?_) fun hn => absurd hb hn
  simp only [logWrite, wp_bind, wp_update]

/-- The state while the inode in entry `k` is truncated. -/
def FS.truncated (s : FS) (k : IRef) (addrs : Nat → Nat) (bitmap : Nat → Bool) (logged : List Nat) : FS :=
  { s with
    bitmap := bitmap
    logged := logged
    icache := Function.update s.icache k
      { s.icache k with copy := { (s.icache k).copy with addrs := addrs } } }

section itrunc

variable {s : FS} {k : IRef}

@[simp] theorem truncated_copy (addrs : Nat → Nat) (bitmap : Nat → Bool) (l : List Nat) :
    ((s.truncated k addrs bitmap l).icache k).copy = { (s.icache k).copy with addrs := addrs } := by
  simp [FS.truncated]

theorem truncated_congr {addrs addrs' : Nat → Nat} (h : ∀ j, addrs j = addrs' j) (bitmap : Nat → Bool)
    (l : List Nat) : s.truncated k addrs bitmap l = s.truncated k addrs' bitmap l := by rw [funext h]

theorem itruncDirects_spec (hv : Owned (s.volAt k)) (hi : (s.volAt k).Live (s.icache k).inum) :
    Wp (each (List.range NDIRECT) (itruncDirect k)) s (fun _ s' => ∃ bitmap l,
        s' = s.truncated k (fun j => if j < NDIRECT then 0 else (s.icache k).copy.addrs j) bitmap l ∧
        Cleared (s.volAt k) (fun p => ∃ j < NDIRECT, p = .block (s.icache k).inum j) bitmap) fun _ => False := by
  refine Wp.range (fun n s' => ∃ bitmap l,
    s' = s.truncated k (fun j => if j < n then 0 else (s.icache k).copy.addrs j) bitmap l ∧
    Cleared (s.volAt k) (fun p => ∃ j < n, p = .block (s.icache k).inum j) bitmap) NDIRECT ?_ ?_
  · rintro n s' hn ⟨bitmap, l, rfl, hbits⟩
    have haddr : (s.volAt k).addr (.block (s.icache k).inum n) = (s.icache k).copy.addrs n := by
      rw [addr_block_direct hn, volAt_self]
    unfold itruncDirect
    simp only [Fs.inode, wp_bind, wp_look, truncated_copy, lt_irrefl, if_false]
    refine Wp.ite (fun hzero => ⟨bitmap, l, ?_, hbits.congr fun p hp => ?_⟩) fun hne => ?_
    · refine truncated_congr (fun j => ?_) bitmap l
      by_cases hj : j = n
      · simp [hj, hzero]
      · have : j < n ↔ j < n + 1 := by omega
        simp [this]
    · refine exists_congr fun j => and_congr_left fun heq => ⟨fun hj => by omega, fun hj => ?_⟩
      have : j ≠ n := by
        rintro rfl
        rw [heq, haddr] at hp
        exact hp hzero
      omega
    · have hmark := hbits.marked (q := .block (s.icache k).inum n) hv hi
        (by rintro p ⟨j, -, rfl⟩; rfl) rfl
        (by rintro ⟨j, hj, heq⟩; injection heq; omega) (haddr ▸ hne)
      have hins := hbits.insert (q := .block (s.icache k).inum n) (haddr ▸ hne)
      rw [haddr] at hmark hins
      refine Wp.bind (bfree_spec hmark) ?_
      rintro _ s' hs'
      simp only [setCopy, setInode, wp_update]
      refine ⟨_, s'.logged, ?_, hins.congr fun p _ => ?_⟩
      · rw [hs']
        simp only [FS.truncated, Function.update_idem, Function.update_self]
        refine truncated_congr (fun j => ?_) _ s'.logged
        simp only [Function.update_apply]
        split_ifs <;> first | rfl | omega
      · refine ⟨?_, ?_⟩
        · rintro (⟨j, hj, heq⟩ | heq)
          · exact ⟨j, by omega, heq⟩
          · exact ⟨n, by omega, heq⟩
        · rintro ⟨j, hj, heq⟩
          by_cases hjn : j = n
          · exact .inr (hjn ▸ heq)
          · exact .inl ⟨j, by omega, heq⟩
  · refine ⟨s.bitmap, s.logged, ?_, .none _ (by simp)⟩
    simp [FS.truncated]

theorem itruncIndirect_spec {addrs : Nat → Nat} {bitmap : Nat → Bool} {l : List Nat} {S : Place → Prop}
    (hv : Owned (s.volAt k)) (hi : (s.volAt k).Live (s.icache k).inum)
    (ha : addrs NDIRECT = (s.icache k).copy.addrs NDIRECT) (hbits : Cleared (s.volAt k) S bitmap)
    (hS : ∀ p, S p ↔ ∃ j < NDIRECT, p = .block (s.icache k).inum j) :
    Wp (itruncIndirect k) (s.truncated k addrs bitmap l) (fun _ s' => ∃ bitmap l,
        s' = s.truncated k (Function.update addrs NDIRECT 0) bitmap l ∧
        Cleared (s.volAt k) (fun p => p.inum = (s.icache k).inum) bitmap) fun _ => False := by
  have hpointer : (s.volAt k).addr (.indirect (s.icache k).inum) = addrs NDIRECT := by
    rw [ha]
    show ((s.volAt k).ino _).addrs NDIRECT = _
    rw [volAt_self]
  unfold itruncIndirect
  simp only [Fs.inode, wp_bind, wp_look, truncated_copy]
  refine Wp.ite (fun hzero => ⟨bitmap, l, ?_, hbits.congr fun p hp => ?_⟩) fun hne => ?_
  · refine truncated_congr (fun j => ?_) bitmap l
    rw [Function.update_apply]
    split_ifs with hj
    · rw [hj, hzero]
    · rfl
  · -- without an indirect block only the direct addresses count
    rw [hS]
    refine ⟨by rintro ⟨j, -, rfl⟩; rfl, fun hpi => ?_⟩
    cases p with
    | indirect m => exact absurd ((congrArg _ (congrArg _ hpi)).trans (hpointer.trans hzero)) hp
    | block m bn =>
      obtain rfl : m = (s.icache k).inum := hpi
      refine ⟨bn, ?_, rfl⟩
      by_contra hbn
      refine hp ?_
      show addrOf _ _ _ = 0
      unfold addrOf
      rw [if_neg hbn, volAt_self, if_neg]
      rintro ⟨-, hne⟩
      exact hne (ha ▸ hzero)
  · have hword : ∀ j < NINDIRECT, word (s.data (addrs NDIRECT)) j =
        (s.volAt k).addr (.block (s.icache k).inum (NDIRECT + j)) := by
      intro j hj
      have hadd : NDIRECT + j - NDIRECT = j := by omega
      rw [addr_block_indirect (by omega) (by simp only [MAXFILE]; omega), volAt_self, ← ha, if_pos hne, hadd]
      rfl
    have hloop : Wp (each (List.range NINDIRECT) fun j =>
        if word (s.data (addrs NDIRECT)) j = 0 then pure () else bfree (word (s.data (addrs NDIRECT)) j))
        (s.truncated k addrs bitmap l) (fun _ s' => ∃ bitmap l, s' = s.truncated k addrs bitmap l ∧
          Cleared (s.volAt k) (fun p => ∃ j < NDIRECT + NINDIRECT, p = .block (s.icache k).inum j) bitmap)
        fun _ => False := by
      refine Wp.range (fun n s' => ∃ bitmap l, s' = s.truncated k addrs bitmap l ∧
        Cleared (s.volAt k) (fun p => ∃ j < NDIRECT + n, p = .block (s.icache k).inum j) bitmap) _ ?_ ?_
      · rintro n s' hn ⟨bitmap, l, rfl, hbits⟩
        rw [hword n hn]
        refine Wp.ite (fun hzero => ⟨bitmap, l, rfl, hbits.congr fun p hp => ?_⟩) fun hne => ?_
        · refine exists_congr fun j => and_congr_left fun heq => ⟨fun hj => by omega, fun hj => ?_⟩
          have : j ≠ NDIRECT + n := by
            rintro rfl
            exact hp (heq ▸ hzero)
          omega
        · have hmark := hbits.marked (q := .block (s.icache k).inum (NDIRECT + n)) hv hi
            (by rintro p ⟨j, -, rfl⟩; rfl) rfl
            (by rintro ⟨j, hj, heq⟩; injection heq; omega) hne
          refine (bfree_spec hmark).imp fun _ s' hs' => ⟨_, s'.logged, hs', (hbits.insert hne).congr fun p _ => ?_⟩
          refine ⟨?_, ?_⟩
          · rintro (⟨j, hj, heq⟩ | heq)
            · exact ⟨j, by omega, heq⟩
            · exact ⟨NDIRECT + n, by omega, heq⟩
          · rintro ⟨j, hj, heq⟩
            by_cases hjn : j = NDIRECT + n
            · exact .inr (hjn ▸ heq)
            · exact .inl ⟨j, by omega, heq⟩
      · exact ⟨bitmap, l, rfl, hbits.congr fun p _ => hS p⟩
    rw [wp_bind, wp_look]
    refine Wp.bind hloop ?_
    rintro _ s' ⟨bitmap, l, rfl, hbits⟩
    have hmark := hbits.marked (q := .indirect (s.icache k).inum) hv hi
      (by rintro p ⟨j, -, rfl⟩; rfl) rfl (by rintro ⟨j, -, heq⟩; cases heq) (hpointer ▸ hne)
    have hins := hbits.insert (q := .indirect (s.icache k).inum) (hpointer ▸ hne)
    rw [hpointer] at hmark hins
    refine Wp.bind (bfree_spec hmark) ?_
    rintro _ s' hs'
    simp only [setCopy, setInode, wp_update]
    refine ⟨_, s'.logged, ?_, hins.congr fun p hp => ?_⟩
    · rw [hs']
      simp only [FS.truncated, Function.update_idem, Function.update_self]
    · refine ⟨?_, fun hpi => ?_⟩
      · rintro (⟨j, hj, rfl⟩ | rfl)
        · rfl
        · rfl
      · cases p with
        | indirect m => exact .inr (by rw [show m = (s.icache k).inum from hpi])
        | block m bn =>
          obtain rfl : m = (s.icache k).inum := hpi
          refine .inl ⟨bn, ?_, rfl⟩
          by_contra hbn
          exact hp (addr_block_beyond (by simp only [MAXFILE]; omega))

theorem itrunc_spec (hv : Owned (s.volAt k)) (hi : (s.volAt k).Live (s.icache k).inum) :
    Wp (itrunc k) s (fun _ s' => ∃ bitmap l d, d.type = (s.icache k).copy.type ∧ d.size = 0 ∧
        (∀ j ≤ NDIRECT, d.addrs j = 0) ∧ Cleared (s.volAt k) (fun p => p.inum = (s.icache k).inum) bitmap ∧
        s' = { s with
          inode := Function.update s.inode (s.icache k).inum d
          bitmap := bitmap
          icache := Function.update s.icache k { s.icache k with copy := d }
          logged := l }) fun _ => False := by
  unfold itrunc
  refine Wp.bind (itruncDirects_spec hv hi) ?_
  rintro _ s₁ ⟨bitmap₁, l₁, rfl, hbits₁⟩
  refine Wp.bind (itruncIndirect_spec hv hi (if_neg (lt_irrefl _)) hbits₁ fun _ => Iff.rfl) ?_
  rintro _ s₂ ⟨bitmap, l, rfl, hbits⟩
  simp only [setCopy, setInode, iupdate, Fs.inode, logWrite, wp_bind, wp_look, wp_update]
  refine ⟨bitmap, s.sb.iblock (s.icache k).inum :: l, { (s.icache k).copy with
    size := 0
    addrs := Function.update (fun j => if j < NDIRECT then 0 else (s.icache k).copy.addrs j) NDIRECT 0 },
    rfl, rfl, fun j hj => ?_, hbits, ?_⟩
  · simp only [Function.update_apply]
    split_ifs <;> first | rfl | omega
  · simp only [FS.truncated, Function.update_idem, Function.update_self]

theorem Owned.release {v : Vol} {i : Nat} {d : Dinode} {bitmap : Nat → Bool} (hv : Owned v) (hi : v.Live i)
    (hd : d.type = .free) (hzero : ∀ j ≤ NDIRECT, d.addrs j = 0)
    (hbits : Cleared v (fun p => p.inum = i) bitmap) :
    Owned { v with ino := Function.update v.ino i d, bitmap := bitmap } := by
  have hlive : ∀ j, Vol.Live { v with ino := Function.update v.ino i d, bitmap := bitmap } j ↔ j ≠ i ∧ v.Live j := by
    intro j
    unfold Vol.Live
    simp only [Function.update_apply]
    split_ifs with hj
    · simp [hj, hd]
    · simp [hj]
  refine hv.clear hi rfl (fun j hj => ((hlive j).mp hj).2) (fun j hne hj => (hlive j).mpr ⟨hne, hj⟩)
    (fun p hp => addr_eq_zero ?_) (fun p _ hp => addr_congr ?_ fun _ => rfl) fun b _ => hbits b
  · rw [hp]
    simpa using hzero
  · simp [hp]

/-- What `iput` does with the inode in entry `k`: its blocks become free, and it is not allocated any more. -/
theorem ifree_spec (hv : Owned s.vol) (hcopy : (s.icache k).copy = s.inode (s.icache k).inum)
    (hi : s.vol.Live (s.icache k).inum) :
    Wp (ifree k) s (fun _ s' => ∃ bitmap l d, d.type = .free ∧ Owned s'.vol ∧
        s' = { s with
          inode := Function.update s.inode (s.icache k).inum d
          bitmap := bitmap
          icache := Function.update s.icache k { s.icache k with copy := d, valid := false }
          logged := l }) fun _ => False := by
  have hvol : s.volAt k = s.vol := by
    unfold FS.volAt FS.vol
    rw [hcopy, Function.update_eq_self]
  unfold ifree
  refine Wp.bind (itrunc_spec (hvol ▸ hv) (hvol ▸ hi)) ?_
  rintro _ s₁ ⟨bitmap, l, d, -, -, hzero, hbits, rfl⟩
  rw [hvol] at hbits
  simp only [setCopy, setInode, iupdate, Fs.inode, logWrite, wp_bind, wp_look, wp_update, Function.update_idem,
    Function.update_self]
  exact ⟨bitmap, s.sb.iblock (s.icache k).inum :: l, { d with type := .free }, rfl,
    hv.release hi rfl hzero hbits, rfl⟩

end itrunc

end Xv6Mlfq.Fs
