import Xv6Mlfq.Fs.Inode

/-!
# Who owns which block

`Vol` is the disk as the running code sees it: the inodes (for an inode that is being changed, its copy in the
cache), the bitmap and the blocks. A `Place` is somewhere a block number is stored: the indirect address of an
inode, or the address of its block `bn` as `bmap` reads it. `Owned` says that the bitmap and the places agree,
and that no block is in two places; `Shaped` says which places of an inode are in use, where `cnt i` is the number
of blocks of inode `i`. The lemmas are the three ways in which `bmap` puts a new block into a place
(`Owned.direct`, `Owned.pointer`, `Owned.entry`) and the way in which `itrunc` empties all places of an inode
(`Owned.clear`).
-/

namespace Xv6Mlfq.Fs

def Superblock.dataStart (sb : Superblock) : Nat := sb.size - sb.nblocks

theorem Superblock.dataStart_pos (sb : Superblock) : 0 < sb.dataStart := Nat.sub_pos_of_lt sb.nblocks_lt

def Superblock.InData (sb : Superblock) (b : Nat) : Prop := sb.dataStart ≤ b ∧ b < sb.size

theorem Superblock.InData.ne_zero {sb : Superblock} {b : Nat} (hb : sb.InData b) : b ≠ 0 := by
  have := sb.dataStart_pos
  have := hb.1
  omega

instance (sb : Superblock) (b : Nat) : Decidable (sb.InData b) := inferInstanceAs (Decidable (_ ∧ _))

/-! ## Places -/

/-- The address of block `bn` of an inode, 0 if there is none. -/
def addrOf (data : Nat → Block) (d : Dinode) (bn : Nat) : Nat :=
  if bn < NDIRECT then d.addrs bn
  else if bn < MAXFILE ∧ d.addrs NDIRECT ≠ 0 then word (data (d.addrs NDIRECT)) (bn - NDIRECT)
  else 0

structure Vol where
  sb : Superblock
  ino : Nat → Dinode
  bitmap : Nat → Bool
  data : Nat → Block

inductive Place where
  | indirect (i : Nat)
  | block (i bn : Nat)
  deriving DecidableEq

def Place.inum : Place → Nat
  | .indirect i => i
  | .block i _ => i

namespace Vol

def Live (v : Vol) (i : Nat) : Prop := i < v.sb.ninodes ∧ (v.ino i).type ≠ .free

def addr (v : Vol) : Place → Nat
  | .indirect i => (v.ino i).addrs NDIRECT
  | .block i bn => addrOf v.data (v.ino i) bn

end Vol

/-- Every place holds a block of the data region that no other place holds, and the bitmap marks exactly these
blocks and everything outside the data region. -/
structure Owned (v : Vol) : Prop where
  region : ∀ p, v.Live p.inum → v.addr p ≠ 0 → v.sb.InData (v.addr p)
  inj : ∀ p q, v.Live p.inum → v.Live q.inum → v.addr p ≠ 0 → v.addr p = v.addr q → p = q
  bits : ∀ b, b < v.sb.size → (v.bitmap b = true ↔ ¬ v.sb.InData b ∨ ∃ p, v.Live p.inum ∧ v.addr p = b)

/-- Block `bn` of an inode is mapped iff `bn < cnt`, and the indirect block is there iff `ind`. -/
structure Shaped (v : Vol) (i cnt : Nat) (ind : Prop) : Prop where
  mapped : ∀ bn, v.addr (.block i bn) ≠ 0 ↔ bn < cnt
  indirect : v.addr (.indirect i) ≠ 0 ↔ ind

section basic

variable {v v' : Vol} {i j b bn cnt : Nat} {ind : Prop} {p q : Place}

theorem addr_block_direct (h : bn < NDIRECT) : v.addr (.block i bn) = (v.ino i).addrs bn := if_pos h

theorem addr_block_indirect (h : NDIRECT ≤ bn) (hbn : bn < MAXFILE) :
    v.addr (.block i bn) =
      if (v.ino i).addrs NDIRECT ≠ 0 then word (v.data ((v.ino i).addrs NDIRECT)) (bn - NDIRECT) else 0 := by
  show addrOf _ _ _ = _
  unfold addrOf
  rw [if_neg (by omega)]
  by_cases ha : (v.ino i).addrs NDIRECT ≠ 0
  · rw [if_pos ⟨hbn, ha⟩, if_pos ha]
  · rw [if_neg (fun hc => ha hc.2), if_neg ha]

theorem addr_block_beyond (hbn : MAXFILE ≤ bn) : v.addr (.block i bn) = 0 := by
  show addrOf _ _ _ = _
  unfold addrOf
  simp only [MAXFILE, NDIRECT, NINDIRECT] at *
  rw [if_neg (by omega), if_neg (by omega)]

theorem addr_congr (haddrs : (v'.ino p.inum).addrs = (v.ino p.inum).addrs)
    (hdata : (v.ino p.inum).addrs NDIRECT ≠ 0 →
      v'.data ((v.ino p.inum).addrs NDIRECT) = v.data ((v.ino p.inum).addrs NDIRECT)) :
    v'.addr p = v.addr p := by
  cases p with
  | indirect i => exact congrFun haddrs NDIRECT
  | block i bn =>
    simp only [Place.inum] at haddrs hdata
    show addrOf _ _ _ = addrOf _ _ _
    unfold addrOf
    rw [haddrs]
    by_cases ha : (v.ino i).addrs NDIRECT ≠ 0
    · rw [hdata ha]
    · simp [ha]

theorem addr_eq_zero (h : ∀ j ≤ NDIRECT, (v.ino p.inum).addrs j = 0) : v.addr p = 0 := by
  cases p with
  | indirect i => exact h NDIRECT le_rfl
  | block i bn =>
    show addrOf _ _ _ = 0
    unfold addrOf
    split_ifs with hd hi
    · exact h bn (by omega)
    · exact absurd (h NDIRECT le_rfl) hi.2
    · rfl

theorem Shaped.cnt_le (hs : Shaped v i cnt ind) : cnt ≤ MAXFILE := by
  by_contra hlt
  exact (hs.mapped MAXFILE).mpr (by omega) (addr_block_beyond le_rfl)

theorem Shaped.congr (hs : Shaped v i cnt ind) (h : ∀ p, p.inum = i → v'.addr p = v.addr p) :
    Shaped v' i cnt ind :=
  ⟨fun bn => by rw [h _ rfl]; exact hs.mapped bn, by rw [h _ rfl]; exact hs.indirect⟩

theorem Shaped.of_iff {ind' : Prop} (hs : Shaped v i cnt ind) (h : ind ↔ ind') : Shaped v i cnt ind' :=
  ⟨hs.mapped, hs.indirect.trans h⟩

theorem Shaped.block (hs : Shaped v i cnt ind) (hb : b ≠ 0)
    (haddr : ∀ p, p.inum = i → v'.addr p = if p = .block i cnt then b else v.addr p) :
    Shaped v' i (cnt + 1) ind := by
  refine ⟨fun bn => ?_, ?_⟩
  · rw [haddr (.block i bn) rfl]
    split_ifs with heq
    · obtain rfl : bn = cnt := by injection heq
      exact iff_of_true hb (by omega)
    · rw [hs.mapped]
      have hne : bn ≠ cnt := fun h => heq (by rw [h])
      omega
  · rw [haddr (.indirect i) rfl, if_neg nofun]
    exact hs.indirect

theorem Shaped.pointer (hs : Shaped v i cnt ind) (hb : b ≠ 0)
    (haddr : ∀ p, p.inum = i → v'.addr p = if p = .indirect i then b else v.addr p) : Shaped v' i cnt True := by
  refine ⟨fun bn => ?_, ?_⟩
  · rw [haddr (.block i bn) rfl, if_neg nofun]
    exact hs.mapped bn
  · rw [haddr (.indirect i) rfl, if_pos rfl]
    exact iff_of_true hb trivial

namespace Owned

theorem marked (h : Owned v) (hp : v.Live p.inum) (hne : v.addr p ≠ 0) : v.bitmap (v.addr p) = true := by
  have hb := h.region p hp hne
  exact (h.bits _ hb.2).mpr (.inr ⟨p, hp, rfl⟩)

theorem fresh (h : Owned v) (hlt : b < v.sb.size) (hfree : v.bitmap b = false) :
    v.sb.InData b ∧ ∀ p, v.Live p.inum → v.addr p ≠ b := by
  have hno : ¬ (¬ v.sb.InData b ∨ ∃ p, v.Live p.inum ∧ v.addr p = b) := by
    intro hc
    rw [(h.bits b hlt).mpr hc] at hfree
    cases hfree
  rw [not_or, not_not, not_exists] at hno
  exact ⟨hno.1, fun p hp heq => hno.2 p ⟨hp, heq⟩⟩

theorem fresh_pointer (h : Owned v) (hlt : b < v.sb.size) (hfree : v.bitmap b = false) (hj : v.Live j) :
    (v.ino j).addrs NDIRECT ≠ b := (h.fresh hlt hfree).2 (.indirect j) hj

theorem attach (h : Owned v) (hlt : b < v.sb.size) (hfree : v.bitmap b = false) (hsb : v'.sb = v.sb)
    (hlive : ∀ j, v'.Live j ↔ v.Live j) (hq : v.Live q.inum) (hzero : v.addr q = 0)
    (haddr : ∀ p, v.Live p.inum → v'.addr p = if p = q then b else v.addr p)
    (hbits : v'.bitmap = Function.update v.bitmap b true) : Owned v' := by
  obtain ⟨hdata, hnew⟩ := h.fresh hlt hfree
  refine ⟨fun p hp hne => ?_, fun p p' hp hp' hne heq => ?_, fun c hc => ?_⟩
  · have hp := (hlive _).mp hp
    rw [haddr p hp] at hne ⊢
    rw [hsb]
    split_ifs at hne ⊢ with hpq
    · exact hdata
    · exact h.region p hp hne
  · have hp := (hlive _).mp hp
    have hp' := (hlive _).mp hp'
    rw [haddr p hp] at hne heq
    rw [haddr p' hp'] at heq
    split_ifs at hne heq with h₁ h₂ h₂
    · rw [h₁, h₂]
    · exact absurd heq.symm (hnew p' hp')
    · exact absurd heq (hnew p hp)
    · exact h.inj p p' hp hp' hne heq
  · rw [hsb] at hc ⊢
    rw [hbits, Function.update_apply]
    split_ifs with hcb
    · subst hcb
      refine iff_of_true rfl (.inr ⟨q, (hlive _).mpr hq, ?_⟩)
      rw [haddr q hq, if_pos rfl]
    · rw [h.bits c hc]
      by_cases hin : v.sb.InData c
      · refine or_congr Iff.rfl ⟨fun ⟨p, hp, heq⟩ => ⟨p, (hlive _).mpr hp, ?_⟩, fun ⟨p, hp, heq⟩ => ?_⟩
        · rw [haddr p hp, if_neg ?_, heq]
          intro hpq
          rw [hpq, hzero] at heq
          exact hin.ne_zero heq.symm
        · have hp := (hlive _).mp hp
          rw [haddr p hp] at heq
          split_ifs at heq with hpq
          · exact absurd heq.symm hcb
          · exact ⟨p, hp, heq⟩
      · exact iff_of_true (.inl hin) (.inl hin)

theorem direct (h : Owned v) (v' : Vol) (hlt : b < v.sb.size) (hfree : v.bitmap b = false) (hi : v.Live i)
    (hbn : bn < NDIRECT) (hzero : (v.ino i).addrs bn = 0) (hsb : v'.sb = v.sb)
    (hino : v'.ino = Function.update v.ino i
      { v.ino i with addrs := Function.update (v.ino i).addrs bn b })
    (hdata : v'.data = Function.update v.data b fun _ => 0)
    (hbits : v'.bitmap = Function.update v.bitmap b true) :
    Owned v' ∧ ∀ p, v.Live p.inum → v'.addr p = if p = .block i bn then b else v.addr p := by
  have haddr : ∀ p, v.Live p.inum → v'.addr p = if p = .block i bn then b else v.addr p := by
    intro p hp
    have hkeep : v'.data ((v.ino p.inum).addrs NDIRECT) = v.data ((v.ino p.inum).addrs NDIRECT) := by
      rw [hdata, Function.update_of_ne (h.fresh_pointer hlt hfree hp)]
    by_cases hpi : p.inum = i
    · -- the other addresses of the inode, the indirect one among them, stay
      have hind : (v'.ino i).addrs NDIRECT = (v.ino i).addrs NDIRECT := by
        rw [hino, Function.update_self]
        exact Function.update_of_ne (by omega) _ _
      cases p with
      | indirect m =>
        obtain rfl : m = i := hpi
        rw [if_neg nofun]
        exact hind
      | block m bn' =>
        obtain rfl : m = i := hpi
        simp only [Place.inum] at hkeep
        by_cases hd : bn' < NDIRECT
        · rw [addr_block_direct hd, addr_block_direct hd, hino, Function.update_self]
          simp only [Function.update_apply, Place.block.injEq, true_and]
        · rw [if_neg (by rintro ⟨⟩; omega)]
          show addrOf _ _ _ = addrOf _ _ _
          unfold addrOf
          rw [if_neg hd, if_neg hd, hind, hkeep]
    · rw [if_neg (by rintro rfl; exact hpi rfl)]
      refine addr_congr ?_ fun _ => hkeep
      rw [hino, Function.update_of_ne hpi]
  have hlive : ∀ j, v'.Live j ↔ v.Live j := by
    intro j
    unfold Vol.Live
    rw [hsb, hino, Function.update_apply]
    split_ifs with hj
    · rw [hj]
    · exact Iff.rfl
  refine ⟨h.attach hlt hfree hsb hlive (q := .block i bn) hi ?_ haddr hbits, haddr⟩
  rw [addr_block_direct hbn, hzero]

theorem pointer (h : Owned v) (v' : Vol) (hlt : b < v.sb.size) (hfree : v.bitmap b = false) (hi : v.Live i)
    (hzero : (v.ino i).addrs NDIRECT = 0) (hsb : v'.sb = v.sb)
    (hino : v'.ino = Function.update v.ino i
      { v.ino i with addrs := Function.update (v.ino i).addrs NDIRECT b })
    (hdata : v'.data = Function.update v.data b fun _ => 0)
    (hbits : v'.bitmap = Function.update v.bitmap b true) :
    Owned v' ∧ ∀ p, v.Live p.inum → v'.addr p = if p = .indirect i then b else v.addr p := by
  have haddr : ∀ p, v.Live p.inum → v'.addr p = if p = .indirect i then b else v.addr p := by
    intro p hp
    by_cases hpi : p.inum = i
    · have haddrs : (v'.ino i).addrs = Function.update (v.ino i).addrs NDIRECT b := by
        rw [hino, Function.update_self]
      cases p with
      | indirect m =>
        obtain rfl : m = i := hpi
        rw [if_pos rfl]
        show (v'.ino m).addrs NDIRECT = b
        rw [haddrs, Function.update_self]
      | block m bn =>
        obtain rfl : m = i := hpi
        rw [if_neg nofun]
        by_cases hd : bn < NDIRECT
        · rw [addr_block_direct hd, addr_block_direct hd, haddrs, Function.update_of_ne (by omega)]
        · -- the new indirect block is zero, so the addresses in it are as before
          show addrOf _ _ _ = addrOf _ _ _
          unfold addrOf
          rw [if_neg hd, if_neg hd, haddrs, Function.update_self, hdata, Function.update_self, hzero]
          simp
    · rw [if_neg (by rintro rfl; exact hpi rfl)]
      refine addr_congr ?_ fun _ => ?_
      · rw [hino, Function.update_of_ne hpi]
      · rw [hdata, Function.update_of_ne (h.fresh_pointer hlt hfree hp)]
  have hlive : ∀ j, v'.Live j ↔ v.Live j := by
    intro j
    unfold Vol.Live
    rw [hsb, hino, Function.update_apply]
    split_ifs with hj
    · rw [hj]
    · exact Iff.rfl
  exact ⟨h.attach hlt hfree hsb hlive (q := .indirect i) hi hzero haddr hbits, haddr⟩

theorem entry (h : Owned v) (v' : Vol) (hlt : b < v.sb.size) (hfree : v.bitmap b = false) (hi : v.Live i)
    (ha : (v.ino i).addrs NDIRECT ≠ 0) (hbn : NDIRECT ≤ bn) (hmax : bn < MAXFILE)
    (hzero : v.addr (.block i bn) = 0) (hsb : v'.sb = v.sb) (hino : v'.ino = v.ino)
    (hdata : v'.data = Function.update (Function.update v.data b fun _ => 0) ((v.ino i).addrs NDIRECT)
      (setWord (bn - NDIRECT) b (v.data ((v.ino i).addrs NDIRECT))))
    (hbits : v'.bitmap = Function.update v.bitmap b true) :
    Owned v' ∧ ∀ p, v.Live p.inum → v'.addr p = if p = .block i bn then b else v.addr p := by
  have hword : b < UINT := hlt.trans v.sb.size_lt
  have haddr : ∀ p, v.Live p.inum → v'.addr p = if p = .block i bn then b else v.addr p := by
    intro p hp
    by_cases hpi : p.inum = i
    · cases p with
      | indirect m =>
        rw [if_neg nofun]
        show (v'.ino m).addrs NDIRECT = (v.ino m).addrs NDIRECT
        rw [hino]
      | block m bn' =>
        obtain rfl : m = i := hpi
        by_cases hd : bn' < NDIRECT
        · rw [addr_block_direct hd, addr_block_direct hd, hino, if_neg (by rintro ⟨⟩; omega)]
        · by_cases hm : bn' < MAXFILE
          · rw [addr_block_indirect (by omega) hm, addr_block_indirect (by omega) hm, hino, if_pos ha,
              if_pos ha, hdata, Function.update_self, word_setWord _ _ _ hword]
            have hiff : bn' - NDIRECT = bn - NDIRECT ↔ Place.block m bn' = Place.block m bn := by
              simp only [Place.block.injEq, true_and]
              omega
            simp only [hiff]
          · rw [addr_block_beyond (by omega), addr_block_beyond (by omega), if_neg (by rintro ⟨⟩; omega)]
    · rw [if_neg (by rintro rfl; exact hpi rfl)]
      refine addr_congr (by rw [hino]) fun hne => ?_
      -- no two inodes share an indirect block
      have hother : (v.ino p.inum).addrs NDIRECT ≠ (v.ino i).addrs NDIRECT := by
        intro heq
        have := h.inj (.indirect p.inum) (.indirect i) hp hi hne heq
        exact hpi (by injection this)
      rw [hdata, Function.update_of_ne hother, Function.update_of_ne (h.fresh_pointer hlt hfree hp)]
  refine ⟨h.attach hlt hfree hsb (fun j => ?_) (q := .block i bn) hi hzero haddr hbits, haddr⟩
  unfold Vol.Live
  rw [hsb, hino]

theorem clear (h : Owned v) (hi : v.Live i) (hsb : v'.sb = v.sb) (hlive : ∀ j, v'.Live j → v.Live j)
    (hkeep : ∀ j, j ≠ i → v.Live j → v'.Live j)
    (hzero : ∀ p, p.inum = i → v'.addr p = 0) (haddr : ∀ p, v.Live p.inum → p.inum ≠ i → v'.addr p = v.addr p)
    (hbits : ∀ b, b < v.sb.size → (v'.bitmap b = true ↔
      v.bitmap b = true ∧ ¬ (b ≠ 0 ∧ ∃ p, p.inum = i ∧ v.addr p = b))) : Owned v' := by
  have hother : ∀ p, v'.addr p ≠ 0 → p.inum ≠ i := fun p hne hpi => hne (hzero p hpi)
  refine ⟨fun p hp hne => ?_, fun p q hp hq hne heq => ?_, fun b hb => ?_⟩
  · have hpi := hother p hne
    rw [haddr p (hlive _ hp) hpi] at hne ⊢
    rw [hsb]
    exact h.region p (hlive _ hp) hne
  · have hpi := hother p hne
    have hqi := hother q (heq ▸ hne)
    rw [haddr p (hlive _ hp) hpi] at hne heq
    rw [haddr q (hlive _ hq) hqi] at heq
    exact h.inj p q (hlive _ hp) (hlive _ hq) hne heq
  · rw [hsb] at hb ⊢
    rw [hbits b hb, h.bits b hb]
    by_cases hin : v.sb.InData b
    · have hb0 := hin.ne_zero
      constructor
      · rintro ⟨hno | ⟨p, hp, heq⟩, hnot⟩
        · exact .inl hno
        · have hpi : p.inum ≠ i := fun hpi => hnot ⟨hb0, p, hpi, heq⟩
          exact .inr ⟨p, hkeep _ hpi hp, (haddr p hp hpi).trans heq⟩
      · rintro (hno | ⟨p, hp, heq⟩)
        · exact absurd hin hno
        · have hpi := hother p (heq ▸ hb0)
          rw [haddr p (hlive _ hp) hpi] at heq
          refine ⟨.inr ⟨p, hlive _ hp, heq⟩, fun ⟨_, q, hqi, hq⟩ => ?_⟩
          -- a block of another inode is not a block of `i`
          have := h.inj p q (hlive _ hp) (hqi ▸ hi) (heq ▸ hb0) (heq.trans hq.symm)
          exact hpi (this ▸ hqi)
    · refine iff_of_true ⟨.inl hin, fun ⟨hb0, p, hpi, heq⟩ => hin ?_⟩ (.inl hin)
      rw [← heq]
      exact h.region p (hpi ▸ hi) (heq ▸ hb0)

theorem congr (h : Owned v) (hsb : v'.sb = v.sb) (haddr : ∀ p, v.Live p.inum → v'.Live p.inum → v'.addr p = v.addr p)
    (hnew : ∀ p, v'.Live p.inum → ¬ v.Live p.inum → v'.addr p = 0)
    (hgone : ∀ p, v.Live p.inum → ¬ v'.Live p.inum → v.addr p = 0)
    (hbits : v'.bitmap = v.bitmap) : Owned v' := by
  have hlive : ∀ p, v'.Live p.inum → v'.addr p ≠ 0 → v.Live p.inum := by
    intro p hp hne
    by_contra hno
    exact hne (hnew p hp hno)
  refine ⟨fun p hp hne => ?_, fun p q hp hq hne heq => ?_, fun b hb => ?_⟩
  · have hp' := hlive p hp hne
    rw [haddr p hp' hp] at hne ⊢
    rw [hsb]
    exact h.region p hp' hne
  · have hp' := hlive p hp hne
    have hq' := hlive q hq (heq ▸ hne)
    rw [haddr p hp' hp] at hne heq
    rw [haddr q hq' hq] at heq
    exact h.inj p q hp' hq' hne heq
  · rw [hsb] at hb ⊢
    rw [hbits, h.bits b hb]
    by_cases hin : v.sb.InData b
    · have hb0 := hin.ne_zero
      refine or_congr Iff.rfl ⟨fun ⟨p, hp, heq⟩ => ?_, fun ⟨p, hp, heq⟩ => ?_⟩
      · have hp' : v'.Live p.inum := by
          by_contra hno
          exact hb0 (heq.symm.trans (hgone p hp hno))
        exact ⟨p, hp', (haddr p hp hp').trans heq⟩
      · have hp' := hlive p hp (heq ▸ hb0)
        exact ⟨p, hp', (haddr p hp' hp).symm.trans heq⟩
    · exact iff_of_true (.inl hin) (.inl hin)

end Owned

end basic

end Xv6Mlfq.Fs
