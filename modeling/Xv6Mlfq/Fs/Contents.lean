import Xv6Mlfq.Fs.Bmap

/-!
# The contents of an inode

`Vol.byte v i m` is byte `m` of inode `i`, found through its addresses, and `Node` is what is left of an inode once the
blocks are hidden: its fields and the list of its bytes. A `View` is the file system without blocks. `Good` is what
holds between the functions of fs.c: the blocks are `Owned`, an inode has as many blocks as its size needs, and a valid
entry of the inode cache agrees with the disk. In a good state `readi` returns a slice of the bytes and changes nothing
(`readi_spec`), and `writei` replaces one (`writei_spec`).
-/

namespace Xv6Mlfq.Fs

open Lib

def blocksIn (size : Nat) : Nat := (size + (BSIZE - 1)) / BSIZE

theorem blocksIn_mono {m n : Nat} (h : m ≤ n) : blocksIn m ≤ blocksIn n := Nat.div_le_div_right (by omega)

theorem div_lt_blocksIn {m size : Nat} : m / BSIZE < blocksIn size ↔ m / BSIZE * BSIZE < size := by
  unfold blocksIn
  simp only [BSIZE]
  omega

theorem le_blocksIn_mul (size : Nat) : size ≤ blocksIn size * BSIZE := by
  unfold blocksIn
  simp only [BSIZE]
  omega

theorem in_block (off : Nat) {x : Nat} (h : x < BSIZE - off % BSIZE) :
    (off + x) / BSIZE = off / BSIZE ∧ (off + x) % BSIZE = off % BSIZE + x := by
  simp only [BSIZE] at *
  omega

def Vol.byte (v : Vol) (i m : Nat) : UInt8 := v.data (v.addr (.block i (m / BSIZE))) (m % BSIZE)

def Vol.contents (v : Vol) (i : Nat) : List UInt8 := (List.range (v.ino i).size).map (v.byte i)

@[ext] structure Node where
  type : FType
  major : Int
  minor : Int
  nlink : Int
  contents : List UInt8
  deriving DecidableEq

def Node.none : Node := ⟨.free, 0, 0, 0, []⟩

instance (v : Vol) (i : Nat) : Decidable (v.Live i) := inferInstanceAs (Decidable (_ ∧ _))

def Vol.node (v : Vol) (i : Nat) : Node :=
  if v.Live i then ⟨(v.ino i).type, (v.ino i).major, (v.ino i).minor, (v.ino i).nlink, v.contents i⟩ else .none

/-- An entry of the inode cache without the copy of the inode. -/
@[ext] structure Slot where
  inum : Nat
  ref : Nat
  lock : Bool
  valid : Bool
  deriving DecidableEq

@[ext] structure View where
  sb : Superblock
  node : Nat → Node
  slot : IRef → Slot
  ftable : FRef → File
  proc : PIdx → ProcFiles
  outstanding : Int

def FS.view (s : FS) : View where
  sb := s.sb
  node := s.vol.node
  slot := fun k => ⟨(s.icache k).inum, (s.icache k).ref, (s.icache k).lock, (s.icache k).valid⟩
  ftable := s.ftable
  proc := s.proc
  outstanding := s.outstanding

def FS.cnt (s : FS) (i : Nat) : Nat := blocksIn (s.inode i).size

/-- What holds between the functions of fs.c. -/
structure Good (s : FS) : Prop where
  owned : Owned s.vol
  shaped : ∀ i, s.vol.Live i → Shaped s.vol i (s.cnt i) (NDIRECT < s.cnt i)
  unique : ∀ k k', 0 < (s.icache k).ref → 0 < (s.icache k').ref → (s.icache k).inum = (s.icache k').inum → k = k'
  cached : ∀ k, 0 < (s.icache k).ref → (s.icache k).valid = true →
    s.vol.Live (s.icache k).inum ∧ (s.icache k).copy = s.inode (s.icache k).inum

theorem live_setInode {s s' : FS} {i : Nat} {d : Dinode} (hsb : s'.sb = s.sb)
    (hino : s'.inode = Function.update s.inode i d) (htype : d.type = (s.inode i).type) (j : Nat) :
    s'.vol.Live j ↔ s.vol.Live j := by
  show _ < s'.sb.ninodes ∧ (s'.inode j).type ≠ _ ↔ _ < s.sb.ninodes ∧ (s.inode j).type ≠ _
  rw [hsb, hino, Function.update_apply]
  split_ifs with hj
  · rw [hj, htype]
  · exact Iff.rfl

theorem volAt_eq_vol {s : FS} {k : IRef} (h : (s.icache k).copy = s.inode (s.icache k).inum) : s.volAt k = s.vol := by
  unfold FS.volAt FS.vol
  rw [h, Function.update_eq_self]

structure Loaded (s : FS) (k : IRef) : Prop where
  ref : 0 < (s.icache k).ref
  valid : (s.icache k).valid = true

theorem Good.live {s : FS} {k : IRef} (h : Good s) (hk : Loaded s k) : s.vol.Live (s.icache k).inum :=
  (h.cached k hk.ref hk.valid).1

theorem Good.copy {s : FS} {k : IRef} (h : Good s) (hk : Loaded s k) :
    (s.icache k).copy = s.inode (s.icache k).inum := (h.cached k hk.ref hk.valid).2

theorem Good.growing {s : FS} {k : IRef} (h : Good s) (hk : Loaded s k) :
    Growing s k s.cnt (NDIRECT < s.cnt (s.icache k).inum) := by
  have hvol := volAt_eq_vol (h.copy hk)
  have hlive := h.live hk
  refine ⟨hvol ▸ h.owned, hvol ▸ hlive, hvol ▸ h.shaped _ hlive, fun j _ hj => ?_⟩
  rw [hvol] at hj ⊢
  exact h.shaped j hj

theorem slot_setCopy {s s' : FS} {k : IRef} {d : Dinode}
    (hic : s'.icache = Function.update s.icache k { s.icache k with copy := d }) : s'.view.slot = s.view.slot := by
  funext j
  simp only [FS.view, hic, Function.update_apply]
  split_ifs with hj
  · rw [hj]
  · rfl

theorem Good.setInode {s s' : FS} {k : IRef} {d : Dinode} (h : Good s) (hk : Loaded s k) (hsb : s'.sb = s.sb)
    (hino : s'.inode = Function.update s.inode (s.icache k).inum d)
    (hic : s'.icache = Function.update s.icache k { s.icache k with copy := d })
    (htype : d.type = (s.inode (s.icache k).inum).type) (howned : Owned s'.vol)
    (hshaped : ∀ j, s.vol.Live j → Shaped s'.vol j (s'.cnt j) (NDIRECT < s'.cnt j)) : Good s' := by
  have hslot := slot_setCopy hic
  have hinum : ∀ j, (s'.icache j).inum = (s.icache j).inum := fun j => congrArg Slot.inum (congrFun hslot j)
  have href : ∀ j, (s'.icache j).ref = (s.icache j).ref := fun j => congrArg Slot.ref (congrFun hslot j)
  have hvalid : ∀ j, (s'.icache j).valid = (s.icache j).valid := fun j => congrArg Slot.valid (congrFun hslot j)
  have hlive := live_setInode hsb hino htype
  refine ⟨howned, fun j hj => hshaped j ((hlive j).mp hj), fun j j' hj hj' heq => ?_, fun j hj hv => ?_⟩
  · rw [href] at hj hj'
    rw [hinum, hinum] at heq
    exact h.unique j j' hj hj' heq
  · rw [href] at hj
    rw [hvalid] at hv
    obtain ⟨hl, hc⟩ := h.cached j hj hv
    rw [hinum, hlive, hino, hic]
    refine ⟨hl, ?_⟩
    by_cases hjk : j = k
    · rw [hjk, Function.update_self, Function.update_self]
    · -- another entry holds another inode
      rw [Function.update_of_ne hjk, Function.update_of_ne fun heq => hjk (h.unique j k hj hk.ref heq), hc]

section slices

variable {v : Vol} {i off n : Nat}

theorem node_of_live (h : v.Live i) :
    v.node i = ⟨(v.ino i).type, (v.ino i).major, (v.ino i).minor, (v.ino i).nlink, v.contents i⟩ := if_pos h

theorem node_type_ne : (v.node i).type ≠ .free ↔ v.Live i := by
  unfold Vol.node
  split_ifs with h
  · exact iff_of_true h.2 h
  · exact iff_of_false (fun hne => hne rfl) h

@[simp] theorem length_contents (v : Vol) (i : Nat) : (v.contents i).length = (v.ino i).size := by
  simp [Vol.contents]

theorem contents_getElem? (v : Vol) (i m : Nat) :
    (v.contents i)[m]? = if m < (v.ino i).size then some (v.byte i m) else none := by
  unfold Vol.contents
  split_ifs with h
  · simp [h]
  · simpa using h

theorem contents_slice (v : Vol) (i off n : Nat) (h : off + n ≤ (v.ino i).size) :
    (List.range n).map (fun j => v.byte i (off + j)) = ((v.contents i).drop off).take n := by
  refine List.ext_getElem? fun m => ?_
  rw [List.getElem?_take, List.getElem?_drop, contents_getElem?]
  by_cases hm : m < n
  · simp [hm, show off + m < (v.ino i).size by omega]
  · simp [hm]

theorem node_congr {v' : Vol} (hsb : v'.sb = v.sb) (hdata : v'.data = v.data) (hino : v'.ino i = v.ino i) :
    v'.node i = v.node i := by
  have hlive : v'.Live i ↔ v.Live i := by
    unfold Vol.Live
    rw [hsb, hino]
  have haddr : ∀ bn, v'.addr (.block i bn) = v.addr (.block i bn) := by
    intro bn
    show addrOf _ _ _ = addrOf _ _ _
    rw [hdata, hino]
  have hcontents : v'.contents i = v.contents i := by
    unfold Vol.contents Vol.byte
    simp only [haddr, hdata, hino]
  unfold Vol.node
  rw [hino, hcontents]
  exact if_congr hlive rfl rfl

end slices

/-! ## readi -/

section readi

variable {s : FS} {k : IRef} {cnt : Nat → Nat} {ind : Prop} {bn : Nat}

theorem bmap_old (hg : Growing s k cnt (NDIRECT < cnt (s.icache k).inum)) (hbn : bn < cnt (s.icache k).inum) :
    Wp (bmap k bn) s (fun b s' => s' = s ∧ b = (s.volAt k).addr (.block (s.icache k).inum bn)) fun _ => False := by
  refine (bmap_spec hg (by omega) (lt_of_lt_of_le hbn hg.self.cnt_le)).mono (fun b s' h => ?_) ?_
  · obtain rfl := h.same hbn
    exact ⟨rfl, h.addr⟩
  · rintro e ⟨-, hfree⟩
    rw [max_eq_left (by omega)] at hfree
    omega

theorem readiLoop_spec (hg : Growing s k cnt (NDIRECT < cnt (s.icache k).inum)) (fuel : Nat) :
    ∀ off n, n ≤ fuel → off + n ≤ cnt (s.icache k).inum * BSIZE →
      Wp (readiLoop k fuel off n) s (fun bs s' => s' = s ∧
        bs = (List.range n).map fun j => (s.volAt k).byte (s.icache k).inum (off + j)) fun _ => False := by
  induction fuel with
  | zero =>
    intro off n hn _
    obtain rfl : n = 0 := by omega
    exact ⟨rfl, rfl⟩
  | succ fuel ih =>
    intro off n hn hoff
    unfold readiLoop
    refine Wp.ite (fun h0 => ?_) fun h0 => ?_
    · subst h0
      exact ⟨rfl, rfl⟩
    have hbn : off / BSIZE < cnt (s.icache k).inum := by
      simp only [BSIZE] at *
      omega
    refine Wp.bind (bmap_old hg hbn) ?_
    rintro b s' ⟨rfl, rfl⟩
    have hm : 0 < min n (BSIZE - off % BSIZE) := by
      simp only [BSIZE]
      omega
    generalize hmin : min n (BSIZE - off % BSIZE) = m at hm
    simp only [wp_bind, wp_look]
    refine (ih (off + m) (n - m) (by omega) (by omega)).imp ?_
    rintro rest s'' ⟨rfl, rfl⟩
    refine ⟨rfl, ?_⟩
    -- the first `m` bytes are in the block, the others are what the rest of the loop returns
    have hsplit : List.range n = List.range m ++ (List.range (n - m)).map fun j => m + j := by
      rw [← List.range_add, Nat.add_sub_cancel' (by omega)]
    rw [hsplit, List.map_append, List.map_map]
    refine congrArg₂ (· ++ ·) ?_ ?_
    · refine List.map_congr_left fun j hj => ?_
      rw [List.mem_range] at hj
      obtain ⟨hdiv, hmod⟩ := in_block off (x := j) (by omega)
      unfold Vol.byte
      rw [hdiv, hmod]
      rfl
    · refine List.map_congr_left fun j _ => ?_
      simp only [Function.comp, Nat.add_assoc]

def readiResult (d : Node) (off n : Nat) (dev : Option (List UInt8)) : Option (List UInt8) :=
  if d.type = .dev then if d.major = CONSOLE then dev else none
  else if off > d.contents.length ∨ (off + n) % UINT < off then none
  else some ((d.contents.drop off).take n)

theorem readi_growing (hcopy : (s.icache k).copy = s.inode (s.icache k).inum) (hlive : s.vol.Live (s.icache k).inum)
    (hgrow : Growing s k s.cnt (NDIRECT < s.cnt (s.icache k).inum)) (off n : Nat) (dev : Option (List UInt8)) :
    Wp (readi k off n dev) s (fun r s' => s' = s ∧ r = readiResult (s.vol.node (s.icache k).inum) off n dev)
      fun _ => False := by
  rw [node_of_live hlive]
  have hlen : (s.vol.contents (s.icache k).inum).length = (s.inode (s.icache k).inum).size := length_contents _ _
  unfold readi readiResult
  simp only [Fs.inode, wp_bind, wp_look, hcopy, hlen]
  refine Wp.ite (fun hdev => ⟨rfl, (if_pos hdev).symm⟩) fun hdev => ?_
  rw [if_neg (show ¬ (s.vol.ino (s.icache k).inum).type = .dev from hdev)]
  refine Wp.ite (fun hbad => ⟨rfl, (if_pos hbad).symm⟩) fun hok => ?_
  rw [if_neg hok]
  have hbound := le_blocksIn_mul (s.inode (s.icache k).inum).size
  refine Wp.bind (readiLoop_spec hgrow _ off _ le_rfl ?_) ?_
  · show _ ≤ blocksIn _ * BSIZE
    split_ifs <;> omega
  · rintro bs s' ⟨rfl, rfl⟩
    refine ⟨rfl, congrArg some ?_⟩
    rw [volAt_eq_vol hcopy, contents_slice _ _ _ _ (by
      show _ ≤ (s'.inode _).size
      split_ifs <;> omega)]
    split_ifs with hlong
    · refine (List.take_of_length_le ?_).trans (List.take_of_length_le ?_).symm
      · simp only [List.length_drop, length_contents]
        rfl
      · rw [List.length_drop, length_contents]
        show (s'.inode _).size - off ≤ n
        omega
    · rfl

theorem readi_spec (h : Good s) (hk : Loaded s k) (off n : Nat) (dev : Option (List UInt8)) :
    Wp (readi k off n dev) s (fun r s' => s' = s ∧ r = readiResult (s.vol.node (s.icache k).inum) off n dev)
      fun _ => False :=
  readi_growing (h.copy hk) (h.live hk) (h.growing hk) off n dev

end readi

/-! ## writei -/

section writei

variable {s s' s'' : FS} {k : IRef} {cnt : Nat → Nat} {ind : Prop} {bn off : Nat} {src : List UInt8}

theorem Growing.store (hg : Growing s k cnt ind) (s' : FS) (bn : Nat) {blk : Block} {l : List Nat}
    (hs' : s' = { s with
      data := Function.update s.data ((s.volAt k).addr (.block (s.icache k).inum bn)) blk
      logged := l }) :
    Touches k s s' ∧ Growing s' k cnt ind ∧ ∀ j m, (s.volAt k).Live j → (s.volAt k).addr (.block j (m / BSIZE)) ≠ 0 →
      (s'.volAt k).byte j m = if j = (s.icache k).inum ∧ m / BSIZE = bn then blk (m % BSIZE)
        else (s.volAt k).byte j m := by
  have ht : Touches k s s' := ⟨(s.icache k).copy.addrs, by rw [hs']; simp⟩
  have hino : (s'.volAt k).ino = (s.volAt k).ino := by rw [hs']; rfl
  have haddr : ∀ p, (s.volAt k).Live p.inum → (s'.volAt k).addr p = (s.volAt k).addr p := by
    intro p hp
    refine addr_congr (by rw [hino]) fun hptr => ?_
    -- an indirect block is not a block of the file
    have hother : ((s.volAt k).ino p.inum).addrs NDIRECT ≠ (s.volAt k).addr (.block (s.icache k).inum bn) := by
      intro heq
      cases hg.owned.inj (.indirect p.inum) (.block (s.icache k).inum bn) hp hg.live hptr heq
    rw [hs']
    exact Function.update_of_ne hother _ _
  have hlive := ht.live
  refine ⟨ht, ⟨?_, ?_, ?_, fun j hj hl => ?_⟩, fun j m hj hne => ?_⟩
  · refine hg.owned.congr ht.sb (fun p hp _ => haddr p hp) (fun p hp hno => ?_) (fun p hp hno => ?_) (by rw [hs']; rfl)
    · exact absurd ((hlive _).mp hp) hno
    · exact absurd ((hlive _).mpr hp) hno
  · rw [ht.inum]
    exact (hlive _).mpr hg.live
  · rw [ht.inum]
    exact hg.self.congr fun p hp => haddr p (hp ▸ hg.live)
  · rw [ht.inum] at hj
    exact (hg.others j hj ((hlive j).mp hl)).congr fun p hp => haddr p (hp ▸ (hlive j).mp hl)
  · unfold Vol.byte
    rw [haddr (.block j (m / BSIZE)) hj, hs']
    show Function.update s.data _ blk _ _ = _
    by_cases hq : j = (s.icache k).inum ∧ m / BSIZE = bn
    · rw [if_pos hq]
      obtain ⟨rfl, rfl⟩ := hq
      exact congrFun (Function.update_self ..) _
    · rw [if_neg hq]
      refine congrFun (Function.update_of_ne (fun heq => hq ?_) _ _) _
      have := hg.owned.inj (.block j (m / BSIZE)) (.block (s.icache k).inum bn) hj hg.live hne heq
      simpa using this

/-- `src` is written at `off` to the inode in entry `k`. -/
structure Written (s : FS) (k : IRef) (cnt : Nat → Nat) (off : Nat) (src : List UInt8) (s' : FS) : Prop where
  touches : Touches k s s'
  growing : Growing s' k
    (Function.update cnt (s.icache k).inum (max (cnt (s.icache k).inum) (blocksIn (off + src.length))))
    (NDIRECT < max (cnt (s.icache k).inum) (blocksIn (off + src.length)))
  new : ∀ m (h : m < src.length), (s'.volAt k).byte (s.icache k).inum (off + m) = src[m]
  old : ∀ m, m / BSIZE < cnt (s.icache k).inum → m < off ∨ off + src.length ≤ m →
    (s'.volAt k).byte (s.icache k).inum m = (s.volAt k).byte (s.icache k).inum m
  other : ∀ j m, j ≠ (s.icache k).inum → (s.volAt k).Live j → m / BSIZE < cnt j →
    (s'.volAt k).byte j m = (s.volAt k).byte j m
  same : off + src.length ≤ cnt (s.icache k).inum * BSIZE → s'.icache = s.icache ∧ s'.bitmap = s.bitmap
  paid : s'.free + blocksFor (max (cnt (s.icache k).inum) (blocksIn (off + src.length))) =
    s.free + blocksFor (cnt (s.icache k).inum)

theorem Written.nil (hg : Growing s k cnt (NDIRECT < cnt (s.icache k).inum))
    (hoff : off ≤ cnt (s.icache k).inum * BSIZE) : Written s k cnt off [] s := by
  have hmax : max (cnt (s.icache k).inum) (blocksIn (off + ([] : List UInt8).length)) = cnt (s.icache k).inum := by
    refine max_eq_left ?_
    unfold blocksIn
    simp only [List.length_nil, BSIZE] at *
    omega
  refine ⟨.refl k s, ?_, fun m h => absurd h (by simp), fun _ _ _ => rfl, fun _ _ _ _ _ => rfl, fun _ => ⟨rfl, rfl⟩,
    by rw [hmax]⟩
  rw [hmax, Function.update_eq_self]
  exact hg

theorem Kept.byte (hk : Kept k s s') {j m : Nat} (hj : (s.volAt k).Live j)
    (hne : (s.volAt k).addr (.block j (m / BSIZE)) ≠ 0) : (s'.volAt k).byte j m = (s.volAt k).byte j m := by
  unfold Vol.byte
  rw [hk.addr (.block j (m / BSIZE)) hj hne]
  exact congrFun (hk.data j (m / BSIZE) hj hne) _

theorem memmove_apply (o : Nat) (src : List UInt8) (blk : Block) (x : Nat) :
    memmove o src blk x = if o ≤ x ∧ x < o + src.length then src.getD (x - o) 0 else blk x := rfl

/-- One pass of the loop of `writei`, up to the end of the block that `off` is in, and the rest of the loop. -/
theorem Written.step {b m : Nat} {l : List Nat} {s₁ s₂ : FS}
    (hg : Growing s k cnt (NDIRECT < cnt (s.icache k).inum)) (hmap : Mapped s k cnt (off / BSIZE) b s₁)
    (hm : m = min src.length (BSIZE - off % BSIZE)) (hpos : 0 < m)
    (hs₂ : s₂ = { s₁ with
      data := Function.update s₁.data b (memmove (off % BSIZE) (src.take m) (s₁.data b))
      logged := l })
    (hrest : Written s₂ k (Function.update cnt (s.icache k).inum (max (cnt (s.icache k).inum) (off / BSIZE + 1)))
      (off + m) (src.drop m) s') : Written s k cnt off src s' := by
  obtain ⟨ht₂, hg₂, hbyte⟩ := hmap.growing.store s₂ (off / BSIZE) (by
    rw [hmap.touches.inum, ← hmap.addr]
    exact hs₂)
  have hi₁ := hmap.touches.inum
  have hi₂ := ht₂.inum.trans hi₁
  have hlive₁ : ∀ j, (s₁.volAt k).Live j ↔ (s.volAt k).Live j := hmap.touches.live
  rw [hi₁] at hbyte
  have hself := hmap.growing.self.mapped
  rw [hi₁, Function.update_self] at hself
  have hlive₁ : ∀ j, (s₁.volAt k).Live j ↔ (s.volAt k).Live j := hmap.touches.live
  -- after the pass the `m` bytes are there, and the others of the inode stay
  have hpass : ∀ x, x / BSIZE < max (cnt (s.icache k).inum) (off / BSIZE + 1) →
      (s₂.volAt k).byte (s.icache k).inum x =
        if off ≤ x ∧ x < off + m then src.getD (x - off) 0 else (s₁.volAt k).byte (s.icache k).inum x := by
    intro x hx
    rw [hbyte _ x ((hlive₁ _).mpr hg.live) ((hself _).mpr hx)]
    by_cases hblk : x / BSIZE = off / BSIZE
    · have htake : (src.take m).length = m := by
        rw [List.length_take]
        omega
      have hin : off % BSIZE ≤ x % BSIZE ∧ x % BSIZE < off % BSIZE + m ↔ off ≤ x ∧ x < off + m := by
        simp only [BSIZE] at *
        omega
      rw [if_pos ⟨rfl, hblk⟩, memmove_apply, htake]
      refine ite_congr (propext hin) (fun hx => ?_) fun _ => ?_
      · have hsub : x % BSIZE - off % BSIZE = x - off := by
          simp only [BSIZE] at *
          omega
        rw [hsub, List.getD_eq_getElem?_getD, List.getD_eq_getElem?_getD, List.getElem?_take, if_pos (by omega)]
      · unfold Vol.byte
        rw [hblk, ← hmap.addr]
        rfl
    · rw [if_neg (fun h => hblk h.2), if_neg]
      simp only [BSIZE] at *
      omega
  have hkeep : ∀ x, x / BSIZE < cnt (s.icache k).inum →
      (s₁.volAt k).byte (s.icache k).inum x = (s.volAt k).byte (s.icache k).inum x := fun x hx =>
    hmap.kept.byte hg.live ((hg.self.mapped _).mpr hx)
  have hlen : off + m + (src.drop m).length = off + src.length := by
    rw [List.length_drop]
    omega
  have hblocks : off / BSIZE + 1 ≤ blocksIn (off + src.length) := by
    unfold blocksIn
    simp only [BSIZE] at *
    omega
  have hcnt : max (max (cnt (s.icache k).inum) (off / BSIZE + 1)) (blocksIn (off + src.length)) =
      max (cnt (s.icache k).inum) (blocksIn (off + src.length)) := by omega
  obtain ⟨htouch, hgrow, hnew, hold, hother, hsame, hpaid⟩ := hrest
  simp only [hi₂, hlen, Function.update_self, Function.update_idem, hcnt] at hgrow hnew hold hother hsame hpaid
  refine ⟨hmap.touches.trans (ht₂.trans htouch), hgrow, fun x hx => ?_, fun x hx hout => ?_, fun j x hj hl hx => ?_,
    fun hle => ?_, ?_⟩
  · by_cases hxm : x < m
    · obtain ⟨hdiv, -⟩ := in_block off (x := x) (by omega)
      rw [hold (off + x) (by omega) (.inl (by omega)), hpass (off + x) (by omega), if_pos (by omega)]
      simp [hx]
    · have := hnew (x - m) (by rw [List.length_drop]; omega)
      rw [List.getElem_drop] at this
      rw [show off + x = off + m + (x - m) by omega, this]
      congr 1
      omega
  · rw [hold x (by omega) (by omega), hpass x (by omega), if_neg (by omega), hkeep x hx]
  · have hne := (hg.others j hj hl).mapped (x / BSIZE) |>.mpr hx
    have hne₁ : (s₁.volAt k).addr (.block j (x / BSIZE)) ≠ 0 := by
      rw [hmap.kept.addr (.block j _) hl hne]
      exact hne
    rw [hother j x hj ((ht₂.live j).mpr ((hlive₁ j).mpr hl)) (by rwa [Function.update_of_ne hj]),
      hbyte j x ((hlive₁ j).mpr hl) hne₁, if_neg (fun h => hj h.1), hmap.kept.byte hl hne]
  · have hbn : off / BSIZE < cnt (s.icache k).inum := by
      simp only [BSIZE] at hle ⊢
      omega
    obtain ⟨hic, hbits⟩ := hsame (hle.trans (Nat.mul_le_mul_right _ (le_max_left ..)))
    rw [hs₂, hmap.same hbn] at hic hbits
    exact ⟨hic, hbits⟩
  · have hfree : s₂.free = s₁.free := by rw [hs₂]; rfl
    rw [hpaid, hfree, hmap.paid]

theorem writeiLoop_spec (fuel : Nat) : ∀ (s : FS) (cnt : Nat → Nat) (off : Nat) (src : List UInt8),
    src.length ≤ fuel → Growing s k cnt (NDIRECT < cnt (s.icache k).inum) →
    off ≤ cnt (s.icache k).inum * BSIZE → off + src.length ≤ MAXFILE * BSIZE →
      Wp (writeiLoop k fuel off src) s (fun _ s' => Written s k cnt off src s') fun e => OutOfBlocks e ∧
        s.free + blocksFor (cnt (s.icache k).inum) <
          blocksFor (max (cnt (s.icache k).inum) (blocksIn (off + src.length))) := by
  induction fuel with
  | zero =>
    intro s cnt off src hlen hg hoff _
    obtain rfl : src = [] := List.length_eq_zero_iff.mp (by omega)
    exact Written.nil hg hoff
  | succ fuel ih =>
    intro s cnt off src hlen hg hoff hmax
    unfold writeiLoop
    refine Wp.ite (fun h0 => ?_) fun h0 => ?_
    · subst h0
      exact Written.nil hg hoff
    have hpos : 0 < src.length := List.length_pos_iff.mpr h0
    have hblocks : off / BSIZE + 1 ≤ blocksIn (off + src.length) := by
      unfold blocksIn
      simp only [BSIZE]
      omega
    refine Wp.bind ((bmap_spec hg ?_ ?_).mono (fun _ _ h => h) ?_) ?_
    · simp only [BSIZE] at *
      omega
    · simp only [MAXFILE, NDIRECT, NINDIRECT, BSIZE] at *
      omega
    · rintro e ⟨he, hfull⟩
      have := blocksFor_mono (max_le_max_left (cnt (s.icache k).inum) hblocks)
      exact ⟨he, by omega⟩
    · intro b s₁ hmap
      have hm : 0 < min src.length (BSIZE - off % BSIZE) := by
        simp only [BSIZE]
        omega
      generalize hmin : min src.length (BSIZE - off % BSIZE) = m at hm
      simp only [setData, logWrite, wp_bind, wp_update]
      generalize hs₂ : ({ s₁ with
        data := Function.update s₁.data b (memmove (off % BSIZE) (src.take m) (s₁.data b))
        logged := b :: s₁.logged } : FS) = s₂
      obtain ⟨ht₂, hg₂, -⟩ := hmap.growing.store s₂ (off / BSIZE) (by
        rw [hmap.touches.inum, ← hmap.addr]
        exact hs₂.symm)
      have hi₂ := ht₂.inum.trans hmap.touches.inum
      have hlen' : off + m + (src.drop m).length = off + src.length := by
        rw [List.length_drop]
        omega
      refine (ih s₂ (Function.update cnt (s.icache k).inum (max (cnt (s.icache k).inum) (off / BSIZE + 1))) (off + m)
        (src.drop m) ?_ ?_ ?_ ?_).mono (fun _ s' hrest => ?_) ?_
      · rw [List.length_drop]
        omega
      · rw [hi₂, Function.update_self]
        exact hg₂
      · rw [hi₂, Function.update_self]
        have := Nat.mul_le_mul_right BSIZE (le_max_right (cnt (s.icache k).inum) (off / BSIZE + 1))
        simp only [BSIZE] at *
        omega
      · rw [hlen']
        exact hmax
      · exact hrest.step hg hmap hmin.symm hm hs₂.symm
      · rintro e ⟨he, hfull⟩
        have hfree : s₂.free = s₁.free := by rw [← hs₂]; rfl
        have hpaid := hmap.paid
        rw [hi₂, hlen', Function.update_self, hfree, hpaid, max_assoc, max_eq_right hblocks] at hfull
        exact ⟨he, hfull⟩

/-- `src` in the place of the bytes from `off` on. -/
def splice (bs : List UInt8) (off : Nat) (src : List UInt8) : List UInt8 := bs.take off ++ src ++ bs.drop (off + src.length)

theorem length_splice {bs : List UInt8} (h : off ≤ bs.length) :
    (splice bs off src).length = max bs.length (off + src.length) := by
  simp only [splice, List.length_append, List.length_take, List.length_drop]
  omega

theorem splice_getElem? {bs : List UInt8} (h : off ≤ bs.length) (m : Nat) :
    (splice bs off src)[m]? =
      if m < off then bs[m]? else if m < off + src.length then src[m - off]? else bs[m]? := by
  have htake : (bs.take off).length = off := by
    rw [List.length_take]
    omega
  unfold splice
  split_ifs with h₁ h₂
  · rw [List.append_assoc, List.getElem?_append_left (by omega), List.getElem?_take, if_pos h₁]
  · rw [List.append_assoc, List.getElem?_append_right (by omega), htake, List.getElem?_append_left (by omega)]
  · rw [List.getElem?_append_right (by rw [List.length_append]; omega), List.length_append, htake,
      List.getElem?_drop]
    congr 1
    omega

theorem Written.contents (h : Good s) (hk : Loaded s k) (hw : Written s k s.cnt off src s')
    (hoff : off ≤ (s.inode (s.icache k).inum).size) :
    (List.range (max (s.inode (s.icache k).inum).size (off + src.length))).map
      ((s'.volAt k).byte (s.icache k).inum) = splice (s.vol.contents (s.icache k).inum) off src := by
  have hlen : (s.vol.contents (s.icache k).inum).length = (s.inode (s.icache k).inum).size := length_contents _ _
  have hvol := volAt_eq_vol (h.copy hk)
  refine List.ext_getElem? fun m => ?_
  rw [splice_getElem? (by omega), contents_getElem?]
  have hold := hw.old m
  rw [hvol] at hold
  have hcnt : m < (s.inode (s.icache k).inum).size → m / BSIZE < s.cnt (s.icache k).inum := fun hm =>
    div_lt_blocksIn.mpr (lt_of_le_of_lt (Nat.div_mul_le_self m BSIZE) hm)
  simp only [show (s.vol.ino (s.icache k).inum).size = (s.inode (s.icache k).inum).size from rfl]
  by_cases hrange : m < max (s.inode (s.icache k).inum).size (off + src.length)
  · simp only [List.getElem?_map, List.getElem?_range hrange, Option.map_some]
    split_ifs with h₁ h₂ h₃ h₄
    · rw [hold (hcnt h₂) (.inl h₁)]
    · omega
    · have := hw.new (m - off) (by omega)
      rw [show off + (m - off) = m by omega] at this
      rw [this, List.getElem?_eq_getElem (by omega)]
    · rw [hold (hcnt h₄) (.inr (by omega))]
    · omega
  · rw [List.getElem?_eq_none (by simp; omega), if_neg (by omega), if_neg (by omega), if_neg (by omega)]

def View.setNode (v : View) (i : Nat) (d : Node) : View := { v with node := Function.update v.node i d }

@[simp] theorem setNode_self (v : View) (i : Nat) : v.setNode i (v.node i) = v := by
  simp [View.setNode]

/-- `writei` on a node: the result, and the node afterwards. -/
def Node.write (d : Node) (off : Nat) (src : List UInt8) : Option Nat × Node :=
  if d.type = .dev then (if d.major = CONSOLE then some src.length else .none, d)
  else if off > d.contents.length ∨ (off + src.length) % UINT < off then (.none, d)
  else if off + src.length > MAXFILE * BSIZE then (.none, d)
  else (some src.length, { d with contents := splice d.contents off src })

theorem Written.good {d : Dinode} {s₁ : FS} (h : Good s) (hk : Loaded s k) (hw : Written s k s.cnt off src s₁)
    (hoff : off ≤ (s.inode (s.icache k).inum).size)
    (hd : d = { (s₁.icache k).copy with size := max (s.inode (s.icache k).inum).size (off + src.length) })
    {l : List Nat} (hs' : s' = { s₁ with
      inode := Function.update s.inode (s.icache k).inum d
      icache := Function.update s.icache k { s.icache k with copy := d }
      logged := l }) :
    Good s' ∧ s'.view = s.view.setNode (s.icache k).inum { s.vol.node (s.icache k).inum with
      contents := splice (s.vol.contents (s.icache k).inum) off src } := by
  have hvol := volAt_eq_vol (h.copy hk)
  have hi := hw.touches.inum
  have hfields : d = { s.inode (s.icache k).inum with
      size := max (s.inode (s.icache k).inum).size (off + src.length)
      addrs := (s₁.icache k).copy.addrs } := by rw [hd, hw.touches.slot, ← h.copy hk]
  have hsb : s'.sb = s.sb := by
    rw [hs']
    exact hw.touches.sb
  have hino : s'.inode = Function.update s.inode (s.icache k).inum d := by rw [hs']
  have hic : s'.icache = Function.update s.icache k { s.icache k with copy := d } := by rw [hs']
  have htype : d.type = (s.inode (s.icache k).inum).type := by rw [hfields]
  have hself : s'.inode (s.icache k).inum = d := by rw [hino, Function.update_self]
  have hrest : ∀ j, j ≠ (s.icache k).inum → s'.inode j = s.inode j := fun j hj => by
    rw [hino, Function.update_of_ne hj]
  have hlive := live_setInode hsb hino htype
  have hlive₁ : ∀ j, (s₁.volAt k).Live j ↔ s.vol.Live j := fun j => hvol ▸ hw.touches.live j
  -- the disk now is the disk of the loop with the new size
  have haddrs : ∀ j, (s'.vol.ino j).addrs = ((s₁.volAt k).ino j).addrs := by
    intro j
    rw [hw.touches.ino, hvol]
    show (s'.inode j).addrs = (Function.update s.inode _ _ j).addrs
    simp only [hino, Function.update_apply]
    split_ifs
    · rw [hd]
    · rfl
  have haddr : ∀ p, s'.vol.addr p = (s₁.volAt k).addr p := fun p => addr_congr (haddrs _) fun _ => by rw [hs']; rfl
  have hbyte : ∀ j, s'.vol.byte j = (s₁.volAt k).byte j := by
    intro j
    funext m
    unfold Vol.byte
    rw [haddr, hs']
    rfl
  refine ⟨h.setInode hk hsb hino hic htype ?_ fun j hj => ?_, ?_⟩
  · refine hw.growing.owned.congr (by rw [hs']; rfl) (fun p _ _ => haddr p) (fun p hp hno => ?_) (fun p hp hno => ?_)
      (by rw [hs']; rfl)
    · exact absurd ((hlive₁ _).mpr ((hlive _).mp hp)) hno
    · exact absurd ((hlive _).mpr ((hlive₁ _).mp hp)) hno
  · by_cases heq : j = (s.icache k).inum
    · have hcnt : s'.cnt j = max (s.cnt (s.icache k).inum) (blocksIn (off + src.length)) := by
        unfold FS.cnt
        rw [heq, hself, hd]
        exact Monotone.map_max (fun _ _ => blocksIn_mono)
      have := hw.growing.self
      rw [hi, Function.update_self] at this
      rw [hcnt, heq]
      exact this.congr fun p _ => haddr p
    · have hcnt : s'.cnt j = s.cnt j := by
        unfold FS.cnt
        rw [hrest j heq]
      have := hw.growing.others j (hi ▸ heq) ((hlive₁ j).mpr hj)
      rw [Function.update_of_ne heq] at this
      rw [hcnt]
      exact this.congr fun p _ => haddr p
  · have hnode : ∀ j, s'.vol.node j = Function.update s.vol.node (s.icache k).inum { s.vol.node (s.icache k).inum with
        contents := splice (s.vol.contents (s.icache k).inum) off src } j := by
      intro j
      rw [Function.update_apply]
      split_ifs with hj
      · rw [hj, node_of_live ((hlive _).mpr (h.live hk)), node_of_live (h.live hk)]
        have hc : s'.vol.contents (s.icache k).inum = splice (s.vol.contents (s.icache k).inum) off src := by
          rw [← hw.contents h hk hoff]
          unfold Vol.contents
          rw [hbyte, show s'.vol.ino (s.icache k).inum = d from hself, hd]
        rw [hc, show s'.vol.ino (s.icache k).inum = d from hself, hfields]
        rfl
      · by_cases hl : s.vol.Live j
        · rw [node_of_live ((hlive j).mpr hl), node_of_live hl, show s'.vol.ino j = s.vol.ino j from hrest j hj]
          have hc : s'.vol.contents j = s.vol.contents j := by
            unfold Vol.contents
            rw [show s'.vol.ino j = s.vol.ino j from hrest j hj, hbyte]
            refine List.map_congr_left fun m hm => ?_
            rw [List.mem_range] at hm
            rw [hw.other j m hj (hvol ▸ hl) (div_lt_blocksIn.mpr (lt_of_le_of_lt (Nat.div_mul_le_self m BSIZE) hm)), hvol]
          rw [hc]
        · unfold Vol.node
          rw [if_neg (fun h => hl ((hlive j).mp h)), if_neg hl]
    have hslot := slot_setCopy hic
    ext1
    · exact hsb
    · exact funext hnode
    · exact hslot
    · rw [hs']
      exact hw.touches.ftable
    · rw [hs']
      exact hw.touches.proc
    · rw [hs']
      exact hw.touches.outstanding

/-- `writei` on a good state. The blocks it takes are those that the new size needs. -/
structure WriteiPost (s : FS) (k : IRef) (off : Nat) (src : List UInt8) (r : Option Nat) (s' : FS) : Prop where
  good : Good s'
  result : r = ((s.vol.node (s.icache k).inum).write off src).1
  view : s'.view = s.view.setNode (s.icache k).inum ((s.vol.node (s.icache k).inum).write off src).2
  paid : s'.free + blocksFor (blocksIn ((s.vol.node (s.icache k).inum).write off src).2.contents.length) =
    s.free + blocksFor (blocksIn (s.vol.node (s.icache k).inum).contents.length)

/-- `writei` runs out of blocks only if there are too few for the new size. -/
def WriteiFull (s : FS) (k : IRef) (off : Nat) (src : List UInt8) (e : Stop) : Prop :=
  OutOfBlocks e ∧ s.free + blocksFor (blocksIn (s.vol.node (s.icache k).inum).contents.length) <
    blocksFor (blocksIn ((s.vol.node (s.icache k).inum).write off src).2.contents.length)

theorem WriteiPost.refused (h : Good s) (off : Nat) (src : List UInt8)
    (hw : ((s.vol.node (s.icache k).inum).write off src).2 =
    s.vol.node (s.icache k).inum) :
    WriteiPost s k off src ((s.vol.node (s.icache k).inum).write off src).1 s := by
  refine ⟨h, rfl, ?_, by rw [hw]⟩
  rw [hw]
  exact (setNode_self s.view _).symm

theorem writei_spec (h : Good s) (hk : Loaded s k) (off : Nat) (src : List UInt8) :
    Wp (writei k src off) s (WriteiPost s k off src) (WriteiFull s k off src) := by
  have hcopy := h.copy hk
  have hnode := node_of_live (h.live hk)
  have hlen : (s.vol.contents (s.icache k).inum).length = (s.inode (s.icache k).inum).size := length_contents _ _
  have hwrite : (s.vol.node (s.icache k).inum).write off src =
      if (s.inode (s.icache k).inum).type = .dev then
        (if (s.inode (s.icache k).inum).major = CONSOLE then some src.length else none,
          s.vol.node (s.icache k).inum)
      else if off > (s.inode (s.icache k).inum).size ∨ (off + src.length) % UINT < off then
        (none, s.vol.node (s.icache k).inum)
      else if off + src.length > MAXFILE * BSIZE then (none, s.vol.node (s.icache k).inum)
      else (some src.length, { s.vol.node (s.icache k).inum with
        contents := splice (s.vol.contents (s.icache k).inum) off src }) := by
    unfold Node.write
    rw [hnode]
    simp only [hlen]
    rfl
  unfold writei
  simp only [Fs.inode, wp_bind, wp_look, hcopy]
  refine Wp.ite (fun hdev => ?_) fun hdev => Wp.ite (fun hbad => ?_) fun hok => Wp.ite (fun hbig => ?_) fun hfit => ?_
  · have hw := hwrite.trans (if_pos hdev)
    have := WriteiPost.refused h off src (by rw [hw])
    rwa [hw] at this
  · have hw := hwrite.trans ((if_neg hdev).trans (if_pos hbad))
    have := WriteiPost.refused h off src (by rw [hw])
    rwa [hw] at this
  · have hw := hwrite.trans ((if_neg hdev).trans ((if_neg hok).trans (if_pos hbig)))
    have := WriteiPost.refused h off src (by rw [hw])
    rwa [hw] at this
  · have hw := hwrite.trans ((if_neg hdev).trans ((if_neg hok).trans (if_neg hfit)))
    have hoff : off ≤ (s.inode (s.icache k).inum).size := by omega
    have hsize : blocksIn ((s.vol.node (s.icache k).inum).write off src).2.contents.length =
        max (s.cnt (s.icache k).inum) (blocksIn (off + src.length)) := by
      rw [hw, length_splice (by omega), hlen]
      exact Monotone.map_max (fun _ _ => blocksIn_mono)
    have hold : blocksIn (s.vol.node (s.icache k).inum).contents.length = s.cnt (s.icache k).inum := by
      rw [hnode, hlen]
      rfl
    refine Wp.bind ((writeiLoop_spec src.length s s.cnt off src le_rfl (h.growing hk) ?_ (by omega)).mono
      (fun _ _ h => h) ?_) ?_
    · exact hoff.trans (le_blocksIn_mul _)
    · rintro e ⟨he, hfull⟩
      exact ⟨he, by rwa [hsize, hold]⟩
    · intro _ s₁ hwr
      have hpost : ∀ s', Good s' ∧ s'.view = s.view.setNode (s.icache k).inum { s.vol.node (s.icache k).inum with
          contents := splice (s.vol.contents (s.icache k).inum) off src } → s'.free = s₁.free →
          WriteiPost s k off src (some src.length) s' := by
        rintro s' ⟨hgood, hview⟩ hfree
        refine ⟨hgood, by rw [hw], by rw [hview, hw], ?_⟩
        rw [hsize, hold, hfree, hwr.paid]
      refine Wp.ite (fun hgrow => ?_) fun hstay => ?_
      · simp only [setCopy, setInode, iupdate, Fs.inode, logWrite, wp_bind, wp_look, wp_update, wp_pure,
          Function.update_self]
        refine hpost _ (hwr.good h hk hoff (l := s₁.sb.iblock (s₁.icache k).inum :: s₁.logged) rfl ?_) rfl
        rw [max_eq_right (by omega), hwr.touches.inode, ← hwr.touches.setCopy, ← hwr.touches.inum]
      · -- nothing was allocated, so the inode is as it was
        have hmax : max (s.inode (s.icache k).inum).size (off + src.length) = (s.inode (s.icache k).inum).size := by
          rcases src.length.eq_zero_or_pos with h0 | h0
          · omega
          · exact max_eq_left (by omega)
        obtain ⟨hic, -⟩ := hwr.same ((le_max_right _ _).trans (hmax.le.trans (le_blocksIn_mul _)))
        refine hpost s₁ (hwr.good h hk hoff (l := s₁.logged) rfl ?_) rfl
        rw [hmax, hic, hcopy, Function.update_eq_self, ← hcopy, Function.update_eq_self, ← hic, ← hwr.touches.inode]

end writei

end Xv6Mlfq.Fs
