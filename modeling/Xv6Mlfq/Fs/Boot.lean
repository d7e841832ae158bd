import Xv6Mlfq.Fs.Image
import Xv6Mlfq.Fs.Integrity

/-!
# Booting from the image of mkfs

The root directory of a finished image has a size that is a multiple of the block size, so its contents end with bytes
that mkfs has not written. They are zero (`Rooted`), and the kernel reads them as free entries. So the image is `Sound`
if the names of the files are different: everything that holds of the runs from sound images holds of the systems that
mkfs and the kernel make together.
-/

namespace Xv6Mlfq.Fs.Mkfs

open Lib

def Image.disk (im : Image) : Fs.Image := ⟨superblock, im.inode, bit im.bitmap, im.data⟩

/-! ## What happens to one inode does not change the others -/

def Image.withInode (j : Nat) (d : Dinode) (im : Image) : Image := { im with inode := Function.update im.inode j d }

section frame

variable {d : Dinode} {i j : Nat}

theorem newBlock_commutes : Commutes (Image.withInode j d) newBlock :=
  .bind (.look fun _ => rfl) fun _ => .bind (.update fun _ => rfl) fun _ => .pure _

theorem rsect_commutes (sec : Nat) : Commutes (Image.withInode j d) (rsect sec) := .ite (.look fun _ => rfl) (.stop _)

theorem wsect_commutes (sec : Nat) (buf : Block) : Commutes (Image.withInode j d) (wsect sec buf) := .update fun _ => rfl

theorem fillAddr_commutes (din : Dinode) (n : Nat) : Commutes (Image.withInode j d) (fillAddr din n) :=
  .ite (.bind newBlock_commutes fun _ => .pure _) (.pure _)

theorem fillEntry_commutes (sec : Nat) (indirect : Block) (n : Nat) :
    Commutes (Image.withInode j d) (fillEntry sec indirect n) :=
  .ite (.bind newBlock_commutes fun _ => .bind (wsect_commutes _ _) fun _ => .pure _) (.pure _)

theorem blockFor_commutes (din : Dinode) (fbn : Nat) : Commutes (Image.withInode j d) (blockFor din fbn) := by
  refine .ite (.bind (fillAddr_commutes _ _) fun _ => .pure _) (.bind (fillAddr_commutes _ _) fun _ => ?_)
  exact .bind (rsect_commutes _) fun _ => .bind (fillEntry_commutes _ _ _) fun _ => .pure _

theorem iappendLoop_commutes (fuel : Nat) : ∀ (din : Dinode) (off : Nat) (p : List UInt8),
    Commutes (Image.withInode j d) (iappendLoop fuel din off p) := by
  induction fuel with
  | zero => exact fun _ _ _ => .pure _
  | succ fuel ih =>
    intro din off p
    refine .ite (.pure _) (.ite (.bind (blockFor_commutes _ _) fun x => ?_) (.stop _))
    exact .bind (rsect_commutes _) fun _ => .bind (wsect_commutes _ _) fun _ => ih _ _ _

theorem iappend_commutes (hi : i ≠ j) (p : List UInt8) : Commutes (Image.withInode j d) (iappend i p) := by
  have hread : Commutes (Image.withInode j d) (rinode i) := .ite (.look fun _ => Function.update_of_ne hi _ _) (.stop _)
  have hwrite : ∀ din, Commutes (Image.withInode j d) (winode i din) := by
    intro din
    refine .ite (.update fun im => ?_) (.stop _)
    unfold Image.withInode
    rw [Function.update_comm hi]
  exact .bind hread fun _ => .bind (iappendLoop_commutes _ _ _ _) fun _ => hwrite _

theorem appendFile_commutes (hi : i ≠ j) (fuel : Nat) : ∀ bs, Commutes (Image.withInode j d) (appendFile i fuel bs) := by
  induction fuel with
  | zero => exact fun _ => .pure _
  | succ fuel ih => exact fun bs => .ite (.pure _) (.bind (iappend_commutes hi _) fun _ => ih _)

theorem inode_kept {m : Host Unit} {im : Image} (h : Commutes (Image.withInode j (im.inode j)) m) :
    Wp m im (fun _ im' => im'.inode j = im.inode j) fun _ => True := by
  refine (h.fixed (by unfold Image.withInode; rw [Function.update_eq_self])).imp ?_
  intro _ im' hfix
  have := congrFun (congrArg Image.inode hfix) j
  unfold Image.withInode at this
  simp only [Function.update_self] at this
  exact this.symm

end frame

/-! ## The bytes of the root directory -/

/-- Byte `m` of the blocks of the root directory. -/
def Image.byte (im : Image) (m : Nat) : UInt8 := im.data ((im.inode ROOTINO).addrs (m / BSIZE)) (m % BSIZE)

/-- The name of a file in the root directory. -/
def HostFile.entryName (f : HostFile) : Name := pad (if f.name.head? = some underscore then f.name.tail else f.name)

def rootEntries (files : List HostFile) : List Dirent :=
  ⟨ROOTINO, dot⟩ :: ⟨ROOTINO, dotdot⟩ :: files.zipIdx.map fun x => ⟨2 + x.2, x.1.entryName⟩

def listing (files : List HostFile) : List UInt8 := (rootEntries files).flatMap Dirent.encode

/-- The image once the files `pre` are in it, with the root directory up to the end of its blocks. -/
structure Rooted (pre : List HostFile) (im : Image) : Prop extends Built pre im where
  byte : ∀ m, m < blocksIn (DESIZE * (2 + pre.length)) * BSIZE → im.byte m = (listing pre).getD m 0
  nlink : (im.inode ROOTINO).nlink = 1
  zero : (im.inode 0).type = .free

section bytes

variable {im im' : Image} {pre : List HostFile} {f : HostFile} {i : Nat} {e : List UInt8}

theorem rootEntries_append (pre : List HostFile) (f : HostFile) :
    rootEntries (pre ++ [f]) = rootEntries pre ++ [⟨2 + pre.length, f.entryName⟩] := by
  unfold rootEntries
  rw [List.zipIdx_append, List.map_append]
  simp

theorem length_rootEntries (files : List HostFile) : (rootEntries files).length = 2 + files.length := by
  unfold rootEntries
  simp
  omega

theorem listing_append (pre : List HostFile) (f : HostFile) :
    listing (pre ++ [f]) = listing pre ++ Dirent.encode ⟨2 + pre.length, f.entryName⟩ := by
  unfold listing
  rw [rootEntries_append, List.flatMap_append, List.flatMap_singleton]

theorem rootEntries_name {files : List HostFile} : ∀ de ∈ rootEntries files, de.name.length = DIRSIZ := by
  intro de hde
  unfold rootEntries at hde
  rcases List.mem_cons.mp hde with rfl | hde
  · rfl
  · rcases List.mem_cons.mp hde with rfl | hde
    · rfl
    · obtain ⟨x, -, rfl⟩ := List.mem_map.mp hde
      exact length_pad _

theorem length_flatMap_encode : ∀ es : List Dirent, (∀ de ∈ es, de.name.length = DIRSIZ) →
    (es.flatMap Dirent.encode).length = DESIZE * es.length := by
  intro es
  induction es with
  | nil => exact fun _ => rfl
  | cons de es ih =>
    intro h
    rw [List.flatMap_cons, List.length_append, length_encode (h de List.mem_cons_self),
      ih fun x hx => h x (List.mem_cons_of_mem _ hx),
      List.length_cons]
    ring

theorem length_listing (files : List HostFile) : (listing files).length = DESIZE * (2 + files.length) := by
  unfold listing
  rw [length_flatMap_encode _ rootEntries_name, length_rootEntries]

theorem fillAddr_wp {din : Dinode} {j : Nat} :
    Wp (fillAddr din j) im (fun din' im' => im'.data = im.data ∧ im'.inode = im.inode ∧
    ∃ b, din' = { din with addrs := Function.update din.addrs j b } ∧
      (din.addrs j ≠ 0 ∧ b = din.addrs j ∨ din.addrs j = 0 ∧ b = im.freeblock)) fun _ => True := by
  unfold fillAddr newBlock
  refine Wp.ite (fun hz => ?_) fun hne => ?_
  · exact ⟨rfl, rfl, _, rfl, .inr ⟨hz, rfl⟩⟩
  · refine ⟨rfl, rfl, din.addrs j, ?_, .inl ⟨hne, rfl⟩⟩
    rw [Function.update_eq_self]

theorem iappendLoop_nil (fuel : Nat) (din : Dinode) (off : Nat) : iappendLoop fuel din off [] = pure (din, off) := by
  cases fuel with
  | zero => rfl
  | succ fuel => exact if_pos rfl

theorem iappend_entry (he : e.length = DESIZE) (hoff : DESIZE ∣ (im.inode ROOTINO).size)
    (hmax : (im.inode ROOTINO).size / BSIZE < NDIRECT) :
    Wp (iappend ROOTINO e) im (fun _ im' => ∃ b,
      im'.data = Function.update im.data b (memmove ((im.inode ROOTINO).size % BSIZE) e (im.data b)) ∧
      (im'.inode ROOTINO).addrs = Function.update (im.inode ROOTINO).addrs ((im.inode ROOTINO).size / BSIZE) b ∧
      ((im.inode ROOTINO).addrs ((im.inode ROOTINO).size / BSIZE) ≠ 0 ∧
          b = (im.inode ROOTINO).addrs ((im.inode ROOTINO).size / BSIZE) ∨
        (im.inode ROOTINO).addrs ((im.inode ROOTINO).size / BSIZE) = 0 ∧ b = im.freeblock) ∧
      (im'.inode ROOTINO).nlink = (im.inode ROOTINO).nlink) fun _ => True := by
  generalize hd : im.inode ROOTINO = din at *
  have hne : e ≠ [] := by
    rintro rfl
    exact absurd he (by decide)
  have hin : ROOTINO < ninodeblocks * IPB := by decide
  have hbn : din.size / BSIZE < MAXFILE := hmax.trans (by decide)
  -- the entry lies in one block
  have hn : min e.length ((din.size / BSIZE + 1) * BSIZE - din.size) = e.length := by
    rw [he]
    simp only [DESIZE, BSIZE] at *
    omega
  unfold iappend rinode winode
  simp only [if_pos hin, wp_bind, wp_look, hd]
  rw [he]
  unfold iappendLoop
  rw [if_neg hne, if_pos hbn]
  simp only [hn, List.take_length, List.drop_length, iappendLoop_nil]
  unfold blockFor
  rw [if_pos hmax]
  rw [bind_assoc]
  refine Wp.bind fillAddr_wp ?_
  intro din' im₁ hpost
  obtain ⟨hdata, hino, b, rfl, hb⟩ := hpost
  have hrem : din.size - din.size / BSIZE * BSIZE = din.size % BSIZE := by
    simp only [BSIZE]
    omega
  simp only [pure_bind, Function.update_self, hrem]
  unfold rsect wsect
  split_ifs with hlt
  · simp only [wp_bind, wp_look, wp_update, wp_pure]
    refine ⟨b, ?_, ?_, hb, ?_⟩
    · rw [hdata]
    · rw [Function.update_self]
    · rw [Function.update_self]
  · exact trivial

theorem Sound.root_blocks (h : Sound im) (hlive : (im.node ROOTINO).type ≠ .free) :
    (∀ bn, bn < NDIRECT → ((im.inode ROOTINO).addrs bn ≠ 0 ↔ bn < blocksIn (im.inode ROOTINO).size)) ∧
    (∀ bn, bn < NDIRECT → (im.inode ROOTINO).addrs bn ≠ 0 → (im.inode ROOTINO).addrs bn < im.freeblock) ∧
    ∀ bn bn', bn < NDIRECT → bn' < NDIRECT → (im.inode ROOTINO).addrs bn ≠ 0 →
      (im.inode ROOTINO).addrs bn = (im.inode ROOTINO).addrs bn' → bn = bn' := by
  have hl : (im.kernel noInodes []).vol.Live ROOTINO := node_type_ne.mp hlive
  have haddr : ∀ bn, bn < NDIRECT → (im.kernel noInodes []).vol.addr (.block ROOTINO bn) = (im.inode ROOTINO).addrs bn :=
    fun bn hbn => addr_block_direct hbn
  refine ⟨?_, ?_, ?_⟩
  · intro bn hbn
    rw [← haddr bn hbn]
    exact (h.good.shaped _ hl).mapped bn
  · intro bn hbn hne
    rw [← haddr bn hbn] at hne ⊢
    exact of_decide_eq_true (h.good.owned.marked (p := .block ROOTINO bn) hl hne)
  · intro bn bn' hbn hbn' hne heq
    rw [← haddr bn hbn] at hne heq
    rw [← haddr bn' hbn'] at heq
    have hplace := h.good.owned.inj (.block ROOTINO bn) (.block ROOTINO bn') hl hl hne heq
    injection hplace

/-- The bytes of the root directory with one more entry; what is behind it stays zero. -/
theorem entry_byte {b off : Nat} (h : Sound im) (hlive : (im.node ROOTINO).type ≠ .free)
    (hsize : (im.inode ROOTINO).size = off)
    (he : e.length = DESIZE) (hoff : DESIZE ∣ off) (hmax : off / BSIZE < NDIRECT)
    (htail : ∀ m, off ≤ m → m < blocksIn off * BSIZE → im.byte m = 0)
    (hdata : im'.data = Function.update im.data b (memmove (off % BSIZE) e (im.data b)))
    (haddrs : (im'.inode ROOTINO).addrs = Function.update (im.inode ROOTINO).addrs (off / BSIZE) b)
    (hb : (im.inode ROOTINO).addrs (off / BSIZE) ≠ 0 ∧ b = (im.inode ROOTINO).addrs (off / BSIZE) ∨
      (im.inode ROOTINO).addrs (off / BSIZE) = 0 ∧ b = im.freeblock) {m : Nat} (hm : m < blocksIn (off + DESIZE) * BSIZE) :
    im'.byte m = if m < off then im.byte m else e.getD (m - off) 0 := by
  obtain ⟨hmapped, hlt, hinj⟩ := h.root_blocks hlive
  rw [hsize] at hmapped
  have hblocks : blocksIn (off + DESIZE) = off / BSIZE + 1 := by
    unfold blocksIn
    simp only [DESIZE, BSIZE] at *
    omega
  rw [hblocks] at hm
  have hcnt : blocksIn off = if off % BSIZE = 0 then off / BSIZE else off / BSIZE + 1 := by
    unfold blocksIn
    simp only [BSIZE]
    split_ifs <;> omega
  have hbyte : im'.byte m = Function.update im.data b (memmove (off % BSIZE) e (im.data b))
      (Function.update (im.inode ROOTINO).addrs (off / BSIZE) b (m / BSIZE)) (m % BSIZE) := by
    unfold Image.byte
    rw [hdata, haddrs]
  rw [hbyte]
  by_cases hlast : m / BSIZE = off / BSIZE
  · rw [hlast, Function.update_self, Function.update_self, memmove_apply, he]
    -- in front of the entry, in it, and behind it
    rcases Nat.lt_or_ge m off with hmoff | hmoff
    · rw [if_neg (by simp only [BSIZE] at *; omega), if_pos hmoff]
      have hne : off % BSIZE ≠ 0 := by
        simp only [BSIZE] at *
        omega
      rw [if_neg hne] at hcnt
      rcases hb with ⟨-, rfl⟩ | ⟨hz, -⟩
      · unfold Image.byte
        rw [hlast]
      · exact absurd hz ((hmapped _ hmax).mpr (by omega))
    · rw [if_neg (Nat.not_lt.mpr hmoff)]
      by_cases hin : m < off + DESIZE
      · rw [if_pos (by simp only [BSIZE] at *; omega)]
        congr 1
        simp only [BSIZE] at *
        omega
      · rw [if_neg (by simp only [BSIZE] at *; omega), List.getD_eq_default _ _ (by omega)]
        rcases hb with ⟨hne, rfl⟩ | ⟨-, rfl⟩
        · have hin' : m < blocksIn off * BSIZE := by
            exact hm.trans_le (Nat.mul_le_mul_right _ ((hmapped _ hmax).mp hne))
          have := htail m hmoff hin'
          unfold Image.byte at this
          rwa [hlast] at this
        · exact congrFun (h.clean.zero im.freeblock le_rfl) _
  · have hbefore : m / BSIZE < off / BSIZE := by
      simp only [BSIZE] at *
      omega
    have hmoff : m < off := by
      simp only [BSIZE] at *
      omega
    have hne : (im.inode ROOTINO).addrs (m / BSIZE) ≠ 0 := by
      refine (hmapped _ (hbefore.trans hmax)).mpr ?_
      rw [hcnt]
      split_ifs <;> omega
    have hother : (im.inode ROOTINO).addrs (m / BSIZE) ≠ b := by
      rcases hb with ⟨-, rfl⟩ | ⟨-, rfl⟩
      · exact fun heq => hlast (hinj _ _ (hbefore.trans hmax) hmax hne heq)
      · exact (hlt _ (hbefore.trans hmax) hne).ne
    rw [Function.update_of_ne hlast, Function.update_of_ne hother, if_pos hmoff]
    rfl

/-- The root directory with the size of its blocks. -/
def Image.wholeRoot (im : Image) : Dinode := { im.inode ROOTINO with size := blocksIn (im.inode ROOTINO).size * BSIZE }

theorem wholeRoot_live (im : Image) (i : Nat) :
    ((im.withInode ROOTINO im.wholeRoot).kernel noInodes []).vol.Live i ↔ (im.kernel noInodes []).vol.Live i := by
  show _ ∧ (Function.update im.inode ROOTINO im.wholeRoot i).type ≠ _ ↔ _ ∧ (im.inode i).type ≠ _
  rw [Function.update_apply]
  split_ifs with hi
  · rw [hi]
    exact Iff.rfl
  · exact Iff.rfl

theorem wholeRoot_addr (im : Image) (p : Place) :
    ((im.withInode ROOTINO im.wholeRoot).kernel noInodes []).vol.addr p = (im.kernel noInodes []).vol.addr p := by
  refine addr_congr ?_ fun _ => rfl
  show (Function.update im.inode ROOTINO im.wholeRoot p.inum).addrs = (im.inode p.inum).addrs
  rw [Function.update_apply]
  split_ifs with hi
  · rw [hi]
    rfl
  · rfl

theorem wholeRoot_sound (h : Sound im) : Sound (im.withInode ROOTINO im.wholeRoot) := by
  refine ⟨⟨h.clean.zero, h.clean.bound⟩, ?_, ?_, fun _ _ hk => absurd hk (lt_irrefl 0), fun _ hk => absurd hk (lt_irrefl 0)⟩
  · refine h.good.owned.congr rfl (fun p _ _ => wholeRoot_addr im p) (fun p hp hno => ?_) (fun p hp hno => ?_) rfl
    · exact absurd ((wholeRoot_live im _).mp hp) hno
    · exact absurd ((wholeRoot_live im _).mpr hp) hno
  · intro i hi
    have hcnt : ((im.withInode ROOTINO im.wholeRoot).kernel noInodes []).cnt i = (im.kernel noInodes []).cnt i := by
      show blocksIn (Function.update im.inode ROOTINO im.wholeRoot i).size = blocksIn (im.inode i).size
      rw [Function.update_apply]
      split_ifs with hroot
      · rw [hroot]
        show blocksIn (blocksIn (im.inode ROOTINO).size * BSIZE) = _
        unfold blocksIn
        simp only [BSIZE]
        omega
      · rfl
    rw [hcnt]
    exact (h.good.shaped i ((wholeRoot_live im i).mp hi)).congr fun p _ => wholeRoot_addr im p

theorem wholeRoot_node (im : Image) (hi : i ≠ ROOTINO) : (im.withInode ROOTINO im.wholeRoot).node i = im.node i :=
  node_congr rfl rfl (Function.update_of_ne hi _ _)

theorem wholeRoot_contents {d : Dinode} (hlive : ((im.withInode ROOTINO d).node ROOTINO).type ≠ .free)
    (hsize : d.size ≤ NDIRECT * BSIZE) :
    ((im.withInode ROOTINO d).node ROOTINO).contents =
      (List.range d.size).map fun m => im.data (d.addrs (m / BSIZE)) (m % BSIZE) := by
  have hnode : (im.withInode ROOTINO d).node ROOTINO = _ := node_of_live (node_type_ne.mp hlive)
  have hino : ((im.withInode ROOTINO d).kernel noInodes []).vol.ino ROOTINO = d := by
    show Function.update im.inode ROOTINO d ROOTINO = d
    rw [Function.update_self]
  rw [hnode]
  show Vol.contents _ _ = _
  unfold Vol.contents
  rw [hino]
  refine List.map_congr_left fun m hm => ?_
  have hbn : m / BSIZE < NDIRECT := by
    have := List.mem_range.mp hm
    simp only [NDIRECT, BSIZE] at *
    omega
  unfold Vol.byte
  rw [addr_block_direct hbn, hino]
  rfl

theorem appendFile_bytes {bs : List UInt8} (h : Sound im) (hlive : (im.node ROOTINO).type ≠ .free)
    (hsize : blocksIn (im.inode ROOTINO).size ≤ NDIRECT) (hi : i ≠ ROOTINO) (hnode : im.node i = ⟨.file, 0, 0, 1, []⟩)
    (hmax : bs.length ≤ MAXFILE * BSIZE) (hroom : im.freeblock + blocksFor (blocksIn bs.length) ≤ FSSIZE) :
    Wp (appendFile i bs.length bs) im (fun _ im' => im'.inode ROOTINO = im.inode ROOTINO ∧
      ∀ m, m < blocksIn (im.inode ROOTINO).size * BSIZE → im'.byte m = im.byte m) fun _ => True := by
  have hsame : Wp (appendFile i bs.length bs) im (fun _ im' => im'.inode ROOTINO = im.inode ROOTINO) fun _ => True :=
    inode_kept (appendFile_commutes hi bs.length bs)
  have hother := wholeRoot_node im hi
  have hlive' : ((im.withInode ROOTINO im.wholeRoot).node ROOTINO).type ≠ .free :=
    node_type_ne.mpr ((wholeRoot_live im ROOTINO).mpr (node_type_ne.mp hlive))
  have hle : im.wholeRoot.size ≤ NDIRECT * BSIZE := Nat.mul_le_mul_right _ hsize
  have hzero : blocksFor (blocksIn 0) = 0 := by decide
  have hspec : Wp (appendFile i bs.length bs) (im.withInode ROOTINO im.wholeRoot)
      (fun _ im' => Appended (im.withInode ROOTINO im.wholeRoot) i bs im') fun _ => True := by
    refine (appendFile_spec _ _ bs le_rfl (wholeRoot_sound h) ?_ ?_ ?_ ?_).mono (fun _ _ hp => hp) fun _ _ => trivial
    · rw [hother, hnode]
      decide
    · rw [hother, hnode]
      decide
    · rw [hother, hnode, List.length_nil, Nat.zero_add]
      exact hmax
    · rw [hother, hnode, List.length_nil, Nat.zero_add, hzero]
      exact hroom
  refine (((appendFile_commutes hi bs.length bs).wp hspec).and hsame).mono ?_ fun _ _ => trivial
  intro _ im' hpost
  obtain ⟨happ, hroot⟩ := hpost
  -- the contents up to the end of the blocks are the same
  have hkeep : (im'.withInode ROOTINO im.wholeRoot).node ROOTINO = (im.withInode ROOTINO im.wholeRoot).node ROOTINO := by
    rw [happ.node, Function.update_of_ne hi.symm]
  have hcontents := congrArg Node.contents hkeep
  rw [wholeRoot_contents (hkeep ▸ hlive') hle, wholeRoot_contents hlive' hle, List.map_inj_left] at hcontents
  refine ⟨hroot, fun m hm => ?_⟩
  have hbyte := hcontents m (List.mem_range.mpr hm)
  unfold Image.byte
  rw [hroot]
  exact hbyte

theorem getD_append (l l' : List UInt8) (m : Nat) :
    (l ++ l').getD m 0 = if m < l.length then l.getD m 0 else l'.getD (m - l.length) 0 := by
  split_ifs with hm
  · exact List.getD_append _ _ _ _ hm
  · exact List.getD_append_right _ _ _ _ (Nat.le_of_not_lt hm)

theorem addFile_rooted (h : Rooted pre im) (hfit : Fits (pre ++ [f])) :
    Wp (addFile f) im (fun _ im' => Rooted (pre ++ [f]) im') fun _ => False := by
  refine ((addFile_spec h.toBuilt hfit).keep
    (R := fun _ im' => (∀ m, m < blocksIn (DESIZE * (2 + (pre ++ [f]).length)) * BSIZE →
    im'.byte m = (listing (pre ++ [f])).getD m 0) ∧ (im'.inode ROOTINO).nlink = 1 ∧ (im'.inode 0).type = .free) ?_).imp
    fun _ _ hp => ⟨hp.1, hp.2.1, hp.2.2.1, hp.2.2.2⟩
  have hb := h.toBuilt
  have hused := blocksUsed_append pre f
  have hblocks := hfit.blocks
  have hinodes := hfit.inodes
  rw [List.length_append, List.length_singleton] at hinodes
  have hbytes : f.bytes.length ≤ MAXFILE * BSIZE :=
    (le_blocksIn_mul _).trans (Nat.mul_le_mul_right _ (hfit.sizes f (by simp)))
  have hsize := hb.rootSize
  have hlen : DESIZE * (2 + (pre ++ [f]).length) = DESIZE * (2 + pre.length) + DESIZE := by
    rw [List.length_append, List.length_singleton]
    ring
  unfold addFile
  rw [if_neg (hfit.names f (by simp))]
  -- the new inode
  have halloc : Wp (ialloc .file) im (fun inum im' => inum = 2 + pre.length ∧ im'.data = im.data ∧
      im'.inode ROOTINO = im.inode ROOTINO ∧ im'.inode 0 = im.inode 0) fun _ => True := by
    unfold ialloc winode
    rw [wp_bind, wp_look, wp_bind, wp_update, wp_bind]
    refine Wp.ite (fun _ => ?_) fun _ => trivial
    refine ⟨hb.freeinode, rfl, ?_, ?_⟩
    · exact Function.update_of_ne (by rw [hb.freeinode]; simp only [ROOTINO]; omega) _ _
    · exact Function.update_of_ne (by rw [hb.freeinode]; omega) _ _
  refine Wp.bind ((ialloc_spec hb.sound (by decide) (by rw [hb.freeinode]; omega) (hb.dead _ hb.freeinode.ge)).and
    halloc |>.mono
    (fun _ _ hp => hp) fun _ _ => trivial) ?_
  intro inum im₁ hpost
  obtain ⟨⟨-, hsound₁, -, hblock₁, hnode₁⟩, rfl, hdata₁, hino₁, hzero₁⟩ := hpost
  rw [hb.freeinode] at hnode₁
  have hne : 2 + pre.length ≠ ROOTINO := by
    simp only [ROOTINO]
    omega
  have hroot₁ : im₁.node ROOTINO = im.node ROOTINO := by rw [hnode₁, Function.update_of_ne hne.symm]
  have hlive₁ : (im₁.node ROOTINO).type ≠ .free := by
    rw [hroot₁]
    exact ne_free_of_dir hb.root
  have hbyte₁ : im₁.byte = im.byte := by
    funext m
    unfold Image.byte
    rw [hdata₁, hino₁]
  have hde : (Dirent.encode ⟨2 + pre.length, f.entryName⟩).length = DESIZE := length_encode (length_pad _)
  have hdvd : DESIZE ∣ (im₁.inode ROOTINO).size := by
    rw [hino₁, hsize]
    exact Nat.dvd_mul_right ..
  have hdirect : (im₁.inode ROOTINO).size / BSIZE < NDIRECT := by
    rw [hino₁, hsize]
    simp only [DESIZE, BSIZE, NDIRECT, NINODES] at *
    omega
  -- its entry
  have hzero : ∀ {im : Image} (e : List UInt8), Wp (iappend ROOTINO e) im (fun _ im' => im'.inode 0 = im.inode 0)
    fun _ => True :=
    fun e => inode_kept (iappend_commutes (by decide) e)
  refine Wp.bind ((iappend_spec (i := ROOTINO) hsound₁ hlive₁ ?_ ?_ ?_ ?_).and
    ((iappend_entry hde hdvd hdirect).and (hzero _)) |>.mono
    (fun _ _ hp => hp) fun _ _ => trivial) ?_
  · rw [hroot₁, hb.root]
    decide
  · rw [hroot₁, hb.entries, hde]
    simp only [MAXFILE, NDIRECT, NINDIRECT, BSIZE, DESIZE, NINODES] at *
    omega
  · rw [hroot₁, hb.entries, hde, hblock₁, hb.freeblock]
    omega
  · intro hnil
    rw [hnil] at hde
    exact absurd hde (by decide)
  intro _ im₂ hpost
  obtain ⟨h₂, ⟨b, hdata₂, haddrs₂, hb₂, hnlink₂⟩, hzero₂⟩ := hpost
  have hsize₁ : (im₁.inode ROOTINO).size = DESIZE * (2 + pre.length) := by rw [hino₁, hsize]
  rw [hsize₁] at hdata₂ haddrs₂ hb₂
  have hbyte₂ : ∀ m, m < blocksIn (DESIZE * (2 + pre.length) + DESIZE) * BSIZE →
      im₂.byte m = (listing (pre ++ [f])).getD m 0 := by
    intro m hm
    rw [entry_byte hsound₁ hlive₁ hsize₁ hde (Nat.dvd_mul_right ..) (hsize₁ ▸ hdirect) ?_ hdata₂ haddrs₂ hb₂ hm,
      listing_append,
      getD_append, length_listing]
    · split_ifs with hlt
      · rw [hbyte₁]
        refine h.byte m (hlt.trans_le ?_)
        exact le_blocksIn_mul _
      · rfl
    · intro m hm hm'
      rw [hbyte₁, h.byte m hm', List.getD_eq_default _ _ (by rw [length_listing]; exact hm)]
  have hroot₂ : im₂.node ROOTINO = { im.node ROOTINO with
      contents := (im.node ROOTINO).contents ++ Dirent.encode ⟨2 + pre.length, f.entryName⟩ } := by
    rw [h₂.node, Function.update_self, hroot₁]
  have hlive₂ : (im₂.node ROOTINO).type ≠ .free := by
    rw [hroot₂]
    exact ne_free_of_dir hb.root
  have hsize₂ : (im₂.inode ROOTINO).size = DESIZE * (2 + pre.length) + DESIZE := by
    have hnode : im₂.node ROOTINO = _ := node_of_live (node_type_ne.mp hlive₂)
    have hcontents : (im₂.node ROOTINO).contents.length = (im₂.inode ROOTINO).size := by
      rw [hnode]
      exact length_contents _ _
    rw [← hcontents, hroot₂, List.length_append, hb.entries, hde]
  have hpaid₂ := h₂.paid
  rw [hroot₁, hb.entries, hde, hblock₁, hb.freeblock] at hpaid₂
  -- its contents
  refine ((appendFile_bytes h₂.sound hlive₂ ?_ hne ?_ hbytes ?_).and
    (inode_kept (j := 0) (appendFile_commutes (by omega) _ _))).mono ?_ fun _ _ => trivial
  · rw [hsize₂]
    unfold blocksIn
    simp only [DESIZE, BSIZE, NDIRECT, NINODES] at *
    omega
  · rw [h₂.node, Function.update_of_ne hne, hnode₁, Function.update_self]
  · omega
  · intro _ im₃ hpost
    obtain ⟨⟨hroot₃, hsame⟩, hzero₃⟩ := hpost
    refine ⟨fun m hm => ?_, ?_, ?_⟩
    · rw [hlen] at hm
      rw [hsame m (by rw [hsize₂]; exact hm), hbyte₂ m hm]
    · rw [hroot₃, hnlink₂, hino₁, h.nlink]
    · rw [hzero₃, hzero₂, hzero₁]
      exact h.zero

theorem rootEntry_spec {im₁ : Image} {q : List UInt8} {name : Name} (hroot₁ : im₁.node ROOTINO = ⟨.dir, 0, 0, 1, []⟩)
    (hblock₁ : im₁.freeblock = nmeta) (hq : Appended im₁ ROOTINO q im)
    (hbyte : ∀ m, m < blocksIn q.length * BSIZE → im.byte m = q.getD m 0)
    (hnlink : (im.inode ROOTINO).nlink = 1) (hlen : q.length ≤ DESIZE) (hdvd : DESIZE ∣ q.length)
    (hname : name.length = DIRSIZ) :
    Wp (iappend ROOTINO (Dirent.encode ⟨ROOTINO, name⟩)) im
      (fun _ im' => Appended im₁ ROOTINO (q ++ Dirent.encode ⟨ROOTINO, name⟩) im' ∧
      (∀ m, m < blocksIn (q ++ Dirent.encode ⟨ROOTINO, name⟩).length * BSIZE →
        im'.byte m = (q ++ Dirent.encode ⟨ROOTINO, name⟩).getD m 0) ∧
      (im'.inode ROOTINO).nlink = 1 ∧ im'.inode 0 = im.inode 0) fun _ => False := by
  have hde : (Dirent.encode ⟨ROOTINO, name⟩).length = DESIZE := length_encode hname
  have hroot : im.node ROOTINO = ⟨.dir, 0, 0, 1, q⟩ := by
    rw [hq.node, Function.update_self, hroot₁]
    rfl
  have hlive : (im.node ROOTINO).type ≠ .free := by
    rw [hroot]
    exact ne_free_of_dir rfl
  have hsize : (im.inode ROOTINO).size = q.length := by
    have hnode : im.node ROOTINO = _ := node_of_live (node_type_ne.mp hlive)
    have hcontents : (im.node ROOTINO).contents.length = (im.inode ROOTINO).size := by
      rw [hnode]
      exact length_contents _ _
    rw [← hcontents, hroot]
  have hpaid := hq.paid
  rw [hroot₁, List.length_nil, Nat.zero_add, hblock₁] at hpaid
  have hfirst : blocksFor (blocksIn (q.length + DESIZE)) ≤ blocksFor 1 := blocksFor_mono (by
    unfold blocksIn
    simp only [BSIZE, DESIZE] at *
    omega)
  have hfirst' := blocksFor_mono (blocksIn_mono (Nat.le_add_right q.length DESIZE))
  have hone : blocksFor 1 = 1 := by decide
  have hdirect : (im.inode ROOTINO).size / BSIZE < NDIRECT := by
    rw [hsize]
    simp only [DESIZE, BSIZE, NDIRECT] at *
    omega
  have hkept : Wp (iappend ROOTINO (Dirent.encode ⟨ROOTINO, name⟩)) im (fun _ im' => im'.inode 0 = im.inode 0)
    fun _ => True :=
    inode_kept (iappend_commutes (by decide) _)
  refine ((iappend_spec hq.sound hlive ?_ ?_ ?_ ?_).and ((iappend_entry hde (hsize ▸ hdvd) hdirect).and hkept)).mono ?_
    fun _ he => he.1
  · rw [hroot]
    exact (by decide : FType.dir ≠ .dev)
  · rw [hroot, hde]
    simp only [MAXFILE, NDIRECT, NINDIRECT, BSIZE, DESIZE] at *
    omega
  · rw [hroot, hde]
    simp only [nmeta, nlog, ninodeblocks, nbitmap, FSSIZE, NINODES, BSIZE, IPB, Log.LOGSIZE, Log.MAXOPBLOCKS] at *
    omega
  · intro hnil
    rw [hnil] at hde
    exact absurd hde (by decide)
  · intro _ im' hpost
    obtain ⟨happ, ⟨b, hdata, haddrs, hb, hsame⟩, hzero⟩ := hpost
    rw [hsize] at hdata haddrs hb
    refine ⟨hq.trans happ, fun m hm => ?_, hsame.trans hnlink, hzero⟩
    rw [List.length_append, hde] at hm
    rw [entry_byte hq.sound hlive hsize hde hdvd (hsize ▸ hdirect) ?_ hdata haddrs hb hm, getD_append]
    · split_ifs with hlt
      · exact hbyte m (hlt.trans_le (le_blocksIn_mul _))
      · rfl
    · intro m hm hm'
      rw [hbyte m hm', List.getD_eq_default _ _ hm]

theorem main_rooted {files : List HostFile} (hfit : Fits files) :
    Wp (main files) blank (fun _ im' => ∃ im, Rooted files im ∧ im' = im.finish) fun _ => False := by
  unfold main
  have hnew : Wp (ialloc .dir) blank (fun _ im' => (im'.inode ROOTINO).nlink = 1 ∧ (im'.inode 0).type = .free)
    fun _ => True := by
    have hin : blank.freeinode < ninodeblocks * IPB := by decide
    unfold ialloc winode
    rw [wp_bind, wp_look, wp_bind, wp_update, if_pos hin, wp_bind, wp_update]
    exact ⟨rfl, rfl⟩
  refine Wp.bind ((ialloc_spec blank_sound (by decide) (by decide) (blank_node _)).keep hnew) ?_
  intro rootino im₁ hpost
  obtain ⟨⟨rfl, hsound₁, hinode₁, hblock₁, hnode₁⟩, hnlink₁, hzero₁⟩ := hpost
  have hblank : blank.freeinode = ROOTINO := rfl
  rw [hblank] at hnode₁ ⊢
  have hroot₁ : im₁.node ROOTINO = ⟨.dir, 0, 0, 1, []⟩ := by rw [hnode₁, Function.update_self]
  rw [if_pos rfl]
  have hlen : dot.length = DIRSIZ := length_pad _
  refine Wp.bind (rootEntry_spec (q := []) hroot₁ hblock₁ (.refl hsound₁ _) ?_ hnlink₁ (by decide) (Nat.dvd_zero _) hlen) ?_
  · intro m hm
    exact absurd hm (by decide +revert)
  intro _ im₂ hpost
  obtain ⟨h₂, hbyte₂, hnlink₂, hzero₂⟩ := hpost
  rw [List.nil_append] at h₂ hbyte₂
  have hdot : (Dirent.encode ⟨ROOTINO, dot⟩).length = DESIZE := length_encode (length_pad _)
  refine Wp.bind (rootEntry_spec hroot₁ hblock₁ h₂ hbyte₂ hnlink₂ hdot.le (hdot ▸ dvd_rfl) (length_pad _)) ?_
  intro _ im₃ hpost
  obtain ⟨h₃, hbyte₃, hnlink₃, hzero₃⟩ := hpost
  have hlen : (Dirent.encode ⟨ROOTINO, dot⟩ ++ Dirent.encode ⟨ROOTINO, dotdot⟩).length = 2 * DESIZE := by
    rw [List.length_append, hdot, length_encode (length_pad _)]
    rfl
  have hnil : Rooted [] im₃ := by
    refine ⟨Built.nil hnode₁ hinode₁ hblock₁ hlen h₃, fun m hm => ?_, hnlink₃, by rw [hzero₃, hzero₂]; exact hzero₁⟩
    rw [hbyte₃ m (by rw [hlen]; exact hm)]
    unfold listing rootEntries
    simp
  refine Wp.bind (Wp.each Rooted files (fun pre f post im hl hb => ?_) hnil) ?_
  · refine addFile_rooted hb (Fits.of_append (l := post) ?_)
    rw [List.append_assoc, List.singleton_append, ← hl]
    exact hfit
  intro _ im hb
  unfold fixRoot rinode winode balloc
  have hroot : ROOTINO < ninodeblocks * IPB := by decide
  have hused : im.freeblock < BSIZE * 8 := lt_of_le_of_lt hb.sound.clean.bound (by decide)
  simp only [if_pos hroot, wp_bind, wp_look, wp_update, if_pos hused]
  exact ⟨im, hb, rfl⟩

theorem mkfs_rooted {files : List HostFile} (hfit : Fits files) : ∃ im, Rooted files im ∧ mkfs files = .ok im.finish := by
  obtain ⟨_, _, hrun, im, hb, rfl⟩ := (main_rooted hfit).returns
  refine ⟨im, hb, ?_⟩
  unfold mkfs
  rw [hrun]
  rfl

end bytes

/-! ## The root directory of the finished image -/

section entries

variable {im : Image} {files : List HostFile}

theorem entries_cons {de : Dirent} (hde : de.name.length = DIRSIZ) (bs : List UInt8) :
    entries (de.encode ++ bs) = de.stored :: entries bs := by
  have hlen := length_encode hde
  have hdiv : (de.encode ++ bs).length / DESIZE = bs.length / DESIZE + 1 := by
    rw [List.length_append, hlen, Nat.add_comm, Nat.add_div_right _ (by decide)]
  have hfirst : direntAt (de.encode ++ bs) 0 = de.stored := by
    unfold direntAt
    rw [Nat.mul_zero, List.drop_zero, ← hlen, List.take_left, decode_encode]
  have hrest : ∀ j, direntAt (de.encode ++ bs) (j + 1) = direntAt bs j := by
    intro j
    unfold direntAt
    rw [Nat.mul_succ, Nat.add_comm, ← List.drop_drop, ← hlen, List.drop_left]
  unfold entries
  rw [hdiv, List.range_succ_eq_map, List.map_cons, List.map_map, hfirst]
  congr 1
  exact List.map_congr_left fun j _ => hrest j

theorem entries_flatMap (bs : List UInt8) : ∀ es : List Dirent, (∀ de ∈ es, de.name.length = DIRSIZ) →
    entries (es.flatMap Dirent.encode ++ bs) = es.map Dirent.stored ++ entries bs := by
  intro es
  induction es with
  | nil => exact fun _ => rfl
  | cons de es ih =>
    intro h
    rw [List.flatMap_cons, List.append_assoc, entries_cons (h de List.mem_cons_self),
      ih fun x hx => h x (List.mem_cons_of_mem _ hx)]
    rfl

theorem entries_zeros (k : Nat) : entries (List.replicate (DESIZE * k) 0) = List.replicate k Dirent.zero := by
  induction k with
  | zero => rfl
  | succ k ih =>
    have hzero : List.replicate DESIZE (0 : UInt8) = Dirent.zero.encode := by decide
    rw [Nat.mul_succ, Nat.add_comm, List.replicate_add, hzero, entries_cons rfl, ih]
    rfl

theorem rootEntries_inum (hfit : Fits files) : ∀ de ∈ rootEntries files, 0 < de.inum ∧ de.inum < NINODES := by
  intro de hde
  have hlen := hfit.inodes
  unfold rootEntries at hde
  rcases List.mem_cons.mp hde with rfl | hde
  · exact (by decide : 0 < ROOTINO ∧ ROOTINO < NINODES)
  · rcases List.mem_cons.mp hde with rfl | hde
    · exact (by decide : 0 < ROOTINO ∧ ROOTINO < NINODES)
    · obtain ⟨x, hx, rfl⟩ := List.mem_map.mp hde
      have := List.snd_lt_of_mem_zipIdx hx
      simp only [NINODES] at *
      omega

theorem rootEntries_getElem? (files : List HostFile) (j : Nat) :
    (rootEntries files)[j + 2]? = files[j]?.map fun f => ⟨2 + j, f.entryName⟩ := by
  unfold rootEntries
  rw [List.getElem?_cons_succ, List.getElem?_cons_succ, List.getElem?_map, List.getElem?_zipIdx, Option.map_map]
  simp only [Nat.zero_add]
  rfl

def padding (files : List HostFile) : Nat := blocksIn (DESIZE * (2 + files.length)) * 32 - (2 + files.length)

/-- The nodes of the image as the kernel finds it. -/
structure Nodes (files : List HostFile) (T : Nat → Node) : Prop where
  root : (T ROOTINO).type = .dir ∧ (T ROOTINO).nlink = 1
  whole : DESIZE ∣ (T ROOTINO).contents.length
  listed : entries (T ROOTINO).contents = rootEntries files ++ List.replicate (padding files) Dirent.zero
  file : ∀ j f, files[j]? = some f → T (2 + j) = ⟨.file, 0, 0, 1, f.bytes⟩
  dead : ∀ i, i ≠ ROOTINO → (∀ j, i = 2 + j → files.length ≤ j) → T i = .none

theorem Rooted.nodes (h : Rooted files im) (hfit : Fits files) (h32 : (files.length + 2) % 32 ≠ 0) :
    Nodes files im.finish.vol.node := by
  have hother : ∀ i, i ≠ ROOTINO → im.finish.vol.node i = im.node i := fun i hi => node_congr rfl rfl (finish_other im hi)
  have hroot : im.finish.vol.node ROOTINO = _ := node_of_live h.root_live
  have hino : im.finish.vol.ino ROOTINO = { im.inode ROOTINO with size := roundSize (im.inode ROOTINO).size } :=
    finish_root im
  have hsize : roundSize (im.inode ROOTINO).size = blocksIn (DESIZE * (2 + files.length)) * BSIZE := by
    rw [h.rootSize]
    unfold roundSize blocksIn
    simp only [DESIZE, BSIZE]
    omega
  have hpad : blocksIn (DESIZE * (2 + files.length)) * BSIZE = DESIZE * (2 + files.length) + DESIZE * padding files := by
    unfold padding blocksIn
    simp only [DESIZE, BSIZE]
    omega
  have hdirect : blocksIn (DESIZE * (2 + files.length)) ≤ NDIRECT := by
    have := hfit.inodes
    unfold blocksIn
    simp only [DESIZE, BSIZE, NDIRECT, NINODES] at *
    omega
  have hbytes : im.finish.vol.contents ROOTINO =
      (List.range (blocksIn (DESIZE * (2 + files.length)) * BSIZE)).map im.byte := by
    have hsize' : (im.finish.vol.ino ROOTINO).size = blocksIn (DESIZE * (2 + files.length)) * BSIZE := by rw [hino, ← hsize]
    unfold Vol.contents
    rw [hsize']
    refine List.map_congr_left fun m hm => ?_
    have hbn : m / BSIZE < NDIRECT := by
      have := List.mem_range.mp hm
      simp only [NDIRECT, BSIZE] at *
      omega
    unfold Vol.byte Image.byte
    rw [addr_block_direct hbn, hino]
    rfl
  have hcontents : im.finish.vol.contents ROOTINO = listing files ++ List.replicate (DESIZE * padding files) 0 := by
    rw [hbytes]
    refine List.ext_getElem ?_ fun m hm hm' => ?_
    · rw [List.length_map, List.length_range, List.length_append, length_listing, List.length_replicate, hpad]
    · rw [List.length_map, List.length_range] at hm
      rw [List.getElem_map, List.getElem_range, h.byte m hm, List.getElem_append]
      split_ifs with hin
      · exact List.getD_eq_getElem _ _ hin
      · rw [List.getElem_replicate, List.getD_eq_default _ _ (Nat.le_of_not_lt hin)]
  have hstored : (rootEntries files).map Dirent.stored = rootEntries files := by
    refine (List.map_congr_left fun de hde => ?_).trans (List.map_id _)
    have hlt := (rootEntries_inum hfit de hde).2
    unfold Dirent.stored
    rw [Nat.mod_eq_of_lt (hlt.trans (by decide))]
    rfl
  have htype : (im.finish.vol.node ROOTINO).type = .dir := by
    have hb := h.root
    have hold : im.node ROOTINO = _ := node_of_live ((finish_live im ROOTINO).mp h.root_live)
    rw [hold] at hb
    rw [hroot, hino]
    exact hb
  refine ⟨⟨htype, ?_⟩, ?_, ?_, ?_, ?_⟩
  · rw [hroot, hino]
    exact h.nlink
  · rw [hroot]
    show DESIZE ∣ (im.finish.vol.contents ROOTINO).length
    rw [hcontents, List.length_append, length_listing, List.length_replicate, ← Nat.mul_add]
    exact Nat.dvd_mul_right ..
  · rw [hroot]
    show Fs.entries (im.finish.vol.contents ROOTINO) = _
    rw [hcontents]
    unfold listing
    rw [entries_flatMap _ _ rootEntries_name, hstored, entries_zeros]
  · intro j g hj
    rw [hother (2 + j) (by simp only [ROOTINO]; omega)]
    exact h.file j g hj
  · intro i hi hno
    rw [hother i hi]
    by_cases hz : i = 0
    · rw [hz]
      exact if_neg fun hl => hl.2 h.zero
    · obtain ⟨j, rfl⟩ : ∃ j, i = 2 + j := ⟨i - 2, by simp only [ROOTINO] at hi; omega⟩
      exact h.dead _ (Nat.add_le_add_left (hno j rfl) 2)

/-! ## The tree of the image -/

/-- The names in the root directory are different. -/
def Differ (files : List HostFile) : Prop := (([dot, dotdot] ++ files.map HostFile.entryName).map key).Nodup

instance (files : List HostFile) : Decidable (Differ files) := inferInstanceAs (Decidable (List.Nodup _))

namespace Nodes

variable {T : Nat → Node} {d i j : Nat} {κ : List UInt8}

theorem live (h : Nodes files T) (hi : (T i).type ≠ .free) : i = ROOTINO ∨ ∃ j f, i = 2 + j ∧ files[j]? = some f := by
  by_contra hno
  rw [not_or] at hno
  refine hi ?_
  rw [h.dead i hno.1]
  · rfl
  · intro j hj
    by_contra hlt
    exact hno.2 ⟨j, _, hj, List.getElem?_eq_getElem (Nat.lt_of_not_le hlt)⟩

theorem dir (h : Nodes files T) (hd : (T d).type = .dir) : d = ROOTINO := by
  rcases h.live (ne_free_of_dir hd) with rfl | ⟨j, f, rfl, hj⟩
  · rfl
  · rw [h.file j f hj] at hd
    cases hd

theorem entry_iff (h : Nodes files T) : Entry T d j κ i ↔
    d = ROOTINO ∧ ∃ de, (rootEntries files)[j]? = some de ∧ de.Has κ ∧ de.inum = i := by
  have hget : ∀ de : Dirent, de.Has κ → ((entries (T ROOTINO).contents)[j]? = some de ↔
    (rootEntries files)[j]? = some de) := by
    intro de hde
    rw [h.listed, List.getElem?_append]
    split_ifs with hj
    · exact Iff.rfl
    · rw [List.getElem?_eq_none (Nat.le_of_not_lt hj), List.getElem?_replicate]
      refine iff_of_false ?_ (Option.some_ne_none _).symm
      split_ifs
      · intro heq
        cases heq
        exact hde.1 rfl
      · exact not_false
  constructor
  · intro he
    obtain ⟨hd, de, hde, hhas, hi⟩ := he
    obtain rfl := h.dir hd
    exact ⟨rfl, de, (hget de hhas).mp hde, hhas, hi⟩
  · rintro ⟨rfl, de, hde, hhas, hi⟩
    exact ⟨h.root.1, de, (hget de hhas).mpr hde, hhas, hi⟩

theorem entry_file (h : Nodes files T) (he : Entry T d j κ i) (hj : 2 ≤ j) : i = j ∧ ∃ f, files[j - 2]? = some f := by
  obtain ⟨-, de, hde, -, rfl⟩ := h.entry_iff.mp he
  obtain ⟨m, rfl⟩ : ∃ m, j = m + 2 := ⟨j - 2, by omega⟩
  rw [rootEntries_getElem?] at hde
  obtain ⟨f, hf, rfl⟩ := Option.map_eq_some_iff.mp hde
  exact ⟨Nat.add_comm 2 m, f, hf⟩

theorem no_subdir (h : Nodes files T) (he : Entry T d j κ i) (hj : 2 ≤ j) : (T i).type = .file := by
  obtain ⟨rfl, f, hf⟩ := h.entry_file he hj
  have hnode := h.file _ f hf
  rw [show 2 + (i - 2) = i by omega] at hnode
  rw [hnode]

theorem tree (h : Nodes files T) (hfit : Fits files) : Tree NINODES T := by
  have hlen := hfit.inodes
  have hdot : Entry T ROOTINO 0 (key dot) ROOTINO := h.entry_iff.mpr ⟨rfl, _, rfl, ⟨by decide, rfl⟩, rfl⟩
  have hdotdot : Entry T ROOTINO 1 (key dotdot) ROOTINO := h.entry_iff.mpr ⟨rfl, _, rfl, ⟨by decide, rfl⟩, rfl⟩
  have hlow : ∀ {d j κ i}, Entry T d j κ i → j < 2 → d = ROOTINO ∧ i = ROOTINO := by
    intro d j κ i he hj
    obtain rfl := h.dir he.1
    obtain rfl | rfl : j = 0 ∨ j = 1 := by omega
    · exact ⟨rfl, (he.fn hdot).2⟩
    · exact ⟨rfl, (he.fn hdotdot).2⟩
  refine ⟨?_, ?_, ⟨h.root.1, hdotdot⟩, ?_, ?_, ?_, ?_, ?_⟩
  · intro i hi
    rcases h.live hi with rfl | ⟨j, f, rfl, hj⟩
    · decide
    · have := (List.getElem?_eq_some_iff.mp hj).1
      simp only [NINODES] at *
      omega
  · intro d hd
    rw [h.dir hd]
    exact hdot
  · intro d j κ i he
    rcases Nat.lt_or_ge j 2 with hj | hj
    · rw [(hlow he hj).2]
      exact ne_free_of_dir h.root.1
    · rw [h.no_subdir he hj]
      decide
  · intro d j κ i he hj hi
    rw [h.no_subdir he hj] at hi
    cases hi
  · intro d j j' κ κ' i he _ hj _ hi
    rw [h.no_subdir he hj] at hi
    cases hi
  · intro d hd
    rw [h.dir hd]
    exact .root
  · -- every inode has one link
    intro i hi
    rcases h.live hi with rfl | ⟨j, f, rfl, hj⟩
    · have hset : links T ROOTINO = {(ROOTINO, 1)} := by
        ext x
        constructor
        · rintro ⟨⟨κ, he⟩, hx⟩
          rcases Nat.lt_or_ge x.2 2 with hlt | hge
          · have hd := (hlow he hlt).1
            refine Prod.ext hd ?_
            by_contra hne
            exact hx ⟨hd, by simp only at hne; omega⟩
          · have := h.no_subdir he hge
            rw [h.root.1] at this
            cases this
        · rintro rfl
          exact ⟨⟨_, hdotdot⟩, by decide⟩
      rw [hset, Set.ncard_singleton, h.root.2]
      rfl
    · have he : Entry T ROOTINO (j + 2) (key f.entryName) (2 + j) := by
        refine h.entry_iff.mpr ⟨rfl, ⟨2 + j, f.entryName⟩, ?_, ⟨?_, rfl⟩, rfl⟩
        · rw [rootEntries_getElem?, hj]
          rfl
        · exact (Nat.add_pos_left (by decide) j).ne'
      have hset : links T (2 + j) = {(ROOTINO, j + 2)} := by
        ext x
        constructor
        · rintro ⟨⟨κ, he'⟩, -⟩
          rcases Nat.lt_or_ge x.2 2 with hlt | hge
          · have := (hlow he' hlt).2
            simp only [ROOTINO] at this
            omega
          · refine Prod.ext (h.dir he'.1) ?_
            have := (h.entry_file he' hge).1
            simp only
            omega
        · rintro rfl
          exact ⟨⟨_, he⟩, fun hx => by have := hx.1; simp only [ROOTINO] at this; omega⟩
      rw [hset, Set.ncard_singleton, h.file j f hj]
      rfl

theorem distinct (h : Nodes files T) (hname : Differ files) : Distinct (entries (T ROOTINO).contents) := by
  have hfiles : (files.zipIdx.map fun x => (⟨2 + x.2, x.1.entryName⟩ : Dirent)).map (fun de => key de.name) =
      (files.map HostFile.entryName).map key := by
    rw [List.map_map, List.map_map]
    exact (List.map_map (l := files.zipIdx) (f := Prod.fst) (g := key ∘ HostFile.entryName)).symm.trans
      (congrArg _ (List.zipIdx_map_fst 0 files))
  have hkeys : (rootEntries files).map (fun de => key de.name) =
      ([dot, dotdot] ++ files.map HostFile.entryName).map key := by
    unfold rootEntries
    rw [List.map_cons, List.map_cons, hfiles]
    rfl
  intro κ j j' de de' hj hj' hhas hhas'
  -- the two entries are among those of the files
  have hkey : ∀ {j : Nat} {de : Dirent}, (Fs.entries (T ROOTINO).contents)[j]? = some de → de.Has κ →
      ((rootEntries files).map fun de => key de.name)[j]? = some κ := by
    intro j de hj hhas
    obtain ⟨-, x, hx, hxκ, -⟩ := h.entry_iff.mp ⟨h.root.1, de, hj, hhas, rfl⟩
    rw [List.getElem?_map, hx, Option.map_some, hxκ.2]
  have hk := hkey hj hhas
  unfold Differ at hname
  rw [← hkeys] at hname
  exact (List.getElem?_inj (List.getElem?_eq_some_iff.mp hk).1 hname).mp (hk.trans (hkey hj' hhas').symm)

end Nodes

theorem superblock_small : superblock.Small := by
  unfold Superblock.Small superblock
  decide

theorem Rooted.sound_disk (h : Rooted files im) (hfit : Fits files) (hname : Differ files)
    (h32 : (files.length + 2) % 32 ≠ 0) :
    im.finish.disk.Sound := by
  have hn : Nodes files im.finish.disk.vol.node := h.nodes hfit h32
  have ht : Tree im.finish.disk.sb.ninodes im.finish.disk.vol.node := by
    show Tree superblock.ninodes _
    rw [superblock_ninodes]
    exact hn.tree hfit
  refine ⟨⟨finish_owned h.sound, fun i hi => h.shaped h32 hi, ?_, ?_, ?_⟩, ht, ?_, superblock_small⟩
  · intro i hi
    obtain rfl := hn.dir hi
    refine ⟨hn.whole, ?_, hn.distinct hname⟩
    intro de hde
    show de.inum < superblock.ninodes
    rw [superblock_ninodes]
    rw [hn.listed] at hde
    rcases List.mem_append.mp hde with hde | hde
    · exact (rootEntries_inum hfit de hde).2
    · rw [List.eq_of_mem_replicate hde]
      decide
  · show ROOTINO < superblock.ninodes
    rw [superblock_ninodes]
    decide
  · rw [hn.root.2]
    decide
  · refine Set.eq_empty_iff_forall_notMem.mpr fun i hi => ?_
    obtain ⟨hlive, hz⟩ := hi
    rcases hn.live (node_type_ne.mpr hlive) with rfl | ⟨j, f, rfl, hj⟩
    · rw [hn.root.2] at hz
      cases hz
    · rw [hn.file j f hj] at hz
      cases hz

end entries

/-- The kernel can boot from the image of files that fit and whose names are different, and finds every file there under
its name. -/
theorem mkfs_boots (files : List HostFile) (hfit : Fits files) (hname : Differ files) (h32 : (files.length + 2) % 32 ≠ 0) :
    ∃ im, mkfs files = .ok im ∧ im.disk.Sound ∧ ∀ j f, files[j]? = some f →
      dirMap (entries (im.disk.vol.node ROOTINO).contents) (key f.entryName) = some (2 + j) ∧
      im.disk.vol.node (2 + j) = ⟨.file, 0, 0, 1, f.bytes⟩ := by
  obtain ⟨im, h, hrun⟩ := mkfs_rooted hfit
  have hn : Nodes files im.finish.disk.vol.node := h.nodes hfit h32
  refine ⟨im.finish, hrun, h.sound_disk hfit hname h32, fun j f hj => ⟨?_, hn.file j f hj⟩⟩
  refine (hn.distinct hname).dirMap_eq_some.mpr ⟨j + 2, ⟨2 + j, f.entryName⟩, ?_, ⟨?_, rfl⟩, rfl⟩
  · have hget : (rootEntries files)[j + 2]? = some ⟨2 + j, f.entryName⟩ := by
      rw [rootEntries_getElem?, hj]
      rfl
    rw [hn.listed, List.getElem?_append_left (List.getElem?_eq_some_iff.mp hget).1]
    exact hget
  · exact (Nat.add_pos_left (by decide) j).ne'

def twoFiles : List HostFile := [⟨[102], [1, 2, 3]⟩, ⟨[95, 103], [4]⟩]

/-- The leading underscore of the second name is left out. -/
theorem mkfs_boots_two : ∃ im, mkfs twoFiles = .ok im ∧ im.disk.Sound ∧
    im.disk.vol.node 2 = ⟨.file, 0, 0, 1, [1, 2, 3]⟩ ∧
    dirMap (entries (im.disk.vol.node ROOTINO).contents) [103] = some 3 ∧ im.disk.vol.node 3 = ⟨.file, 0, 0, 1, [4]⟩ := by
  obtain ⟨im, hrun, hsound, hfile⟩ :=
    mkfs_boots twoFiles ⟨by decide, by decide, by decide, by decide⟩ (by decide) (by decide)
  exact ⟨im, hrun, hsound, (hfile 0 _ rfl).2, (hfile 1 _ rfl).1, (hfile 1 _ rfl).2⟩

end Xv6Mlfq.Fs.Mkfs
