import Xv6Mlfq.Fs.Cache
import Xv6Mlfq.Fs.Dirent
import Xv6Mlfq.Log.Model

/-!
# The image that mkfs writes (mkfs.c)

mkfs is a program of its own, with its own allocator: blocks and inodes are given out in order. The image is kept by
regions as the disk of the kernel is, but its bitmap is the block of bytes that mkfs writes at the end. The argument
is a simulation: the loop of `iappend` does on the image what the loop of the kernel's `writei` does on a disk whose
bitmap marks the blocks below `freeblock` (`iappend_sim`), so what is known of `writei` is known of `iappend`.
-/

namespace Xv6Mlfq.Fs.Mkfs

open Lib

/-! ## The program -/

abbrev NINODES : Nat := 200
abbrev nbitmap : Nat := FSSIZE / (BSIZE * 8) + 1
abbrev ninodeblocks : Nat := NINODES / IPB + 1
abbrev nlog : Nat := Log.LOGSIZE
/-- The blocks in front of the data blocks: boot, super, log, inodes, bitmap. -/
abbrev nmeta : Nat := 2 + nlog + ninodeblocks + nbitmap
abbrev nblocks : Nat := FSSIZE - nmeta

/-- `sb`. It stays folded: statements about the kernel's code on an image would be evaluated otherwise. -/
@[irreducible] def superblock : Superblock :=
  ⟨FSSIZE, nblocks, NINODES, 2 + nlog, 2 + nlog + ninodeblocks, by decide, by decide⟩

@[simp] theorem superblock_size : superblock.size = FSSIZE := by
  unfold superblock
  rfl

@[simp] theorem superblock_ninodes : superblock.ninodes = NINODES := by
  unfold superblock
  rfl

@[simp] theorem superblock_dataStart : superblock.dataStart = nmeta := by
  unfold Superblock.dataStart superblock
  rfl

/-- The image under construction, with `freeinode` and `freeblock`. -/
structure Image where
  inode : Nat → Dinode
  /-- The bitmap block; there is only one (`nbitmap`). -/
  bitmap : Block
  data : Nat → Block
  freeinode : Nat
  freeblock : Nat

/-- The image after all its blocks are zeroed. -/
def blank : Image := ⟨fun _ => .zero, fun _ => 0, fun _ _ => 0, 1, nmeta⟩

inductive Fault where
  /-- A failed `assert`. -/
  | assertion
  /-- `perror("read")`: there is no such block in the image. -/
  | read
  /-- An inode number beyond the inode blocks. -/
  | noInode
  deriving DecidableEq, Repr

abbrev Host : Type → Type := Prog Image Fault

def rsect (sec : Nat) : Host Block :=
  if sec < FSSIZE then look fun im => im.data sec else stop .read

def wsect (sec : Nat) (buf : Block) : Host Unit :=
  update fun im => { im with data := Function.update im.data sec buf }

def rinode (inum : Nat) : Host Dinode :=
  if inum < ninodeblocks * IPB then look fun im => im.inode inum else stop .noInode

def winode (inum : Nat) (din : Dinode) : Host Unit :=
  if inum < ninodeblocks * IPB then update fun im => { im with inode := Function.update im.inode inum din }
  else stop .noInode

def ialloc (type : FType) : Host Nat := do
  let inum ← look fun im => im.freeinode
  update fun im => { im with freeinode := im.freeinode + 1 }
  winode inum { Dinode.zero with type := type, nlink := 1, size := 0 }
  return inum

def newBlock : Host Nat := do
  let b ← look fun im => im.freeblock
  update fun im => { im with freeblock := im.freeblock + 1 }
  return b

/-- `if(din.addrs[i] == 0) din.addrs[i] = freeblock++;` -/
def fillAddr (din : Dinode) (i : Nat) : Host Dinode :=
  if din.addrs i = 0 then do
    let b ← newBlock
    return { din with addrs := Function.update din.addrs i b }
  else return din

/-- `if(indirect[j] == 0){ indirect[j] = freeblock++; wsect(sec, indirect); }` -/
def fillEntry (sec : Nat) (indirect : Block) (j : Nat) : Host Block :=
  if word indirect j = 0 then do
    let b ← newBlock
    wsect sec (setWord j b indirect)
    return setWord j b indirect
  else return indirect

/-- The block `x` that `iappend` writes to for block `fbn` of the file, with the inode. -/
def blockFor (din : Dinode) (fbn : Nat) : Host (Nat × Dinode) :=
  if fbn < NDIRECT then do
    let din ← fillAddr din fbn
    return (din.addrs fbn, din)
  else do
    let din ← fillAddr din NDIRECT
    let indirect ← rsect (din.addrs NDIRECT)
    let indirect ← fillEntry (din.addrs NDIRECT) indirect (fbn - NDIRECT)
    return (word indirect (fbn - NDIRECT), din)

/-- The loop of `iappend`. Each pass writes at least one byte, so `n` passes are enough. -/
def iappendLoop : Nat → Dinode → Nat → List UInt8 → Host (Dinode × Nat)
  | 0, din, off, _ => return (din, off)
  | fuel + 1, din, off, p =>
    if p = [] then return (din, off)
    else if off / BSIZE < MAXFILE then do
      let fbn := off / BSIZE
      let x ← blockFor din fbn
      let n1 := min p.length ((fbn + 1) * BSIZE - off)
      let buf ← rsect x.1
      wsect x.1 (memmove (off - fbn * BSIZE) (p.take n1) buf)
      iappendLoop fuel x.2 (off + n1) (p.drop n1)
    else stop .assertion

def iappend (inum : Nat) (p : List UInt8) : Host Unit := do
  let din ← rinode inum
  let r ← iappendLoop p.length din din.size p
  winode inum { r.1 with size := r.2 }

def marks (used : Nat) : Block :=
  (List.range used).foldl
    (fun buf i => Function.update buf (i / 8) (buf (i / 8) ||| UInt8.ofNat (1 <<< (i % 8)))) fun _ => 0

def balloc (used : Nat) : Host Unit :=
  if used < BSIZE * 8 then update fun im => { im with bitmap := marks used } else stop .assertion

structure HostFile where
  name : List UInt8
  bytes : List UInt8

def underscore : UInt8 := 95

/-- `while((cc = read(fd, buf, sizeof(buf))) > 0) iappend(inum, buf, cc);` -/
def appendFile (inum : Nat) : Nat → List UInt8 → Host Unit
  | 0, _ => return ()
  | fuel + 1, bs =>
    if bs = [] then return ()
    else do
      iappend inum (bs.take BSIZE)
      appendFile inum fuel (bs.drop BSIZE)

/-- One pass of the loop of `main` over the files. -/
def addFile (f : HostFile) : Host Unit :=
  if slash ∈ f.name then stop .assertion
  else do
    let name := if f.name.head? = some underscore then f.name.tail else f.name
    let inum ← ialloc .file
    iappend ROOTINO (Dirent.encode ⟨inum, pad name⟩)
    appendFile inum f.bytes.length f.bytes

/-- The size of the root directory in the end. -/
def roundSize (off : Nat) : Nat := (off / BSIZE + 1) * BSIZE

def fixRoot (rootino : Nat) : Host Unit := do
  let din ← rinode rootino
  winode rootino { din with size := roundSize din.size }

/-- `main` from `rootino = ialloc(T_DIR)` on. -/
def main (files : List HostFile) : Host Unit := do
  let rootino ← ialloc .dir
  if rootino = ROOTINO then do
    iappend rootino (Dirent.encode ⟨rootino, dot⟩)
    iappend rootino (Dirent.encode ⟨rootino, dotdot⟩)
    each files addFile
    fixRoot rootino
    let used ← look fun im => im.freeblock
    balloc used
  else stop .assertion

def mkfs (files : List HostFile) : Except Fault Image := (main files blank).map Prod.snd

/-! ## The bitmap -/

/-- `(bp->data[bi/8] & m) != 0` with `m = 1 << (bi % 8)`, as the kernel reads the bitmap. -/
def bit (blk : Block) (b : Nat) : Bool := decide (blk (b / 8) &&& UInt8.ofNat (1 <<< (b % 8)) ≠ 0)

theorem and_mask (x : UInt8) {j : Nat} (hj : j < 8) : x &&& UInt8.ofNat (1 <<< j) ≠ 0 ↔ x.toNat.testBit j = true := by
  have hpow : 2 ^ j < 256 := Nat.pow_lt_pow_right (by decide) hj
  have hmask : (UInt8.ofNat (1 <<< j)).toNat = 2 ^ j := by
    rw [Nat.one_shiftLeft, toNat_ofNat, Nat.mod_eq_of_lt hpow]
  rw [Ne, ← UInt8.toNat_inj, UInt8.toNat_and, hmask, Nat.and_two_pow]
  cases x.toNat.testBit j with
  | false => simp
  | true => simp

theorem bit_iff (blk : Block) (b : Nat) : bit blk b = true ↔ (blk (b / 8)).toNat.testBit (b % 8) = true := by
  unfold bit
  rw [decide_eq_true_iff]
  exact and_mask _ (Nat.mod_lt _ (by decide))

theorem bit_marks (used b : Nat) : bit (marks used) b = decide (b < used) := by
  induction used with
  | zero => simp [bit, marks]
  | succ n ih =>
    have hstep : marks (n + 1) =
        Function.update (marks n) (n / 8) (marks n (n / 8) ||| UInt8.ofNat (1 <<< (n % 8))) := by
      simp [marks, List.range_succ]
    rw [Bool.eq_iff_iff] at ih ⊢
    rw [bit_iff, decide_eq_true_iff] at ih ⊢
    rw [hstep, Function.update_apply]
    split_ifs with hbyte
    · have hpow : 2 ^ (n % 8) < 256 := Nat.pow_lt_pow_right (by decide) (Nat.mod_lt _ (by decide))
      rw [UInt8.toNat_or, Nat.testBit_or, Nat.one_shiftLeft, toNat_ofNat, Nat.mod_eq_of_lt hpow, Nat.testBit_two_pow,
        Bool.or_eq_true, ← hbyte, ih, decide_eq_true_iff]
      omega
    · rw [ih]
      have : b ≠ n := fun h => hbyte (h ▸ rfl)
      omega

def Image.vol (im : Image) : Vol := ⟨superblock, im.inode, bit im.bitmap, im.data⟩

/-! ## iappend as the kernel's writei -/

/-- A cache with inode `i` in its first entry. -/
def cache (i : Nat) (d : Dinode) : IRef → Inode :=
  Function.update (fun _ => ⟨0, 0, false, false, .zero⟩) 0 ⟨i, 1, true, true, d⟩

/-- A state of the kernel on the image, where the blocks below `freeblock` are in use. -/
def Image.kernel (im : Image) (icache : IRef → Inode) (l : List Nat) : FS where
  sb := superblock
  inode := im.inode
  bitmap := fun b => decide (b < im.freeblock)
  data := im.data
  icache := icache
  ftable := fun _ => ⟨.none, 0, false, false, 0, 0⟩
  proc := fun _ => ⟨fun _ => none, none⟩
  outstanding := 0
  logged := l

/-- The blocks from `freeblock` on have not been written to. -/
structure Clean (im : Image) : Prop where
  zero : ∀ b, im.freeblock ≤ b → im.data b = fun _ => 0
  bound : im.freeblock ≤ FSSIZE

/-- What the two programs keep: the kernel's state is that of the image, with inode `i` in the cache. -/
structure Follows (i : Nat) (im : Image) (d : Dinode) (s' : FS) (im' : Image) : Prop where
  clean : Clean im'
  freeinode : im'.freeinode = im.freeinode
  inode : im'.inode = im.inode
  state : ∃ l, s' = im'.kernel (cache i d) l

section simulation

variable {im im' im'' : Image} {i : Nat} {d d' : Dinode} {ic : IRef → Inode} {l : List Nat} {s s' : FS}
  {k : IRef}

@[simp] theorem cache_self (i : Nat) (d : Dinode) : cache i d 0 = ⟨i, 1, true, true, d⟩ := Function.update_self ..

theorem cache_update (i : Nat) (d d' : Dinode) :
    Function.update (cache i d) 0 ⟨i, 1, true, true, d'⟩ = cache i d' := Function.update_idem ..

theorem wp_setCopy {f : Dinode → Dinode} {Q : Unit → FS → Prop} {E : Stop → Prop} :
    Wp (setCopy 0 f) (im.kernel (cache i d) l) Q E ↔ Q () (im.kernel (cache i (f d)) l) := by
  have hcache : Function.update (cache i d) 0 { cache i d 0 with copy := f (cache i d 0).copy } = cache i (f d) := by
    rw [cache_self, cache_update]
  show Q () (im.kernel (Function.update (cache i d) 0 { cache i d 0 with copy := f (cache i d 0).copy }) l) ↔ _
  rw [hcache]

theorem Follows.refl (h : Clean im) (i : Nat) (d : Dinode) (l : List Nat) :
    Follows i im d (im.kernel (cache i d) l) im := ⟨h, rfl, rfl, l, rfl⟩

theorem Follows.trans (h : Follows i im d s im') (h' : Follows i im' d' s' im'') : Follows i im d' s' im'' :=
  ⟨h'.clean, h'.freeinode.trans h.freeinode, h'.inode.trans h.inode, h'.state⟩

theorem Clean.newBlock (h : Clean im) (hlt : im.freeblock < FSSIZE) :
    Clean { im with freeblock := im.freeblock + 1 } :=
  ⟨fun b hb => h.zero b (Nat.le_of_succ_le hb), hlt⟩

theorem balloc_sim (h : Clean im) (ic : IRef → Inode) (l : List Nat) :
    Sim Fs.balloc newBlock (im.kernel ic l) im fun b b' s' im' => b' = b ∧ b < FSSIZE ∧
      b < im'.freeblock ∧ im' = { im with freeblock := im.freeblock + 1 } ∧ Clean im' ∧ ∃ l', s' = im'.kernel ic l' := by
  unfold Sim Fs.balloc
  rw [wp_bind, wp_look]
  cases hfind : (List.range (id (im.kernel ic l)).sb.size).find? fun b => !(id (im.kernel ic l)).bitmap b with
  | none => trivial
  | some b =>
    obtain ⟨hfree, hmem, hfirst⟩ := List.find?_range_eq_some.mp hfind
    have hlt : b < FSSIZE := superblock_size ▸ List.mem_range.mp hmem
    have hge : im.freeblock ≤ b := by simpa [Image.kernel] using hfree
    have heq : b = im.freeblock := by
      by_contra hne
      have := hfirst im.freeblock (by omega)
      simp [Image.kernel] at this
    subst heq
    have hbits : Function.update (fun b => decide (b < im.freeblock)) im.freeblock true =
        fun b => decide (b < im.freeblock + 1) := by
      funext c
      simp only [Function.update_apply]
      split_ifs with hc
      · simp [hc]
      · rw [decide_eq_decide]
        omega
    refine ⟨rfl, hlt, Nat.lt_succ_self _, rfl, h.newBlock hlt, im.freeblock :: superblock.bblock im.freeblock :: l, ?_⟩
    simp only [Image.kernel, id, hbits, ← h.zero _ le_rfl, Function.update_eq_self]

theorem fillAddr_sim (h : Clean im) (i : Nat) (d : Dinode) (l : List Nat) (j : Nat) :
    Sim (bmapAddr 0 j) (fillAddr d j) (im.kernel (cache i d) l) im fun b d' s' im' => b = d'.addrs j ∧
      (d.addrs j < im.freeblock → b < im'.freeblock) ∧ Follows i im d' s' im' := by
  unfold bmapAddr fillAddr
  refine Sim.look_left ?_
  rw [show (im.kernel (cache i d) l).icache 0 = ⟨i, 1, true, true, d⟩ from cache_self i d]
  refine Sim.ite Iff.rfl (fun hzero => ?_) fun hne => ?_
  · refine Sim.bind (balloc_sim h (cache i d) l) ?_
    rintro b b' s' im' ⟨rfl, -, hb, rfl, hclean, l', rfl⟩
    have hself : b' = Function.update d.addrs j b' j := (Function.update_self j b' d.addrs).symm
    exact wp_bind.mpr (wp_setCopy.mpr ⟨hself, fun _ => hb, hclean, rfl, rfl, l', rfl⟩)
  · exact ⟨rfl, fun hlt => hlt, .refl h i d l⟩

theorem blockFor_sim (h : Clean im) (hptr : d.addrs NDIRECT < im.freeblock) {fbn : Nat} (hfbn : fbn < MAXFILE)
    (l : List Nat) :
    Sim (bmap 0 fbn) (blockFor d fbn) (im.kernel (cache i d) l) im fun b r s' im' =>
      b = r.1 ∧ Follows i im r.2 s' im' := by
  unfold bmap blockFor
  refine Sim.ite Iff.rfl (fun hd => ?_) fun hd => ?_
  · refine Wp.imp (fillAddr_sim h i d l fbn) fun b s' hw => wp_bind.mpr (hw.imp ?_)
    rintro d' im' ⟨hb, -, hf⟩
    exact ⟨hb, hf⟩
  · rw [if_pos (by simp only [MAXFILE, NDIRECT, NINDIRECT] at *; omega)]
    refine Sim.bind (fillAddr_sim h i d l NDIRECT) ?_
    rintro a d' s' im' ⟨rfl, hlt, hf⟩
    obtain ⟨l', rfl⟩ := hf.state
    have ha := hlt hptr
    unfold rsect fillEntry
    rw [if_pos (ha.trans_le hf.clean.bound)]
    refine Sim.look_left (Sim.look_right ?_)
    show Sim (if word (im'.data (d'.addrs NDIRECT)) _ = 0 then _ else _) _ _ _ _
    by_cases hzero : word (im'.data (d'.addrs NDIRECT)) (fbn - NDIRECT) = 0
    · rw [if_pos hzero, if_pos hzero, bind_assoc]
      refine Sim.bind (balloc_sim hf.clean (cache i d') l') ?_
      rintro b b' s'' im'' ⟨rfl, hb, -, rfl, hclean, l'', rfl⟩
      have hword : b' = word (setWord (fbn - NDIRECT) b' (im'.data (d'.addrs NDIRECT))) (fbn - NDIRECT) := by
        rw [word_setWord _ _ _ (lt_trans hb (by decide)), if_pos rfl]
      refine ⟨hword, hf.trans ⟨⟨fun c hc => ?_, hclean.bound⟩, rfl, rfl, _, rfl⟩⟩
      have hne : c ≠ d'.addrs NDIRECT := (ha.trans_le (Nat.le_of_succ_le hc)).ne'
      exact (Function.update_of_ne hne _ _).trans (hclean.zero c hc)
    · rw [if_neg hzero, if_neg hzero]
      exact ⟨rfl, hf⟩

@[simp] theorem kernel_slot (im : Image) (i : Nat) (d : Dinode) (l : List Nat) :
    (im.kernel (cache i d) l).icache 0 = ⟨i, 1, true, true, d⟩ := cache_self i d

theorem kernel_loaded (im : Image) (i : Nat) (d : Dinode) (l : List Nat) : Loaded (im.kernel (cache i d) l) 0 := by
  refine ⟨?_, ?_⟩
  · rw [kernel_slot]
    exact Nat.one_pos
  · rw [kernel_slot]

theorem addr_lt (hg : Owned ((im.kernel ic l).volAt k)) {p : Place} (hp : ((im.kernel ic l).volAt k).Live p.inum) :
    ((im.kernel ic l).volAt k).addr p < im.freeblock := by
  by_cases hne : ((im.kernel ic l).volAt k).addr p = 0
  · -- block 0 is marked as well
    have hzero : 0 < superblock.size := by rw [superblock_size]; decide
    rw [hne]
    exact of_decide_eq_true ((hg.bits 0 hzero).mpr (.inl fun h => h.ne_zero rfl))
  · exact of_decide_eq_true (hg.marked hp hne)

theorem iappendLoop_sim (fuel : Nat) : ∀ (im : Image) (d : Dinode) (l : List Nat) (cnt : Nat → Nat) (off : Nat)
    (src : List UInt8), Clean im → src.length ≤ fuel →
    Growing (im.kernel (cache i d) l) 0 cnt (NDIRECT < cnt i) → off ≤ cnt i * BSIZE →
    off + src.length ≤ MAXFILE * BSIZE →
      Sim (writeiLoop 0 fuel off src) (iappendLoop fuel d off src) (im.kernel (cache i d) l) im fun _ r s' im' =>
        r.2 = off + src.length ∧ Follows i im r.1 s' im' := by
  induction fuel with
  | zero =>
    intro im d l cnt off src hclean hlen _ _ _
    obtain rfl : src = [] := List.length_eq_zero_iff.mp (by omega)
    exact ⟨rfl, .refl hclean i d l⟩
  | succ fuel ih =>
    intro im d l cnt off src hclean hlen hg hoff hmax
    unfold writeiLoop iappendLoop
    refine Sim.ite Iff.rfl (fun h0 => ?_) fun h0 => ?_
    · subst h0
      exact ⟨rfl, .refl hclean i d l⟩
    have hpos : 0 < src.length := List.length_pos_iff.mpr h0
    have hbn : off / BSIZE < MAXFILE := by
      simp only [MAXFILE, NDIRECT, NINDIRECT, BSIZE] at *
      omega
    rw [if_pos hbn]
    have hlive := hg.live
    rw [kernel_slot] at hlive
    have hptr : d.addrs NDIRECT < im.freeblock := by
      have hlt : (((im.kernel (cache i d) l).volAt 0).ino i).addrs NDIRECT < im.freeblock :=
        addr_lt hg.owned (p := .indirect i) hlive
      have hself := volAt_self (im.kernel (cache i d) l) 0
      rw [kernel_slot] at hself
      rwa [hself] at hlt
    have hle : off / BSIZE ≤ cnt (((im.kernel (cache i d) l).icache 0).inum) := by
      simp only [kernel_slot, BSIZE] at *
      omega
    have hmap := bmap_spec hg hle hbn
    refine Sim.bind ((blockFor_sim hclean hptr hbn l).keep (hmap.mono (fun _ _ h => h) fun _ _ => trivial)) ?_
    rintro b r s₁ im₁ ⟨hmap, rfl, hf⟩
    obtain ⟨l₁, rfl⟩ := hf.state
    have hrem : off - off / BSIZE * BSIZE = off % BSIZE := by
      simp only [BSIZE]
      omega
    have hleft : (off / BSIZE + 1) * BSIZE - off = BSIZE - off % BSIZE := by
      simp only [BSIZE]
      omega
    have hm : 0 < min src.length (BSIZE - off % BSIZE) := by
      simp only [BSIZE]
      omega
    have hblocks : off + min src.length (BSIZE - off % BSIZE) ≤ (off / BSIZE + 1) * BSIZE := by
      simp only [BSIZE]
      omega
    simp only [hrem, hleft]
    generalize hmin : min src.length (BSIZE - off % BSIZE) = m at hm hblocks
    -- both write the same bytes to the block, which is in use
    have hb : r.1 < im₁.freeblock := by
      rw [hmap.addr]
      exact addr_lt hmap.growing.owned ((hmap.touches.live _).mpr hg.live)
    unfold rsect
    rw [if_pos (hb.trans_le hf.clean.bound)]
    refine Sim.look_right ?_
    generalize hblk : memmove (off % BSIZE) (src.take m) (im₁.data r.1) = blk
    have hclean₂ : Clean { im₁ with data := Function.update im₁.data r.1 blk } :=
      ⟨fun c hc => (Function.update_of_ne (hb.trans_le hc).ne' _ _).trans (hf.clean.zero c hc), hf.clean.bound⟩
    obtain ⟨ht₂, hg₂, -⟩ := hmap.growing.store
      (Image.kernel { im₁ with data := Function.update im₁.data r.1 blk } (cache i r.2) (r.1 :: l₁)) (off / BSIZE) (by
        rw [hmap.touches.inum, ← hmap.addr]
        rfl)
    have hnext := ih _ r.2 (r.1 :: l₁) (Function.update cnt i (max (cnt i) (off / BSIZE + 1))) (off + m) (src.drop m)
      hclean₂ (by rw [List.length_drop]; omega) ?_ ?_ ?_
    · -- the second part of the loop
      subst hblk
      refine Sim.update_left (Sim.update_left (Sim.update_right (Sim.mono hnext ?_)))
      rintro _ r' s' im' ⟨hr, hf'⟩
      rw [List.length_drop] at hr
      exact ⟨by omega, hf.trans ⟨hf'.clean, hf'.freeinode, hf'.inode, hf'.state⟩⟩
    · simpa using hg₂
    · rw [Function.update_self]
      exact hblocks.trans (Nat.mul_le_mul_right _ (le_max_right ..))
    · rw [List.length_drop]
      omega

theorem iappend_sim {src : List UInt8} (hclean : Clean im) (hgood : Good (im.kernel (cache i (im.inode i)) l))
    (htype : (im.inode i).type ≠ .dev) (hpos : src ≠ []) (hmax : (im.inode i).size + src.length ≤ MAXFILE * BSIZE) :
    Sim (writei 0 src (im.inode i).size) (iappend i src) (im.kernel (cache i (im.inode i)) l) im fun _ _ s' im' =>
      Clean im' ∧ im'.freeinode = im.freeinode ∧ ∃ l', s' = im'.kernel (cache i (im'.inode i)) l' := by
  have hloaded := kernel_loaded im i (im.inode i) l
  have hgrow := hgood.growing hloaded
  rw [kernel_slot] at hgrow
  have hi : i < ninodeblocks * IPB := by
    have hlive : _ < superblock.ninodes := (hgood.live hloaded).1
    rw [kernel_slot, superblock_ninodes] at hlive
    exact hlive.trans (by decide)
  have hlen : 0 < src.length := List.length_pos_iff.mpr hpos
  have hsize : ((im.inode i).size + src.length) % UINT = (im.inode i).size + src.length :=
    Nat.mod_eq_of_lt (hmax.trans_lt (by decide))
  unfold writei iappend rinode winode
  simp only [if_pos hi]
  refine Sim.look_left (Sim.look_right ?_)
  rw [kernel_slot]
  simp only [if_neg htype, hsize]
  rw [if_neg (by omega), if_neg (by omega)]
  refine Sim.bind (iappendLoop_sim _ im _ l _ _ src hclean le_rfl hgrow (le_blocksIn_mul _) hmax) ?_
  rintro _ r s' im' ⟨hr, hf⟩
  obtain ⟨l', rfl⟩ := hf.state
  rw [if_pos ⟨hlen, by omega⟩, hr]
  refine wp_bind.mpr (wp_setCopy.mpr ?_)
  simp only [iupdate, Fs.inode, logWrite, wp_bind, wp_look, wp_update, wp_pure, kernel_slot]
  refine ⟨⟨hf.clean.zero, hf.clean.bound⟩, hf.freeinode, superblock.iblock i :: l', ?_⟩
  rw [Function.update_self]
  rfl

end simulation

end Xv6Mlfq.Fs.Mkfs
