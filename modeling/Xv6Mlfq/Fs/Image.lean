import Xv6Mlfq.Fs.Mkfs

/-!
# The image is what the kernel expects

`Sound` says that an image is a good disk for the kernel, and `Appended` what `iappend` does to it, from what is known
of the kernel's `writei`. `Built` is the invariant of the loop of `main` over the files. The last two steps
(`Image.finish`) write the bitmap, and round the size of the root directory up to the next multiple of the block size:
also when it is one already, and then the directory has a size without a block (`mkfs_agrees`, `root_block_unmapped`).
-/

namespace Xv6Mlfq.Fs.Mkfs

open Lib

/-! ## What is in the image -/

def noInodes : IRef → Inode := fun _ => ⟨0, 0, false, false, .zero⟩

/-- The image up to here is a good disk for the kernel. -/
structure Sound (im : Image) : Prop where
  clean : Clean im
  good : Good (im.kernel noInodes [])

def Image.node (im : Image) : Nat → Node := (im.kernel noInodes []).vol.node

/-- `iappend` has put `p` at the end of inode `i`. -/
structure Appended (im : Image) (i : Nat) (p : List UInt8) (im' : Image) : Prop where
  sound : Sound im'
  freeinode : im'.freeinode = im.freeinode
  node : im'.node = Function.update im.node i { im.node i with contents := (im.node i).contents ++ p }
  paid : im'.freeblock + blocksFor (blocksIn (im.node i).contents.length) =
    im.freeblock + blocksFor (blocksIn ((im.node i).contents.length + p.length))

section contents

variable {im im' im'' : Image} {i : Nat} {p q : List UInt8}

theorem freeIn_below (n f : Nat) : freeIn n (fun b => decide (b < f)) = n - f := by
  unfold freeIn
  have hset : (Finset.range n).filter (fun b => decide (b < f) = false) = Finset.Ico f n := by
    ext b
    simp only [Finset.mem_filter, Finset.mem_range, decide_eq_false_iff_not, Finset.mem_Ico]
    omega
  rw [hset, Nat.card_Ico]

theorem kernel_free (im : Image) (ic : IRef → Inode) (l : List Nat) : (im.kernel ic l).free = FSSIZE - im.freeblock := by
  unfold FS.free
  rw [show (im.kernel ic l).sb.size = FSSIZE from superblock_size]
  exact freeIn_below _ _

theorem Sound.of_good {ic : IRef → Inode} {l : List Nat} (hclean : Clean im) (h : Good (im.kernel ic l)) : Sound im :=
  ⟨hclean, h.owned, h.shaped, fun _ _ hk => absurd hk (lt_irrefl 0), fun _ hk => absurd hk (lt_irrefl 0)⟩

theorem Sound.cached (h : Sound im) (hi : (im.node i).type ≠ .free) : Good (im.kernel (cache i (im.inode i)) []) := by
  refine h.good.setEntry (k := 0) (fun _ j _ hj => absurd hj (lt_irrefl 0)) fun _ _ => ⟨?_, rfl⟩
  exact node_type_ne.mp hi

theorem Appended.refl (h : Sound im) (i : Nat) : Appended im i [] im := by
  refine ⟨h, rfl, ?_, rfl⟩
  rw [List.append_nil, Function.update_eq_self]

theorem Appended.trans (h : Appended im i p im') (h' : Appended im' i q im'') : Appended im i (p ++ q) im'' := by
  have hnode : im'.node i = { im.node i with contents := (im.node i).contents ++ p } := by
    rw [h.node, Function.update_self]
  have hpaid := h.paid
  have hpaid' := h'.paid
  rw [hnode] at hpaid'
  simp only [List.length_append] at hpaid'
  refine ⟨h'.sound, h'.freeinode.trans h.freeinode, ?_, ?_⟩
  · rw [h'.node, hnode, h.node, Function.update_idem, List.append_assoc]
  · rw [List.length_append, ← Nat.add_assoc]
    omega

theorem write_end {d : Node} (hdev : d.type ≠ .dev) (hmax : d.contents.length + p.length ≤ MAXFILE * BSIZE) :
    (d.write d.contents.length p).2 = { d with contents := d.contents ++ p } := by
  have hsize : (d.contents.length + p.length) % UINT = d.contents.length + p.length :=
    Nat.mod_eq_of_lt (hmax.trans_lt (by decide))
  unfold Node.write
  rw [if_neg hdev, hsize, if_neg (by omega), if_neg (by omega)]
  simp [splice]

theorem iappend_spec (h : Sound im) (hlive : (im.node i).type ≠ .free) (hdev : (im.node i).type ≠ .dev)
    (hmax : (im.node i).contents.length + p.length ≤ MAXFILE * BSIZE)
    (hroom : im.freeblock + blocksFor (blocksIn ((im.node i).contents.length + p.length)) ≤
      FSSIZE + blocksFor (blocksIn (im.node i).contents.length)) (hp : p ≠ []) :
    Wp (iappend i p) im (fun _ im' => Appended im i p im') fun _ => False := by
  have hgood := h.cached hlive
  have hnode : im.node i = _ := node_of_live (node_type_ne.mp hlive)
  have hsize : (im.node i).contents.length = (im.inode i).size := by
    rw [hnode]
    exact length_contents _ _
  have htype : (im.node i).type = (im.inode i).type := by rw [hnode]; rfl
  have hloaded := kernel_loaded im i (im.inode i) []
  have hwrite := writei_spec hgood hloaded (im.inode i).size p
  have hend : ((im.node i).write (im.inode i).size p).2 = _ := hsize ▸ write_end hdev hmax
  have hbound := h.clean.bound
  refine (Sim.returns (iappend_sim h.clean hgood (htype ▸ hdev) hp (hsize ▸ hmax)) hwrite ?_).imp ?_
  · rintro e ⟨-, hfull⟩
    rw [kernel_slot, kernel_free] at hfull
    change _ + blocksFor (blocksIn (im.node i).contents.length) <
      blocksFor (blocksIn ((im.node i).write _ p).2.contents.length) at hfull
    rw [hend, List.length_append] at hfull
    omega
  · rintro _ im' ⟨a, s', hpost, hclean, hinode, l', rfl⟩
    have hview := congrArg View.node hpost.view
    have hpaid := hpost.paid
    have hbound' := hclean.bound
    rw [kernel_slot] at hview
    rw [kernel_slot, kernel_free, kernel_free] at hpaid
    change im'.node = Function.update im.node i ((im.node i).write _ p).2 at hview
    change _ + blocksFor (blocksIn ((im.node i).write _ p).2.contents.length) =
      _ + blocksFor (blocksIn (im.node i).contents.length) at hpaid
    rw [hend] at hview hpaid
    rw [List.length_append] at hpaid
    exact ⟨.of_good hclean hpost.good, hinode, hview, by omega⟩

theorem appendFile_spec (fuel : Nat) : ∀ (im : Image) (bs : List UInt8), bs.length ≤ fuel → Sound im →
    (im.node i).type ≠ .free → (im.node i).type ≠ .dev →
    (im.node i).contents.length + bs.length ≤ MAXFILE * BSIZE →
    im.freeblock + blocksFor (blocksIn ((im.node i).contents.length + bs.length)) ≤
      FSSIZE + blocksFor (blocksIn (im.node i).contents.length) →
      Wp (appendFile i fuel bs) im (fun _ im' => Appended im i bs im') fun _ => False := by
  induction fuel with
  | zero =>
    intro im bs hlen h _ _ _ _
    obtain rfl : bs = [] := List.length_eq_zero_iff.mp (by omega)
    exact .refl h i
  | succ fuel ih =>
    intro im bs hlen h hlive hdev hmax hroom
    unfold appendFile
    refine Wp.ite (fun h0 => ?_) fun h0 => ?_
    · subst h0
      exact .refl h i
    have hpos : 0 < bs.length := List.length_pos_iff.mpr h0
    have htake : (bs.take BSIZE).length ≤ bs.length := by
      rw [List.length_take]
      omega
    have hsplit : (bs.take BSIZE).length + (bs.drop BSIZE).length = bs.length := by
      rw [← List.length_append, List.take_append_drop]
    have hmono := blocksFor_mono (blocksIn_mono (Nat.add_le_add_left htake (im.node i).contents.length))
    refine Wp.bind (iappend_spec h hlive hdev (by omega) (by omega) ?_) ?_
    · intro hnil
      rw [List.take_eq_nil_iff] at hnil
      exact hnil.elim (by decide) h0
    · intro _ im₁ h₁
      have hnode : im₁.node i = { im.node i with contents := (im.node i).contents ++ bs.take BSIZE } := by
        rw [h₁.node, Function.update_self]
      have hpaid := h₁.paid
      have hlen₁ : (im₁.node i).contents.length = (im.node i).contents.length + (bs.take BSIZE).length := by
        rw [hnode, List.length_append]
      refine (ih im₁ (bs.drop BSIZE) ?_ h₁.sound (by rwa [hnode]) (by rwa [hnode]) (by omega) ?_).imp fun _ im₂ h₂ => ?_
      · rw [List.length_drop]
        simp only [BSIZE]
        omega
      · rw [hlen₁, Nat.add_assoc, hsplit]
        omega
      · have := h₁.trans h₂
        rwa [List.take_append_drop] at this

theorem ialloc_spec (h : Sound im) {type : FType} (htype : type ≠ .free) (hlt : im.freeinode < NINODES)
    (hdead : im.node im.freeinode = .none) :
    Wp (ialloc type) im (fun inum im' => inum = im.freeinode ∧ Sound im' ∧ im'.freeinode = im.freeinode + 1 ∧
      im'.freeblock = im.freeblock ∧ im'.node = Function.update im.node im.freeinode ⟨type, 0, 0, 1, []⟩)
      fun _ => False := by
  have hnew := h.good.newInode (i := im.freeinode) (d := { Dinode.zero with type := type, nlink := 1, size := 0 })
    (l := []) (fun hlive => node_type_ne.mpr hlive (congrArg Node.type hdead)) htype
    (by show _ < superblock.ninodes; rw [superblock_ninodes]; exact hlt) rfl fun _ => rfl
  unfold ialloc winode
  rw [wp_bind, wp_look, wp_bind, wp_update, if_pos (hlt.trans (by decide)), wp_bind, wp_update, wp_pure]
  refine ⟨rfl, .of_good ⟨h.clean.zero, h.clean.bound⟩ hnew.good, rfl, rfl, ?_⟩
  exact congrArg View.node hnew.view

end contents

/-- The blocks that an image with these files uses. -/
def blocksUsed (files : List HostFile) : Nat :=
  nmeta + blocksFor (blocksIn (DESIZE * (2 + files.length))) +
    (files.map fun f => blocksFor (blocksIn f.bytes.length)).sum

/-- The files fit the image, and their names are accepted. -/
structure Fits (files : List HostFile) : Prop where
  inodes : files.length + 1 < NINODES
  blocks : blocksUsed files ≤ FSSIZE
  sizes : ∀ f ∈ files, blocksIn f.bytes.length ≤ MAXFILE
  names : ∀ f ∈ files, slash ∉ f.name

/-- The image once the files `pre` are in it: the root directory has two entries and one for each file, and file `j`
is inode `2 + j`. -/
structure Built (pre : List HostFile) (im : Image) : Prop where
  sound : Sound im
  freeinode : im.freeinode = 2 + pre.length
  freeblock : im.freeblock = blocksUsed pre
  root : (im.node ROOTINO).type = .dir
  entries : (im.node ROOTINO).contents.length = DESIZE * (2 + pre.length)
  file : ∀ j f, pre[j]? = some f → im.node (2 + j) = ⟨.file, 0, 0, 1, f.bytes⟩
  dead : ∀ i, 2 + pre.length ≤ i → im.node i = .none

section files

variable {im im' : Image} {pre : List HostFile} {f : HostFile}

theorem blocksUsed_append (pre : List HostFile) (f : HostFile) :
    blocksUsed (pre ++ [f]) + blocksFor (blocksIn (DESIZE * (2 + pre.length))) =
      blocksUsed pre + blocksFor (blocksIn (DESIZE * (2 + pre.length) + DESIZE)) +
        blocksFor (blocksIn f.bytes.length) := by
  have hlen : DESIZE * (2 + (pre ++ [f]).length) = DESIZE * (2 + pre.length) + DESIZE := by
    rw [List.length_append, List.length_singleton]
    ring
  unfold blocksUsed
  rw [hlen, List.map_append, List.sum_append, List.map_singleton, List.sum_singleton]
  omega

theorem addFile_spec (hb : Built pre im) (hfit : Fits (pre ++ [f])) :
    Wp (addFile f) im (fun _ im' => Built (pre ++ [f]) im') fun _ => False := by
  have hused := blocksUsed_append pre f
  have hblocks := hfit.blocks
  have hinodes := hfit.inodes
  rw [List.length_append, List.length_singleton] at hinodes
  have hsize : f.bytes.length ≤ MAXFILE * BSIZE := by
    have := hfit.sizes f (by simp)
    exact (le_blocksIn_mul _).trans (Nat.mul_le_mul_right _ this)
  have hfree := hb.freeblock
  have hroot := hb.entries
  unfold addFile
  rw [if_neg (hfit.names f (by simp))]
  refine Wp.bind (ialloc_spec hb.sound (by decide) (by rw [hb.freeinode]; omega) ?_) ?_
  · exact hb.dead _ hb.freeinode.ge
  rintro inum im₁ ⟨rfl, hsound₁, hinode₁, hblock₁, hnode₁⟩
  rw [hb.freeinode] at hnode₁
  have hroot₁ : im₁.node ROOTINO = im.node ROOTINO := by
    rw [hnode₁, Function.update_of_ne (by simp only [ROOTINO]; omega)]
  generalize hname : (if f.name.head? = some underscore then f.name.tail else f.name) = name
  have hde : (Dirent.encode ⟨im.freeinode, pad name⟩).length = DESIZE := length_encode (length_pad _)
  -- the entry of the file in the root directory
  refine Wp.bind (iappend_spec (i := ROOTINO) hsound₁ ?_ ?_ ?_ ?_ ?_) ?_
  · rw [hroot₁, hb.root]
    decide
  · rw [hroot₁, hb.root]
    decide
  · rw [hroot₁, hroot, hde]
    simp only [MAXFILE, NDIRECT, NINDIRECT, BSIZE, DESIZE, NINODES] at *
    omega
  · rw [hroot₁, hroot, hde, hblock₁, hfree]
    omega
  · intro hnil
    rw [hnil] at hde
    exact absurd hde (by decide)
  intro _ im₂ h₂
  have hpaid₂ := h₂.paid
  rw [hroot₁, hroot, hde] at hpaid₂
  have hfile₂ : im₂.node (2 + pre.length) = ⟨.file, 0, 0, 1, []⟩ := by
    rw [h₂.node, Function.update_of_ne (by simp only [ROOTINO]; omega), hnode₁, Function.update_self]
  rw [hb.freeinode]
  have hzero : blocksFor (blocksIn 0) = 0 := by decide
  -- its contents
  refine (appendFile_spec _ im₂ f.bytes le_rfl h₂.sound ?_ ?_ ?_ ?_).imp fun _ im₃ h₃ => ?_
  · rw [hfile₂]
    decide
  · rw [hfile₂]
    decide
  · rw [hfile₂, List.length_nil, Nat.zero_add]
    exact hsize
  · rw [hfile₂, List.length_nil, Nat.zero_add, hzero]
    omega
  have hpaid₃ := h₃.paid
  rw [hfile₂, List.length_nil, Nat.zero_add, hzero] at hpaid₃
  have hnode₃ : im₃.node = Function.update im₂.node (2 + pre.length) ⟨.file, 0, 0, 1, f.bytes⟩ := by
    rw [h₃.node, hfile₂]
    rfl
  have hroot₃ : im₃.node ROOTINO = { im.node ROOTINO with
      contents := (im.node ROOTINO).contents ++ Dirent.encode ⟨im.freeinode, pad name⟩ } := by
    rw [hnode₃, Function.update_of_ne (by simp only [ROOTINO]; omega), h₂.node, Function.update_self, hroot₁]
  have hrest : ∀ i, i ≠ ROOTINO → i ≠ 2 + pre.length → im₃.node i = im.node i := by
    intro i hi hi'
    rw [hnode₃, Function.update_of_ne hi', h₂.node, Function.update_of_ne hi, hnode₁, Function.update_of_ne hi']
  refine ⟨h₃.sound, ?_, ?_, ?_, ?_, fun j g hj => ?_, fun i hi => ?_⟩
  · rw [h₃.freeinode, h₂.freeinode, hinode₁, hb.freeinode, List.length_append, List.length_singleton]
    omega
  · omega
  · rw [hroot₃]
    exact hb.root
  · rw [hroot₃, List.length_append, List.length_append, List.length_singleton, hroot, hde]
    ring
  · rw [List.getElem?_append] at hj
    split_ifs at hj with hlt
    · rw [hrest (2 + j) (by simp only [ROOTINO]; omega) (by omega)]
      exact hb.file j g hj
    · obtain ⟨hj0, rfl⟩ : j - pre.length = 0 ∧ f = g := by simpa [List.getElem?_singleton] using hj
      rw [show 2 + j = 2 + pre.length by omega, hnode₃, Function.update_self]
  · rw [List.length_append, List.length_singleton] at hi
    rw [hrest i (by simp only [ROOTINO]; omega) (by omega)]
    exact hb.dead i (by omega)

theorem Fits.of_append {l : List HostFile} (h : Fits (pre ++ l)) : Fits pre := by
  have hlen : pre.length ≤ (pre ++ l).length := by
    rw [List.length_append]
    omega
  refine ⟨by have := h.inodes; omega, le_trans ?_ h.blocks, fun f hf => ?_, fun f hf => ?_⟩
  · have hroot := blocksFor_mono (blocksIn_mono (Nat.mul_le_mul_left DESIZE (Nat.add_le_add_left hlen 2)))
    unfold blocksUsed
    rw [List.map_append, List.sum_append]
    omega
  · exact h.sizes f (List.mem_append_left _ hf)
  · exact h.names f (List.mem_append_left _ hf)

theorem blank_sound : Sound blank := by
  have hno : ∀ i, ¬ (blank.kernel noInodes []).vol.Live i := fun i hi => hi.2 rfl
  refine ⟨⟨fun _ _ => rfl, by decide⟩, ⟨fun p hp => absurd hp (hno _), fun p _ hp => absurd hp (hno _), fun b hb => ?_⟩,
    fun i hi => absurd hi (hno i), fun _ _ hk => absurd hk (lt_irrefl 0), fun _ hk => absurd hk (lt_irrefl 0)⟩
  have hb : b < superblock.size := hb
  have hin : (blank.kernel noInodes []).vol.sb.InData b ↔ superblock.dataStart ≤ b ∧ b < superblock.size := Iff.rfl
  rw [hin, or_iff_left (fun ⟨p, hp, _⟩ => hno _ hp)]
  show decide (b < nmeta) = true ↔ _
  rw [superblock_size] at hb ⊢
  rw [superblock_dataStart, decide_eq_true_iff]
  omega

theorem blank_node (i : Nat) : blank.node i = .none := if_neg fun hi => hi.2 rfl

theorem Built.nil {p : List UInt8} (hnode : im.node = Function.update blank.node ROOTINO ⟨.dir, 0, 0, 1, []⟩)
    (hfree : im.freeinode = 2) (hblock : im.freeblock = nmeta) (hp : p.length = 2 * DESIZE)
    (h : Appended im ROOTINO p im') : Built [] im' := by
  have hpaid := h.paid
  have hroot : im'.node ROOTINO = ⟨.dir, 0, 0, 1, p⟩ := by
    rw [h.node, Function.update_self, hnode, Function.update_self]
    rfl
  rw [hnode, Function.update_self, hblock, hp] at hpaid
  refine ⟨h.sound, h.freeinode.trans hfree, hpaid.trans (by decide), by rw [hroot], by rw [hroot]; exact hp,
    fun j f hj => by simp at hj, fun i hi => ?_⟩
  have hne : i ≠ ROOTINO := by
    rintro rfl
    exact absurd hi (by decide)
  rw [h.node, Function.update_of_ne hne, hnode, Function.update_of_ne hne, blank_node]

def Image.finish (im : Image) : Image :=
  { im with
    inode := Function.update im.inode ROOTINO { im.inode ROOTINO with size := roundSize (im.inode ROOTINO).size }
    bitmap := marks im.freeblock }

theorem main_spec {files : List HostFile} (hfit : Fits files) :
    Wp (main files) blank (fun _ im' => ∃ im, Built files im ∧ im' = im.finish) fun _ => False := by
  unfold main
  refine Wp.bind (ialloc_spec blank_sound (by decide) (by decide) (blank_node _)) ?_
  rintro rootino im₁ ⟨rfl, hsound₁, hinode₁, hblock₁, hnode₁⟩
  have hroot₁ : im₁.node ROOTINO = ⟨.dir, 0, 0, 1, []⟩ := by
    rw [hnode₁]
    exact Function.update_self ..
  have hblank : blank.freeinode = ROOTINO := rfl
  rw [hblank] at hnode₁ ⊢
  rw [if_pos rfl]
  -- the two entries go into the first block of the directory
  have hentry : ∀ (im : Image) (q : List UInt8) (name : Name), Appended im₁ ROOTINO q im → q.length ≤ DESIZE →
      name.length = DIRSIZ → Wp (iappend ROOTINO (Dirent.encode ⟨ROOTINO, name⟩)) im
        (fun _ im' => Appended im₁ ROOTINO (q ++ Dirent.encode ⟨ROOTINO, name⟩) im') fun _ => False := by
    intro im q name hq hlen hname
    have hde : (Dirent.encode ⟨ROOTINO, name⟩).length = DESIZE := length_encode hname
    have hroot : im.node ROOTINO = ⟨.dir, 0, 0, 1, q⟩ := by
      rw [hq.node, Function.update_self, hroot₁]
      rfl
    have htype : (im.node ROOTINO).type = .dir := by rw [hroot]
    have hpaid := hq.paid
    have hfirst : blocksFor (blocksIn (q.length + DESIZE)) ≤ blocksFor 1 := blocksFor_mono (by
      unfold blocksIn
      simp only [BSIZE, DESIZE] at *
      omega)
    have hfirst' := blocksFor_mono (blocksIn_mono (Nat.le_add_right q.length DESIZE))
    have hone : blocksFor 1 = 1 := by decide
    have hstart : im₁.freeblock = nmeta := hblock₁
    rw [hroot₁, List.length_nil, Nat.zero_add] at hpaid
    refine (iappend_spec hq.sound (by rw [htype]; decide) (by rw [htype]; decide) ?_ ?_ ?_).imp fun _ _ h => hq.trans h
    · rw [hroot, hde]
      simp only [MAXFILE, NDIRECT, NINDIRECT, BSIZE, DESIZE] at *
      omega
    · rw [hroot, hde]
      simp only [nmeta, nlog, ninodeblocks, nbitmap, FSSIZE, NINODES, BSIZE, IPB, Log.LOGSIZE, Log.MAXOPBLOCKS] at *
      omega
    · intro hnil
      rw [hnil] at hde
      exact absurd hde (by decide)
  refine Wp.bind (hentry im₁ [] dot (.refl hsound₁ _) (by decide) (length_pad _)) ?_
  intro _ im₂ h₂
  refine Wp.bind (hentry im₂ _ dotdot h₂ (by rw [List.nil_append, length_encode (length_pad _)]) (length_pad _)) ?_
  intro _ im₃ h₃
  have hnil : Built [] im₃ := by
    refine Built.nil hnode₁ hinode₁ hblock₁ ?_ h₃
    rw [List.nil_append, List.length_append, length_encode (length_pad _), length_encode (length_pad _)]
    rfl
  refine Wp.bind (Wp.each Built files (fun pre f post im hl hb => ?_) hnil) ?_
  · refine addFile_spec hb (Fits.of_append (l := post) ?_)
    rw [List.append_assoc, List.singleton_append, ← hl]
    exact hfit
  intro _ im hb
  unfold fixRoot rinode winode balloc
  have hroot : ROOTINO < ninodeblocks * IPB := by decide
  have hused : im.freeblock < BSIZE * 8 := lt_of_le_of_lt hb.sound.clean.bound (by decide)
  simp only [if_pos hroot, wp_bind, wp_look, wp_update, if_pos hused]
  exact ⟨im, hb, rfl⟩

theorem mkfs_spec {files : List HostFile} (hfit : Fits files) :
    ∃ im, Built files im ∧ mkfs files = .ok im.finish := by
  obtain ⟨_, _, hrun, im, hb, rfl⟩ := (main_spec hfit).returns
  refine ⟨im, hb, ?_⟩
  unfold mkfs
  rw [hrun]
  rfl

end files

/-! ## The image and the kernel -/

/-- What the kernel relies on, for the image of these files. -/
structure Agrees (files : List HostFile) (im : Image) : Prop where
  mapped : ∀ i, im.vol.Live i → ∀ bn, im.vol.addr (.block i bn) ≠ 0 ↔ bn < blocksIn (im.inode i).size
  distinct : ∀ p q, im.vol.Live p.inum → im.vol.Live q.inum → im.vol.addr p ≠ 0 → im.vol.addr p = im.vol.addr q → p = q
  region : ∀ p, im.vol.Live p.inum → im.vol.addr p ≠ 0 → nmeta ≤ im.vol.addr p ∧ im.vol.addr p < im.freeblock
  bits : ∀ b, im.vol.bitmap b = true ↔ b < im.freeblock
  /-- File `j` is inode `2 + j`. -/
  reads : ∀ j f, files[j]? = some f → ∀ (s : FS) (k : IRef), s.vol = im.vol → (s.icache k).inum = 2 + j →
    (s.icache k).copy = im.inode (2 + j) → ∀ off n dev, off ≤ f.bytes.length → off + n < UINT →
      readi k off n dev s = .ok (some ((f.bytes.drop off).take n), s)

section agreement

variable {im : Image} {files : List HostFile}

@[simp] theorem finish_root (im : Image) :
    im.finish.inode ROOTINO = { im.inode ROOTINO with size := roundSize (im.inode ROOTINO).size } := by
  simp [Image.finish]

theorem finish_other (im : Image) {i : Nat} (hi : i ≠ ROOTINO) : im.finish.inode i = im.inode i :=
  Function.update_of_ne hi _ _

theorem finish_live (im : Image) (i : Nat) : im.finish.vol.Live i ↔ (im.kernel noInodes []).vol.Live i := by
  show _ ∧ (im.finish.inode i).type ≠ _ ↔ _ ∧ (im.inode i).type ≠ _
  by_cases hi : i = ROOTINO
  · rw [hi, finish_root]
    exact Iff.rfl
  · rw [finish_other im hi]
    exact Iff.rfl

theorem finish_addr (im : Image) (p : Place) : im.finish.vol.addr p = (im.kernel noInodes []).vol.addr p := by
  refine addr_congr ?_ fun _ => rfl
  show (im.finish.inode p.inum).addrs = (im.inode p.inum).addrs
  by_cases hi : p.inum = ROOTINO
  · rw [hi, finish_root]
  · rw [finish_other im hi]

theorem finish_bits (im : Image) : im.finish.vol.bitmap = fun b => decide (b < im.freeblock) :=
  funext (bit_marks im.freeblock)

theorem finish_owned (h : Sound im) : Owned im.finish.vol := by
  refine h.good.owned.congr rfl (fun p _ _ => finish_addr im p) (fun p hp hno => ?_) (fun p hp hno => ?_)
    (finish_bits im)
  · exact absurd ((finish_live im _).mp hp) hno
  · exact absurd ((finish_live im _).mpr hp) hno

theorem finish_shaped (h : Sound im) {i : Nat} (hi : im.finish.vol.Live i) :
    Shaped im.finish.vol i (blocksIn (im.inode i).size) (NDIRECT < blocksIn (im.inode i).size) :=
  (h.good.shaped i ((finish_live im i).mp hi)).congr fun p _ => finish_addr im p

theorem blocksIn_roundSize (n : Nat) : blocksIn (roundSize n) = blocksIn n ↔ n % BSIZE ≠ 0 := by
  unfold blocksIn roundSize
  simp only [BSIZE]
  omega

theorem Built.rootSize (hb : Built files im) : (im.inode ROOTINO).size = DESIZE * (2 + files.length) := by
  have hlive : (im.node ROOTINO).type ≠ .free := by rw [hb.root]; decide
  have hnode : im.node ROOTINO = _ := node_of_live (node_type_ne.mp hlive)
  have hlen := length_contents (im.kernel noInodes []).vol ROOTINO
  rw [← hb.entries, hnode, hlen]
  rfl

theorem Built.root_live (hb : Built files im) : im.finish.vol.Live ROOTINO := by
  have htype : (im.node ROOTINO).type ≠ .free := by rw [hb.root]; decide
  exact (finish_live im _).mpr (node_type_ne.mp htype)

theorem Built.rounded (hb : Built files im) : blocksIn (im.finish.inode ROOTINO).size = blocksIn (im.inode ROOTINO).size ↔
    (files.length + 2) % 32 ≠ 0 := by
  rw [finish_root, blocksIn_roundSize, hb.rootSize]
  simp only [DESIZE, BSIZE]
  omega

theorem Built.blocks_eq (hb : Built files im) (h : (files.length + 2) % 32 ≠ 0) (i : Nat) :
    blocksIn (im.finish.inode i).size = blocksIn (im.inode i).size := by
  by_cases hi : i = ROOTINO
  · rw [hi]
    exact hb.rounded.mpr h
  · rw [finish_other im hi]

theorem Built.shaped (hb : Built files im) (h : (files.length + 2) % 32 ≠ 0) {i : Nat} (hi : im.finish.vol.Live i) :
    Shaped im.finish.vol i (blocksIn (im.finish.inode i).size) (NDIRECT < blocksIn (im.finish.inode i).size) := by
  rw [hb.blocks_eq h]
  exact finish_shaped hb.sound hi

theorem Built.reads (hb : Built files im) (h : (files.length + 2) % 32 ≠ 0) {j : Nat} {f : HostFile}
    (hj : files[j]? = some f) {s : FS} {k : IRef} (hvol : s.vol = im.finish.vol) (hinum : (s.icache k).inum = 2 + j)
    (hcopy : (s.icache k).copy = im.finish.inode (2 + j)) {off n : Nat} (dev : Option (List UInt8))
    (hoff : off ≤ f.bytes.length) (hn : off + n < UINT) :
    readi k off n dev s = .ok (some ((f.bytes.drop off).take n), s) := by
  have hino : s.inode = im.finish.inode := congrArg Vol.ino hvol
  have hne : 2 + j ≠ ROOTINO := by
    simp only [ROOTINO]
    omega
  have hnode : s.vol.node (2 + j) = ⟨.file, 0, 0, 1, f.bytes⟩ := by
    rw [hvol, ← hb.file j f hj]
    exact node_congr rfl rfl (finish_other im hne)
  have hlive : s.vol.Live (s.icache k).inum := by
    rw [hinum, ← node_type_ne, hnode]
    exact nofun
  have hself : (s.icache k).copy = s.inode (s.icache k).inum := by rw [hcopy, hinum, hino]
  have hshaped : ∀ i, s.vol.Live i → Shaped s.vol i (s.cnt i) (NDIRECT < s.cnt i) := by
    intro i hi
    unfold FS.cnt
    rw [hvol] at hi ⊢
    rw [hino]
    exact hb.shaped h hi
  have hgrow : Growing s k s.cnt (NDIRECT < s.cnt (s.icache k).inum) := by
    have hat := volAt_eq_vol hself
    exact ⟨hat ▸ hvol ▸ finish_owned hb.sound, hat ▸ hlive, hat ▸ hshaped _ hlive,
      fun i _ hi => hat ▸ hshaped i (hat ▸ hi)⟩
  obtain ⟨r, s', hrun, rfl, rfl⟩ := (readi_growing hself hlive hgrow off n dev).returns
  rw [hrun, hinum, hnode]
  unfold readiResult
  rw [if_neg nofun, Nat.mod_eq_of_lt hn, if_neg (by simp only; omega)]

theorem Built.agrees (hb : Built files im) (h : (files.length + 2) % 32 ≠ 0) : Agrees files im.finish := by
  have howned := finish_owned hb.sound
  have hbits : ∀ b, im.finish.vol.bitmap b = true ↔ b < im.freeblock := fun b => by simp [finish_bits]
  refine ⟨fun i hi => (hb.shaped h hi).mapped, howned.inj, fun p hp hne => ⟨?_, ?_⟩, hbits,
    fun j f hj s k hvol hinum hcopy off n dev hoff hn => hb.reads h hj hvol hinum hcopy dev hoff hn⟩
  · rw [← superblock_dataStart]
    exact (howned.region p hp hne).1
  · exact (hbits _).mp (howned.marked hp hne)

end agreement

/-- mkfs and the kernel agree on the format, unless the entries of the root directory fill its blocks: then its size
covers a block that it does not have. -/
theorem mkfs_agrees (files : List HostFile) (hfit : Fits files) :
    ∃ im, mkfs files = .ok im ∧ (Agrees files im ↔ (files.length + 2) % 32 ≠ 0) := by
  obtain ⟨im, hb, hrun⟩ := mkfs_spec hfit
  refine ⟨im.finish, hrun, fun h => hb.rounded.mp ?_, hb.agrees⟩
  -- the two numbers of blocks are the bounds of the same mapped blocks
  have hold := (finish_shaped hb.sound hb.root_live).mapped
  have hnew := h.mapped ROOTINO hb.root_live
  have hiff : ∀ bn, bn < blocksIn (im.finish.inode ROOTINO).size ↔ bn < blocksIn (im.inode ROOTINO).size := fun bn =>
    (hnew bn).symm.trans (hold bn)
  exact le_antisymm (le_of_not_gt fun hlt => lt_irrefl _ ((hiff _).mp hlt))
    (le_of_not_gt fun hlt => lt_irrefl _ ((hiff _).mpr hlt))

/-- One file of three bytes. -/
theorem mkfs_agrees_one : ∃ im, mkfs [⟨[97], [1, 2, 3]⟩] = .ok im ∧ Agrees [⟨[97], [1, 2, 3]⟩] im := by
  have hfit : Fits [⟨[97], [1, 2, 3]⟩] := ⟨by decide, by decide, by decide, by decide⟩
  obtain ⟨im, hrun, hiff⟩ := mkfs_agrees _ hfit
  exact ⟨im, hrun, hiff.mpr (by decide)⟩

def thirty : List HostFile := (List.range 30).map fun j => ⟨[UInt8.ofNat (97 + j)], []⟩

/-- With thirty files the root directory has 32 entries, one full block, and the size of two blocks. -/
theorem root_block_unmapped : Fits thirty ∧ ∃ im, mkfs thirty = .ok im ∧ im.vol.Live ROOTINO ∧
    1 < blocksIn (im.inode ROOTINO).size ∧ im.vol.addr (.block ROOTINO 1) = 0 := by
  have hfit : Fits thirty := ⟨by decide, by decide, by decide, by decide⟩
  obtain ⟨im, hb, hrun⟩ := mkfs_spec hfit
  have hsize : (im.inode ROOTINO).size = 512 := hb.rootSize
  refine ⟨hfit, im.finish, hrun, hb.root_live, ?_, ?_⟩
  · rw [finish_root, hsize]
    show 1 < blocksIn (roundSize 512)
    decide
  · have hmapped := (finish_shaped hb.sound hb.root_live).mapped 1
    rw [hsize] at hmapped
    exact not_not.mp (hmapped.not.mpr (by decide))

end Xv6Mlfq.Fs.Mkfs
