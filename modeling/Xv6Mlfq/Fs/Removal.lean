import Xv6Mlfq.Fs.Sample

/-!
# Directories that are removed while in use

`unlink` takes an empty directory out of the tree also when it is open or a current directory, and the kernel goes on
looking names up in it. As long as no call does so, every entry names an inode that is allocated
(`entries_name_inodes`), and every link count is the number of entries in linked directories (`link_counts_agree`).
Otherwise both fail. The `..` of a removed directory is not counted any more and outlives the parent
(`dangling_parent`). A file that is created in a removed directory has a link that no `unlink` can find
(`leaked_inode`).
-/

namespace Xv6Mlfq.Fs

open Lib

section tame

variable {img : Image} {h : List Event} {s : FS}

/-- No entry dangles, `.` and `..` included, and no call of any process runs into an inode that is free. -/
theorem entries_name_inodes (hi : img.Sound) (hr : FRun img h s) (hC : Always Tame h) :
    (∀ d, (s.vol.node d).type = .dir → ∀ de ∈ entries (s.vol.node d).contents, de.inum ≠ 0 →
      (s.inode de.inum).type ≠ .free) ∧
    ∀ a, Ints s a → step s a ≠ .error (.panic "ilock: no type") := by
  obtain ⟨hrest, ht⟩ := run_tree hi hr hC
  constructor
  · intro d hd de hde hne
    obtain ⟨j, hj⟩ := List.mem_iff_getElem?.mp hde
    have hent : Entry s.vol.node d j (key de.name) de.inum := ⟨hd, de, hj, ⟨hne, rfl⟩, rfl⟩
    exact (node_type_ne.mp (ht.live _ _ _ _ hent)).2
  · intro a ha hstop
    have hsmall : s.view.sb.Small := hrest.sb ▸ hi.small
    have hspec := step_spec (B := fun e => e ≠ .panic "ilock: no type") hrest ha
      (Tree.sound ht hrest hsmall fun _ => by decide) (fun _ => by decide) fun _ => by decide
    exact (hspec.of_error hstop).of_panic (by decide) rfl

theorem entries_name_inodes_sample : ∃ im h s, Mkfs.mkfs sampleFiles = .ok im ∧ FRun im.disk h s ∧ Always Tame h ∧
    step s (0, .chdir [46, 46]) ≠ .error (.panic "ilock: no type") := by
  obtain ⟨im, h, s, hrun, hsound, hr, he⟩ := sample_run
  exact ⟨im, h, s, hrun, hr, he.tame, (entries_name_inodes hsound hr he.tame).2 _ rfl⟩

/-- The link count of an inode is the number of entries that name it in directories that have links themselves, its own
`.` apart; an inode with links is named by such an entry. -/
theorem link_counts_agree (hi : img.Sound) (hr : FRun img h s) (hC : Always Tame h) {i : Nat} (hl : s.vol.Live i) :
    (s.inode i).nlink = ({ x ∈ links s.vol.node i | 0 < (s.inode x.1).nlink }.ncard : Int) ∧
    (0 < (s.inode i).nlink → ∃ x ∈ links s.vol.node i, 0 < (s.inode x.1).nlink) := by
  obtain ⟨hrest, ht⟩ := run_tree hi hr hC
  have hnode : ∀ {j}, s.vol.Live j → (s.vol.node j).nlink = (s.inode j).nlink := by
    intro j hj
    unfold Vol.node
    rw [if_pos hj]
    rfl
  have hall : ∀ x ∈ links s.vol.node i, 0 < (s.inode x.1).nlink := by
    intro x hx
    obtain ⟨⟨κ, hent⟩, -⟩ := hx
    have hdir := ne_free_of_dir hent.1
    rw [← hnode (node_type_ne.mp hdir)]
    exact ht.nlink_pos hdir (ht.dir_links hent.1)
  have hcount : (s.inode i).nlink = ((links s.vol.node i).ncard : Int) := by
    rw [← hnode hl]
    exact ht.count i (node_type_ne.mpr hl)
  refine ⟨?_, fun hpos => ?_⟩
  · rw [hcount]
    congr 2
    exact (Set.sep_eq_self_iff_mem_true.mpr hall).symm
  · rw [hcount] at hpos
    obtain ⟨x, hx⟩ := (Set.ncard_pos (ht.finite i)).mp (by omega)
    exact ⟨x, hx, hall x hx⟩

theorem link_counts_agree_sample : ∃ im h s i, Mkfs.mkfs sampleFiles = .ok im ∧ FRun im.disk h s ∧ Always Tame h ∧
    (s.inode i).nlink = 1 ∧ { x ∈ links s.vol.node i | 0 < (s.inode x.1).nlink }.ncard = 1 := by
  obtain ⟨im, h, s, hrun, hsound, hr, he⟩ := sample_run
  have hcount := (link_counts_agree hsound hr he.tame he.live).1
  rw [he.nlink] at hcount
  exact ⟨im, h, s, _, hrun, hr, he.tame, he.nlink, by omega⟩

end tame

/-! ## Without the condition -/

/-- `/a/b` is the current directory when it is removed, then `/a` is removed. -/
def orphanCalls : List Act :=
  [(0, .mkdir [97]), (0, .mkdir [97, 47, 98]), (0, .chdir [97, 47, 98]), (0, .unlink [47, 97, 47, 98]),
    (0, .unlink [47, 97])]

set_option maxRecDepth 100000 in
theorem orphan_check : checkRun [] id orphanCalls (fun h s => decide ((∀ x ∈ h, Ints x.1 x.2) ∧
    (s.vol.node 3).type = .dir ∧ (∃ de ∈ entries (s.vol.node 3).contents, de.inum ≠ 0 ∧ (s.inode de.inum).type = .free) ∧
    Sat (step s (0, .chdir [46, 46])) (fun _ => False) fun e => e = .panic "ilock: no type")) = true := by
  decide +kernel

/-- The `..` of the current directory names an inode that is free, and `chdir("..")` panics. -/
theorem dangling_parent : ∃ im h s, Mkfs.mkfs [] = .ok im ∧ im.disk.Sound ∧ FRun im.disk h s ∧ Always Ints h ∧
    (∃ d, (s.vol.node d).type = .dir ∧ ∃ de ∈ entries (s.vol.node d).contents, de.inum ≠ 0 ∧
      (s.inode de.inum).type = .free) ∧
    step s (0, .chdir [46, 46]) = .error (.panic "ilock: no type") := by
  obtain ⟨im, h, s, hrun, hsound, hr, hints, hdir, hent, hstop⟩ := sound_run fits_nil (by decide) (by decide) orphan_check
  exact ⟨im, h, s, hrun, hsound, hr, hints, ⟨3, hdir, hent⟩, hstop.eq_error⟩

/-- `f` is created in the current directory after that has been removed; then the file is closed, and the process leaves
the directory. -/
def leakCalls : List Act :=
  [(0, .mkdir [97]), (0, .chdir [97]), (0, .unlink [47, 97]), (0, .open [102] 0x202), (0, .close 0), (0, .chdir [47])]

def Unnamed (s : FS) (i : Nat) : Prop :=
  ∀ d < s.sb.ninodes, (s.vol.node d).type = .dir → ∀ de ∈ entries (s.vol.node d).contents, de.inum ≠ i

instance (s : FS) (i : Nat) : Decidable (Unnamed s i) := inferInstanceAs (Decidable (∀ _ < _, _))

theorem Unnamed.links {s : FS} {i : Nat} (h : Unnamed s i) : links s.vol.node i = ∅ := by
  apply Set.eq_empty_of_forall_notMem
  intro x hx
  obtain ⟨⟨κ, hd, de, hde, -, hi⟩, -⟩ := hx
  have hlive : s.vol.Live x.1 := node_type_ne.mp (ne_free_of_dir hd)
  exact h x.1 hlive.1 hd de (List.mem_of_getElem? hde) hi

set_option maxRecDepth 100000 in
theorem leak_check : checkRun [] id leakCalls (fun h s => decide ((∀ x ∈ h, Ints x.1 x.2) ∧
    (s.inode 3).type = .file ∧ (s.inode 3).nlink = 1 ∧ Unnamed s 3 ∧ ¬ s.view.Busy 3)) = true := by
  decide +kernel

/-- An inode with a link that no entry names, and that nobody has open: no call can free it. -/
theorem leaked_inode : ∃ im h s i, Mkfs.mkfs [] = .ok im ∧ im.disk.Sound ∧ FRun im.disk h s ∧ Always Ints h ∧ i ≠ ROOTINO ∧
    (s.inode i).type = .file ∧ (s.inode i).nlink = 1 ∧ links s.vol.node i = ∅ ∧ ¬ s.view.Busy i := by
  obtain ⟨im, h, s, hrun, hsound, hr, hints, hfile, hnlink, hno, hidle⟩ :=
    sound_run fits_nil (by decide) (by decide) leak_check
  exact ⟨im, h, s, 3, hrun, hsound, hr, hints, by decide, hfile, hnlink, hno.links, hidle⟩

end Xv6Mlfq.Fs
