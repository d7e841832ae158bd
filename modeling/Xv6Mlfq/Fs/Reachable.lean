import Xv6Mlfq.Fs.Directory
import Xv6Mlfq.Fs.Names

/-!
# The file system between two system calls

What holds in every state that a run of system calls reaches. From an image that is `Ok`: every data block belongs to
one file or is free (`blocks_accounted`), every reference is counted (`references_counted`), a call that does not return
stops for one of the listed reasons (`calls_stop`). If no inode of the image has lost its links, names are looked up as
in finite maps (`namei_follows`, `nameiparent_follows`) and every call does to the tree what `Effect` says
(`calls_refine`). From a sound image, as mkfs makes it, the directories stay a tree as long as no directory in use
is removed (`directories_form_tree`); then every call changes one name of one directory or none (`calls_rename`),
and no call runs into a deadlock, a dangling entry or a wrong link count, apart from a `link` to `.`
(`tame_calls_stop`).
-/

namespace Xv6Mlfq.Fs

open Lib

theorem not_lost {img : Image} (h : img.lost = ∅) (i : Nat) : i ∉ img.origin.lost := by
  show i ∉ img.lost
  rw [h]
  exact Set.notMem_empty i

section reachable

variable {img : Image} {h : List Event} {s : FS}

/-! ## Blocks -/

/-- A data block is in use iff one place holds it, no block is shared, and the blocks of an inode are those that its size
needs; what the inode cache holds is what is on the disk. -/
theorem blocks_accounted (hok : img.Ok) (hr : FRun img h s) (hi : Always Ints h) :
    (∀ b, img.sb.InData b → (s.bitmap b = true ↔ ∃! x : Place, s.vol.Live x.inum ∧ s.vol.addr x = b)) ∧
    (∀ x : Place, s.vol.Live x.inum → s.vol.addr x ≠ 0 → img.sb.InData (s.vol.addr x)) ∧
    (∀ i, s.vol.Live i → (∀ bn, s.vol.addr (.block i bn) ≠ 0 ↔ bn < blocksIn (s.inode i).size) ∧
      (s.vol.addr (.indirect i) ≠ 0 ↔ NDIRECT < blocksIn (s.inode i).size)) ∧
    ∀ k, 0 < (s.icache k).ref → (s.icache k).valid = true → (s.icache k).copy = s.inode (s.icache k).inum := by
  have hrest := run_rest hok hr hi
  have hgood := hrest.st.good
  have hsb : s.vol.sb = img.sb := hrest.sb
  refine ⟨?_, ?_, ?_, ?_⟩
  · intro b hb
    rw [← hsb] at hb
    have hbits : s.bitmap b = true ↔ ∃ x : Place, s.vol.Live x.inum ∧ s.vol.addr x = b := by
      refine (hgood.owned.bits b hb.2).trans ?_
      rw [or_iff_right (not_not.mpr hb)]
    rw [hbits]
    constructor
    · rintro ⟨x, hx, hxb⟩
      refine ⟨x, ⟨hx, hxb⟩, ?_⟩
      rintro y ⟨hy, hyb⟩
      exact hgood.owned.inj y x hy hx (hyb ▸ hb.ne_zero) (hyb.trans hxb.symm)
    · rintro ⟨x, hx, -⟩
      exact ⟨x, hx⟩
  · intro x hx hne
    rw [← hsb]
    exact hgood.owned.region x hx hne
  · intro i hl
    exact ⟨(hgood.shaped i hl).mapped, (hgood.shaped i hl).indirect⟩
  · intro k hk hv
    exact (hgood.cached k hk hv).2

theorem blocks_accounted_sample : ∃ im h s, Mkfs.mkfs sampleFiles = .ok im ∧ im.disk.Ok ∧ FRun im.disk h s ∧ Always Ints h ∧
    ∀ b, im.disk.sb.InData b → (s.bitmap b = true ↔ ∃! x : Place, s.vol.Live x.inum ∧ s.vol.addr x = b) := by
  obtain ⟨im, h, s, hrun, hsound, hr, he⟩ := sample_run
  exact ⟨im, h, s, hrun, hsound.toOk, hr, he.ints, (blocks_accounted hsound.toOk hr he.ints).1⟩

theorem count_sum {ι κ : Type} [Fintype ι] [DecidableEq κ] {f : ι → Multiset κ} {C : ι → Prop} [DecidablePred C] {k : κ}
    (h : ∀ i, Multiset.count k (f i) = if C i then 1 else 0) :
      Multiset.count k (∑ i, f i) = (Finset.univ.filter C).card := by
  rw [Multiset.count_sum', Finset.card_filter]
  exact Finset.sum_congr rfl fun i _ => h i

theorem count_elim {κ : Type} [DecidableEq κ] (o : Option κ) (k : κ) :
    Multiset.count k (o.elim 0 fun k => {k}) = if o = some k then 1 else 0 := by
  cases o with
  | none => rfl
  | some c =>
    rw [Option.elim_some, Multiset.count_singleton]
    simp only [Option.some.injEq, eq_comm]

/-- Between two calls: every reference to an inode or to an open file is counted, no inode is locked, and every `begin_op`
has had its `end_op`. -/
structure Conserved (s : FS) : Prop where
  inodes : ∀ k, (s.icache k).ref =
    (Finset.univ.filter fun f => 0 < (s.ftable f).ref ∧ (s.ftable f).type = .inode ∧ (s.ftable f).ip = k).card +
      (Finset.univ.filter fun p => (s.proc p).cwd = some k).card
  files : ∀ f, (s.ftable f).ref = (Finset.univ.filter fun x : PIdx × Fin NOFILE => (s.proc x.1).ofile x.2 = some f).card
  unlocked : ∀ k, (s.icache k).lock = false
  ops : s.outstanding = 0

theorem Rest.open_iff {Z : Origin} {v : View} (hrest : Rest Z v s) (f : FRef) (k : IRef) :
    (0 < (s.ftable f).ref ∧ (s.ftable f).type = .inode ∧ (s.ftable f).ip = k) ↔
      (s.ftable f).type = .inode ∧ (s.ftable f).ip = k := by
  refine and_iff_right_of_imp fun hopen => Nat.pos_of_ne_zero fun hz => ?_
  have hview := hrest.st.view
  have hnone : (s.view.ftable f).type = .none := by
    rw [hview]
    exact hrest.files.unused f (hview ▸ hz)
  exact absurd (hnone.symm.trans hopen.1) (by decide)

theorem Rest.count_refs {Z : Origin} {v : View} (hrest : Rest Z v s) (f : FRef) (k : IRef) :
    Multiset.count k (s.ftable f).refs =
      if 0 < (s.ftable f).ref ∧ (s.ftable f).type = .inode ∧ (s.ftable f).ip = k then 1 else 0 := by
  simp only [hrest.open_iff f k]
  unfold File.refs
  by_cases ht : (s.ftable f).type = .inode
  · rw [if_pos ht, Multiset.count_singleton]
    refine if_congr ?_ rfl rfl
    rw [and_iff_right ht]
    exact eq_comm
  · rw [if_neg ht, if_neg fun hand => ht hand.1]
    rfl

theorem Rest.conserved {Z : Origin} {v : View} (hrest : Rest Z v s) : Conserved s := by
  obtain rfl := hrest.st.view
  refine ⟨?_, ?_, ?_, hrest.ops⟩
  · intro k
    have href := hrest.st.ref k
    rw [zero_add] at href
    refine href.trans ?_
    unfold View.refs
    rw [Multiset.count_add]
    congr 1
    · exact count_sum fun f => hrest.count_refs f k
    · exact count_sum fun p => count_elim (s.proc p).cwd k
  · intro f
    have href := hrest.files.ref f
    rw [add_zero] at href
    refine href.trans ?_
    have hsum : s.view.fds = ∑ x : PIdx × Fin NOFILE, fdRef ((s.proc x.1).ofile x.2) :=
      (Fintype.sum_prod_type fun x : PIdx × Fin NOFILE => fdRef ((s.proc x.1).ofile x.2)).symm
    rw [hsum]
    exact count_sum fun x => count_elim ((s.proc x.1).ofile x.2) f
  · intro k
    have hlock := hrest.st.lock k
    rw [iff_false_right (Finset.notMem_empty k)] at hlock
    exact Bool.eq_false_iff.mpr hlock

/-- The reference count of an inode in the cache is the number of open files and current directories on it, that of an
open file the number of its descriptors; no lock is held and no transaction is open. -/
theorem references_counted (hok : img.Ok) (hr : FRun img h s) (hi : Always Ints h) :
    (∀ k, (s.icache k).ref = (Finset.univ.filter fun f => (s.ftable f).type = .inode ∧ (s.ftable f).ip = k).card +
      (Finset.univ.filter fun p => (s.proc p).cwd = some k).card) ∧
    (∀ f, (s.ftable f).ref = (Finset.univ.filter fun x : PIdx × Fin NOFILE => (s.proc x.1).ofile x.2 = some f).card) ∧
    (∀ k, (s.icache k).lock = false) ∧ s.outstanding = 0 := by
  have hrest := run_rest hok hr hi
  have hcons := hrest.conserved
  refine ⟨fun k => ?_, hcons.files, hcons.unlocked, hcons.ops⟩
  rw [hcons.inodes k]
  simp only [hrest.open_iff]

theorem references_counted_sample : ∃ im h s, Mkfs.mkfs sampleFiles = .ok im ∧ im.disk.Ok ∧ FRun im.disk h s ∧
    Always Ints h ∧
    ∀ k, (s.icache k).ref = (Finset.univ.filter fun f => (s.ftable f).type = .inode ∧ (s.ftable f).ip = k).card +
      (Finset.univ.filter fun p => (s.proc p).cwd = some k).card := by
  obtain ⟨im, h, s, hrun, hsound, hr, he⟩ := sample_run
  exact ⟨im, h, s, hrun, hsound.toOk, hr, he.ints, (references_counted hsound.toOk hr he.ints).1⟩

/-- The panics of fs.c and sysfile.c that are left. -/
def panics : List String :=
  ["iget: no inodes", "ialloc: no inodes", "balloc: out of blocks", "dirlink", "init exiting", "ilock: no type",
    "unlink: nlink < 1"]

/-- A call that does not return was not possible, waits for itself, or stops with one of seven panics. Outside are the log
and the buffer cache, which are models of their own, and the waits for a pipe or a device. -/
theorem calls_stop (hok : img.Ok) (hr : FRun img h s) (hi : Always Ints h) {a : Act} {e : Stop} (ha : Ints s a)
    (he : step s a = .error e) : (e = .notEnabled ∧ ((s.proc a.1).cwd = none ∨ ForksInUse s.view a.2)) ∨ e = .deadlock ∨
      ∃ msg ∈ panics, e = .panic msg := by
  have hpanic : ∀ {msg : String}, msg ∈ panics →
      (Stop.panic msg = .notEnabled ∧ ((s.proc a.1).cwd = none ∨ ForksInUse s.view a.2)) ∨ Stop.panic msg = .deadlock ∨
        ∃ m ∈ panics, Stop.panic msg = .panic m := fun hm => .inr (.inr ⟨_, hm, rfl⟩)
  have hspec := step_spec (B := fun e => (e = .notEnabled ∧ ((s.proc a.1).cwd = none ∨ ForksInUse s.view a.2)) ∨
      e = .deadlock ∨ ∃ msg ∈ panics, e = .panic msg) (run_rest hok hr hi) ha
    (sound_of (hpanic (by decide)) (hpanic (by decide)) fun hc => .inl ⟨rfl, .inl hc⟩) (fun _ => .inr (.inl rfl))
    fun hf => .inl ⟨rfl, .inr hf⟩
  cases hspec.of_error he with
  | iget => exact hpanic (by decide)
  | ialloc => exact hpanic (by decide)
  | balloc => exact hpanic (by decide)
  | dirlink => exact hpanic (by decide)
  | init => exact hpanic (by decide)
  | fault hf => exact hf

/-- `link("c", ".")`. -/
theorem calls_stop_sample : ∃ im h s e, Mkfs.mkfs sampleFiles = .ok im ∧ FRun im.disk h s ∧
    step s (0, .link [99] [46]) = .error e ∧ e ≠ .notEnabled ∧ (e = .deadlock ∨ ∃ msg ∈ panics, e = .panic msg) := by
  obtain ⟨im, h, s, hrun, hsound, hr, he⟩ := sample_run
  have hstop := he.link.eq_error
  have hcase := calls_stop hsound.toOk hr he.ints (a := (0, .link [99] [46])) rfl hstop
  exact ⟨im, h, s, _, hrun, hr, hstop, by decide, hcase.resolve_left fun hno => absurd hno.1 (by decide)⟩

/-! ## What the calls do -/

/-- A system call has on the tree the effect that `Effect` says; then exactly the inodes without links and references are
freed. If one of `link`, `unlink`, `mkdir` and `mknod` fails, no inode has changed. -/
theorem calls_refine (hok : img.Ok) (hlost : img.lost = ∅) (hshort : ∀ i, IsShort (img.vol.node i).nlink) (hr : FRun img h s)
    (hi : Always Ints h) {p : PIdx} {c : Call} {r : Int} {s' : FS} (hc : c.ints = true)
    (hcall : syscall p c s = .ok (r, s')) :
    ∃ T, Effect s.view p c r T ∧ (∀ i, s'.vol.node i = if (T i).nlink = 0 ∧ ¬ s'.view.Busy i then .none else T i) ∧
      (c.onTree = true → r = -1 → s'.vol.node = s.vol.node) := by
  have hrest := run_rest hok hr hi
  obtain ⟨T, v', hstep⟩ := (syscall_spec hrest hc (sound_fault p s.view) (fun _ => .deadlock)
    fun _ => .notEnabled).of_ok hcall
  have heff := hstep.effect hlost (run_isShort hok hlost hshort hr hi)
  have hnode := hstep.node hlost
  rw [← hstep.rest.st.view] at hnode
  refine ⟨T, heff, hnode, ?_⟩
  rintro htree rfl
  have hT : T = s.view.node := heff.failed htree
  funext i
  refine (hnode i).trans ?_
  rw [hT]
  split_ifs with hfree
  · by_contra hne
    have hlive : s.view.Live i := by
      by_contra hdead
      exact hne (hrest.st.node_dead hdead).symm
    have hbusy := hrest.busy_of_unlinked (not_lost hlost i) hlive hfree.1
    refine hfree.2 ?_
    rw [hstep.rest.st.view]
    exact ((hstep.left htree).busy i).mpr hbusy
  · rfl

/-- Two bytes are written at offset 1 of the open file. -/
theorem calls_refine_sample : ∃ im h s s', Mkfs.mkfs sampleFiles = .ok im ∧ FRun im.disk h s ∧
    syscall 0 (.write 0 [7, 7] 0) s = .ok (2, s') ∧ ∃ T, s.view.write 0 0 [7, 7] 0 = (2, T) ∧
      ∀ i, s'.vol.node i = if (T i).nlink = 0 ∧ ¬ s'.view.Busy i then .none else T i := by
  obtain ⟨im, h, s, hrun, hsound, hr, he⟩ := sample_run
  obtain ⟨⟨r, s'⟩, hcall, rfl⟩ := he.write.exists_ok
  obtain ⟨T, heff, hnode, -⟩ := calls_refine hsound.toOk hsound.kept hsound.isShort hr he.ints
    (c := .write 0 [7, 7] 0) rfl hcall
  exact ⟨im, h, s, s', hrun, hr, hcall, T, heff, hnode⟩

/-! ## Names -/

/-- `namei` follows the names of the path through the maps of the directories. -/
theorem namei_follows (hok : img.Ok) (hlost : img.lost = ∅) (hr : FRun img h s) (hi : Always Ints h) (p : PIdx)
    (path : List UInt8) :
    Wp (do
      beginOp
      namei p path) s
      (fun r s' => r.map (fun k => (s'.icache k).inum) =
          (s.view.startInum p path).bind (fun i => follow s.vol.node i (names path)) ∧ s'.vol.node = s.vol.node)
      (Halt Fault) := by
  have hrest := run_rest hok hr hi
  refine Wp.bind (Mid.beginOp hrest) ?_
  intro _ s₁ h₁
  refine (h₁.namei (sound_fault p _).reach path).imp ?_
  intro r s₂ hpost
  obtain ⟨v', hkeep, hr⟩ := hpost
  rw [zero_add] at hkeep
  have hnode : v'.node = s.view.node := hrest.node_eq hlost hkeep
  have hname := resolve_false s.view p path
  rcases hr with ⟨rfl, h₂, hno⟩ | ⟨k, name, rfl, h₂, -, hres⟩
  · have hnone : s.view.resolve p path false = none := hno hlost
    rw [hnone] at hname
    rw [← h₂.st.view] at hnode
    exact ⟨hname, hnode⟩
  · have hsome : s.view.resolve p path false = some ((v'.slot k).inum, name) := hres hlost
    rw [hsome] at hname
    rw [← h₂.st.view] at hname hnode
    exact ⟨hname, hnode⟩

theorem namei_follows_sample : ∃ im h s, Mkfs.mkfs sampleFiles = .ok im ∧ FRun im.disk h s ∧
    ∀ path, Wp (do
      beginOp
      namei 0 path) s
      (fun r s' => r.map (fun k => (s'.icache k).inum) =
          (s.view.startInum 0 path).bind (fun i => follow s.vol.node i (names path)) ∧ s'.vol.node = s.vol.node)
      (Halt Fault) := by
  obtain ⟨im, h, s, hrun, hsound, hr, he⟩ := sample_run
  exact ⟨im, h, s, hrun, hr, namei_follows hsound.toOk hsound.kept hr he.ints 0⟩

/-- Why `nameiparent` may stop, besides the tables and the disk being full: the process has no current directory, or a
directory was removed while in use and left an entry that names a free inode. -/
def LookupFault (img : Image) (h : List Event) (s : FS) (p : PIdx) (e : Stop) : Prop :=
  (e = .notEnabled ∧ (s.proc p).cwd = none) ∨ (e = .panic "ilock: no type" ∧ ¬ (img.Sound ∧ Always Tame h))

/-- `nameiparent` follows all names but the last, and returns the last, cut to `DIRSIZ` bytes. -/
theorem nameiparent_follows (hok : img.Ok) (hlost : img.lost = ∅) (hr : FRun img h s) (hi : Always Ints h) (p : PIdx)
    (path : List UInt8) :
    Wp (do
      beginOp
      nameiparent p path) s
      (fun r s' => r.map (fun x => ((s'.icache x.1).inum, key x.2)) = s.parent p path ∧ s'.vol.node = s.vol.node)
      (Halt (LookupFault img h s p)) := by
  have hrest := run_rest hok hr hi
  have hreach : Reach (LookupFault img h s p) p s.view.beginOp := by
    refine ⟨fun i hn hz => .inr ⟨rfl, ?_⟩, fun hc => .inl ⟨rfl, hc⟩⟩
    intro hand
    have hsmall : s.view.sb.Small := hrest.sb ▸ hand.1.small
    have hsound : Sound (fun e => e = .notEnabled) p s.view :=
      Tree.sound (run_tree hand.1 hr hand.2).2 hrest hsmall fun _ => rfl
    exact absurd (hsound.reach.named i hn hz) (by decide)
  exact nameiparent_spec hrest hlost hreach path

theorem nameiparent_follows_sample : ∃ im h s, Mkfs.mkfs sampleFiles = .ok im ∧ FRun im.disk h s ∧
    ∀ path, Wp (do
      beginOp
      nameiparent 0 path) s
      (fun r s' => r.map (fun x => ((s'.icache x.1).inum, key x.2)) = s.parent 0 path ∧ s'.vol.node = s.vol.node)
      (Halt (LookupFault im.disk h s 0)) := by
  obtain ⟨im, h, s, hrun, hsound, hr, he⟩ := sample_run
  exact ⟨im, h, s, hrun, hr, nameiparent_follows hsound.toOk hsound.kept hr he.ints 0⟩

/-! ## The tree -/

/-- As long as no directory in use is removed, the directories form a tree from the root: `.` and `..` are where they
belong, every entry names an inode that is allocated, and every link count is the number of entries that name the inode.
An inode that no entry names is in use. -/
theorem directories_form_tree (hi : img.Sound) (hr : FRun img h s) (hC : Always Tame h) :
    Tree img.sb.ninodes s.vol.node ∧ ∀ i, s.vol.Live i → links s.vol.node i = ∅ → s.view.Busy i := by
  obtain ⟨hrest, ht⟩ := run_tree hi hr hC
  refine ⟨ht, fun i hl hno => ?_⟩
  have hlive : s.view.Live i := node_type_ne.mpr hl
  refine hrest.busy_of_unlinked (not_lost hi.kept i) hlive ?_
  show (s.vol.node i).nlink = 0
  rw [ht.count i hlive, hno, Set.ncard_empty]
  rfl

theorem directories_form_tree_sample : ∃ im h s, Mkfs.mkfs sampleFiles = .ok im ∧ im.disk.Sound ∧ FRun im.disk h s ∧
    Always Tame h ∧ Tree im.disk.sb.ninodes s.vol.node := by
  obtain ⟨im, h, s, hrun, hsound, hr, he⟩ := sample_run
  exact ⟨im, h, s, hrun, hsound, hr, he.tame, (directories_form_tree hsound hr he.tame).1⟩

/-- In such a state a system call that does not remove a directory in use changes the maps of the directories as `Renamed`
says: one name in one directory, the maps of a directory that is made or removed, and nothing else. -/
theorem calls_rename (hi : img.Sound) (hr : FRun img h s) (hC : Always Tame h) {p : PIdx} {c : Call} {r : Int} {s' : FS}
    (hc : Tame s (p, c)) (hcall : syscall p c s = .ok (r, s')) : Renamed s.view p c r (dirs s'.vol.node) := by
  obtain ⟨hrest, ht⟩ := run_tree hi hr hC
  have hsb : s.view.sb = img.sb := hrest.sb
  obtain ⟨T, v', hstep⟩ := (syscall_spec hrest hc.1 (sound_fault p s.view) (fun _ => .deadlock)
    fun _ => .notEnabled).of_ok hcall
  have hren := hstep.renamed hrest hi.kept (hsb ▸ hi.small) (hsb ▸ ht) hc.2
  rw [← hstep.rest.st.view] at hren
  exact hren

/-- `mkdir("b")`. -/
theorem calls_rename_sample : ∃ im h s s', Mkfs.mkfs sampleFiles = .ok im ∧ im.disk.Sound ∧ FRun im.disk h s ∧
    Always Tame h ∧
    syscall 0 (.mkdir [98]) s = .ok (0, s') ∧ Renamed s.view 0 (.mkdir [98]) 0 (dirs s'.vol.node) := by
  obtain ⟨im, h, s, hrun, hsound, hr, he⟩ := sample_run
  obtain ⟨⟨r, s'⟩, hcall, rfl⟩ := he.mkdir.exists_ok
  exact ⟨im, h, s, s', hrun, hsound, hr, he.tame, hcall, calls_rename hsound hr he.tame ⟨rfl, trivial⟩ hcall⟩

/-- In such a state a call stops only when it was not possible, when a table or the disk is full, when init exits, or when
it is a `link` whose new name is `.`, which waits for itself. -/
theorem tame_calls_stop (hi : img.Sound) (hr : FRun img h s) (hC : Always Tame h) {a : Act} {e : Stop} (ha : Ints s a)
    (he : step s a = .error e) : (e = .notEnabled ∧ ((s.proc a.1).cwd = none ∨ ForksInUse s.view a.2)) ∨
      (e = .deadlock ∧ LinksDot s.view a.1 a.2) ∨
      ∃ msg ∈ ["iget: no inodes", "ialloc: no inodes", "balloc: out of blocks", "dirlink", "init exiting"],
        e = .panic msg := by
  obtain ⟨hrest, ht⟩ := run_tree hi hr hC
  have hsmall : s.view.sb.Small := hrest.sb ▸ hi.small
  have hspec := step_spec (B := fun e => (e = .notEnabled ∧ ((s.proc a.1).cwd = none ∨ ForksInUse s.view a.2)) ∨
      (e = .deadlock ∧ LinksDot s.view a.1 a.2)) hrest ha (Tree.sound ht hrest hsmall fun hc => .inl ⟨rfl, .inl hc⟩)
    (fun hself => .inr ⟨rfl, Tree.names_itself ht (hself hi.kept)⟩) fun hf => .inl ⟨rfl, .inr hf⟩
  cases hspec.of_error he with
  | iget => exact .inr (.inr ⟨_, by decide, rfl⟩)
  | ialloc => exact .inr (.inr ⟨_, by decide, rfl⟩)
  | balloc => exact .inr (.inr ⟨_, by decide, rfl⟩)
  | dirlink => exact .inr (.inr ⟨_, by decide, rfl⟩)
  | init => exact .inr (.inr ⟨_, by decide, rfl⟩)
  | fault hf =>
    rcases hf with hf | hf
    · exact .inl hf
    · exact .inr (.inl hf)

/-- `link("c", ".")`. -/
theorem tame_calls_stop_sample : ∃ im h s, Mkfs.mkfs sampleFiles = .ok im ∧ FRun im.disk h s ∧ Always Tame h ∧
    step s (0, .link [99] [46]) = .error .deadlock ∧ LinksDot s.view 0 (.link [99] [46]) := by
  obtain ⟨im, h, s, hrun, hsound, hr, he⟩ := sample_run
  have hstop := he.link.eq_error
  rcases tame_calls_stop hsound hr he.tame (a := (0, .link [99] [46])) rfl hstop with ⟨hno, -⟩ | ⟨-, hdot⟩ | ⟨_, -, hno⟩
  · cases hno
  · exact ⟨im, h, s, hrun, hr, he.tame, hstop, hdot⟩
  · cases hno

end reachable

end Xv6Mlfq.Fs
