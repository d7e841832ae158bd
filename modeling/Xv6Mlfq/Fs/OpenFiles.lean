import Xv6Mlfq.Fs.Offset
import Xv6Mlfq.Fs.Paths

/-!
# Open files

`Mid Z T D N H L n v s`: a state in the middle of a system call. The references to inodes are those of the open files and
of the current directories (`View.refs`) and those of the call itself, `H`; the call has taken the locks `L` and has `n`
transactions open. `D` are the references to open files by descriptors, `N` those to files that the call is setting up.
`T` are the inodes as the call has left them, where the freed ones are still there. Between two system calls `D` are the
descriptors of all processes (`View.fds`) and the call holds nothing.

The functions of file.c and the system calls on descriptors move references between these.
-/

namespace Xv6Mlfq.Fs

open Lib

/-! ## References -/

/-- The reference of an open file to an inode. -/
def File.refs (x : File) : Multiset IRef := if x.type = .inode then {x.ip} else 0

def ProcFiles.refs (x : ProcFiles) : Multiset IRef := x.cwd.elim 0 fun k => {k}

/-- The references of all open files and current directories. -/
def View.refs (v : View) : Multiset IRef := ∑ f, (v.ftable f).refs + ∑ p, (v.proc p).refs

def fdRef (o : Option FRef) : Multiset FRef := o.elim 0 fun f => {f}

def ProcFiles.fds (x : ProcFiles) : Multiset FRef := ∑ fd, fdRef (x.ofile fd)

def View.fds (v : View) : Multiset FRef := ∑ p, (v.proc p).fds

section refs

variable {v : View} {f : FRef} {p : PIdx} {k : IRef} {fd : Fin NOFILE}

theorem refs_congr {v' : View} (hf : v'.ftable = v.ftable) (hp : v'.proc = v.proc) : v'.refs = v.refs := by
  unfold View.refs
  rw [hf, hp]

theorem refs_setFile (v : View) (f : FRef) (g : File → File) :
    (v.setFile f g).refs + (v.ftable f).refs = v.refs + (g (v.ftable f)).refs := by
  have := sum_update v.ftable File.refs f (g (v.ftable f))
  show (∑ j, (Function.update v.ftable f (g (v.ftable f)) j).refs) + _ + _ = _
  unfold View.refs
  rw [add_right_comm, this]
  exact add_right_comm ..

theorem refs_setFile_same {g : File → File} (hg : (g (v.ftable f)).refs = (v.ftable f).refs) :
    (v.setFile f g).refs = v.refs := by
  have := refs_setFile v f g
  rw [hg] at this
  exact add_right_cancel this

theorem refs_setProc (v : View) (p : PIdx) (g : ProcFiles → ProcFiles) :
    (v.setProc p g).refs + (v.proc p).refs = v.refs + (g (v.proc p)).refs := by
  have := sum_update v.proc ProcFiles.refs p (g (v.proc p))
  show _ + (∑ j, (Function.update v.proc p (g (v.proc p)) j).refs) + _ = _
  unfold View.refs
  rw [add_assoc, this, add_assoc]
  rfl

theorem refs_setProc_same {g : ProcFiles → ProcFiles} (hg : (g (v.proc p)).cwd = (v.proc p).cwd) :
    (v.setProc p g).refs = v.refs := by
  have hsame : (g (v.proc p)).refs = (v.proc p).refs := by
    unfold ProcFiles.refs
    rw [hg]
  have := refs_setProc v p g
  rw [hsame] at this
  exact add_right_cancel this

theorem mem_refs_file (h : (v.ftable f).type = .inode) : (v.ftable f).ip ∈ v.refs := by
  have hle : (v.ftable f).refs ≤ ∑ f, (v.ftable f).refs :=
    Finset.single_le_sum (f := fun f => (v.ftable f).refs) (fun _ _ => Multiset.zero_le _) (Finset.mem_univ f)
  refine Multiset.mem_add.mpr (.inl (Multiset.mem_of_le hle ?_))
  unfold File.refs
  rw [if_pos h]
  exact Multiset.mem_singleton_self _

theorem mem_refs_cwd (h : (v.proc p).cwd = some k) : k ∈ v.refs := by
  have hle : (v.proc p).refs ≤ ∑ p, (v.proc p).refs :=
    Finset.single_le_sum (f := fun p => (v.proc p).refs) (fun _ _ => Multiset.zero_le _) (Finset.mem_univ p)
  refine Multiset.mem_add.mpr (.inr (Multiset.mem_of_le hle ?_))
  unfold ProcFiles.refs
  rw [h]
  exact Multiset.mem_singleton_self _

theorem fds_setProc (v : View) (p : PIdx) (g : ProcFiles → ProcFiles) :
    (v.setProc p g).fds + (v.proc p).fds = v.fds + (g (v.proc p)).fds :=
  sum_update v.proc ProcFiles.fds p (g (v.proc p))

theorem fds_setProc_same {g : ProcFiles → ProcFiles} (hg : (g (v.proc p)).ofile = (v.proc p).ofile) :
    (v.setProc p g).fds = v.fds := by
  have hsame : (g (v.proc p)).fds = (v.proc p).fds := by
    unfold ProcFiles.fds
    rw [hg]
  have := fds_setProc v p g
  rw [hsame] at this
  exact add_right_cancel this

def View.setFd (v : View) (p : PIdx) (fd : Fin NOFILE) (o : Option FRef) : View :=
  v.setProc p fun x => { x with ofile := Function.update x.ofile fd o }

theorem fds_setFd (v : View) (p : PIdx) (fd : Fin NOFILE) (o : Option FRef) :
    (v.setFd p fd o).fds + fdRef ((v.proc p).ofile fd) = v.fds + fdRef o := by
  have hrow := sum_update (v.proc p).ofile fdRef fd o
  have hall := fds_setProc v p fun x => { x with ofile := Function.update x.ofile fd o }
  change (v.setFd p fd o).fds + _ = v.fds + (∑ j, fdRef (Function.update (v.proc p).ofile fd o j)) at hall
  refine add_right_cancel (b := (v.proc p).fds) ?_
  rw [add_right_comm, hall, add_assoc, hrow, ProcFiles.fds]
  abel

theorem fds_newFd (h : (v.proc p).ofile fd = none) (f : FRef) : (v.setFd p fd (some f)).fds = f ::ₘ v.fds := by
  have := fds_setFd v p fd (some f)
  rw [h] at this
  change _ + 0 = v.fds + {f} at this
  rw [add_zero] at this
  rw [this, add_comm, Multiset.singleton_add]

theorem fds_closeFd (h : (v.proc p).ofile fd = some f) : v.fds = f ::ₘ (v.setFd p fd none).fds := by
  have := fds_setFd v p fd none
  rw [h] at this
  change _ + {f} = v.fds + 0 at this
  rw [add_zero] at this
  rw [← this, add_comm, Multiset.singleton_add]

theorem mem_fds (h : (v.proc p).ofile fd = some f) : f ∈ v.fds := by
  have hrow : fdRef ((v.proc p).ofile fd) ≤ (v.proc p).fds :=
    Finset.single_le_sum (f := fun j => fdRef ((v.proc p).ofile j)) (fun _ _ => Multiset.zero_le _) (Finset.mem_univ fd)
  have hall : (v.proc p).fds ≤ v.fds :=
    Finset.single_le_sum (f := fun p => (v.proc p).fds) (fun _ _ => Multiset.zero_le _) (Finset.mem_univ p)
  refine Multiset.mem_of_le (hrow.trans hall) ?_
  rw [h]
  exact Multiset.mem_singleton_self f

end refs

/-! ## The state in the middle of a system call -/

def OpenOn (v : View) (x : File) : Prop :=
  (v.slot x.ip).valid = true ∧ (x.writable = true → (v.inodeAt x.ip).type ≠ .dir) ∧
    ((v.inodeAt x.ip).type ≠ .dev → x.off < 2 ^ 31)

/-- The file table: `D` are the descriptors, `N` the files that are being set up. -/
structure Files (D N : Multiset FRef) (v : View) : Prop where
  ref : ∀ f, (v.ftable f).ref = (D + N).count f
  unused : ∀ f, (v.ftable f).ref = 0 → (v.ftable f).type = .none
  used : ∀ f ∈ D, (v.ftable f).type ≠ .none
  inode : ∀ f, (v.ftable f).type = .inode → OpenOn v (v.ftable f)

/-- The `struct file` that `filealloc` finds. -/
def View.freeFile (v : View) : Option FRef := (List.finRange NFILE).find? fun f => decide ((v.ftable f).ref = 0)

def View.freeFd (v : View) (p : PIdx) : Option (Fin NOFILE) :=
  (List.finRange NOFILE).find? fun fd => ((v.proc p).ofile fd).isNone

theorem fd_lt {fd : Int} (h : 0 ≤ fd ∧ fd < NOFILE) : fd.toNat < NOFILE := by omega

/-- The open file of a descriptor that a process passes. -/
def View.file (v : View) (p : PIdx) (fd : Int) : Option FRef :=
  if h : 0 ≤ fd ∧ fd < NOFILE then (v.proc p).ofile ⟨fd.toNat, fd_lt h⟩ else none

/-- What a run keeps of the image: the superblock, and the inodes that had lost their links. -/
structure Origin where
  sb : Superblock
  lost : Set Nat

structure Mid (Z : Origin) (T : Nat → Node) (D N : Multiset FRef) (H : Multiset IRef) (L : Finset IRef) (n : Nat) (v : View)
    (s : FS) : Prop where
  st : St (H + v.refs) L v s
  tree : Freed T v.node
  files : Files D N v
  tidy : Tidy Z.lost (H + v.refs) v
  cwd : ∀ p k, (v.proc p).cwd = some k → v.Known k
  ops : v.outstanding = (n : Int)
  sb : v.sb = Z.sb

section mid

variable {B : Stop → Prop} {Z : Origin} {T T' : Nat → Node} {D D' N N' : Multiset FRef} {H H' : Multiset IRef}
    {L L' : Finset IRef} {n : Nat}
  {v v' : View} {s s' : FS} {k : IRef} {f : FRef} {p : PIdx}

namespace Stay

theorem refs_eq {R : Multiset IRef} (h : Stay R v v') : v'.refs = v.refs := refs_congr h.ftable h.proc

theorem fds_eq {R : Multiset IRef} (h : Stay R v v') : v'.fds = v.fds := by
  unfold View.fds
  rw [h.proc]

theorem files {R : Multiset IRef} (h : Stay R v v') (hR : ∀ f, (v.ftable f).type = .inode → (v.ftable f).ip ∈ R)
    (hf : Files D N v) : Files D N v' := by
  refine ⟨by rw [h.ftable]; exact hf.ref, by rw [h.ftable]; exact hf.unused, by rw [h.ftable]; exact hf.used, fun f ht => ?_⟩
  rw [h.ftable] at ht ⊢
  have ho := hf.inode f ht
  obtain ⟨hv, htype⟩ := h.valid _ (hR f ht) ho.1
  refine ⟨hv, ?_⟩
  rw [htype]
  exact ho.2

end Stay

namespace Mid

theorem tree_at (h : Mid Z T D N H L n v s) (hk : k ∈ L) : v.inodeAt k = T (v.slot k).inum :=
  h.tree.of_live (h.st.live_of_loaded (h.st.toHeld.loaded hk))

theorem stay (h : Mid Z T D N H L n v s) (hs : Stay v.refs v v') (hT : Freed T' v'.node) (hst : St (H' + v.refs) L' v' s')
    (ht : Tidy Z.lost (H' + v.refs) v') : Mid Z T' D N H' L' n v' s' := by
  have hrefs := hs.refs_eq
  refine ⟨?_, hT, hs.files (fun _ => mem_refs_file) h.files, ?_, fun p k hk => ?_, hs.ops.trans h.ops, hs.sb.trans h.sb⟩
  · rw [hrefs]
    exact hst
  · rw [hrefs]
    exact ht
  · rw [hs.proc] at hk
    exact hs.known k (mem_refs_cwd hk) (h.cwd p k hk)

theorem keep {R : Multiset IRef} (h : Mid Z T D N H L n v s) (hk : Keep (R + v.refs) v v') (hst : St (H' + v.refs) L' v' s')
    (ht : Tidy Z.lost (H' + v.refs) v') : Mid Z T D N H' L' n v' s' :=
  h.stay (hk.toStay.mono (Multiset.le_add_left _ _)) (h.tree.keep hk) hst ht

theorem ilock (h : Mid Z T D N H L n v s) (hk : k ∈ H + v.refs) (hB : Lockable B L v k) :
    Wp (Fs.ilock k) s (fun _ s' => k ∉ L ∧ v.Live (v.slot k).inum ∧ Mid Z T D N H (insert k L) n (v.ilock k) s' ∧
      Keep (H + v.refs) v (v.ilock k)) (Halt B) := by
  refine (ilock_st h.st hk hB).imp ?_
  intro _ s' hpost
  obtain ⟨hkL, hlive, hst, hkeep⟩ := hpost
  exact ⟨hkL, hlive, h.keep hkeep hst (h.tidy.keep hkeep), hkeep⟩

theorem iunlock (h : Mid Z T D N H L n v s) (hk : k ∈ L) {E : Stop → Prop} :
    Wp (Fs.iunlock k) s (fun _ s' => Mid Z T D N H (L.erase k) n (v.unlock k) s' ∧ Keep (H + v.refs) v (v.unlock k)) E := by
  refine (iunlock_st h.st hk).imp ?_
  intro _ s' hpost
  obtain ⟨hst, hkeep⟩ := hpost
  exact ⟨h.keep hkeep hst (h.tidy.keep hkeep), hkeep⟩

theorem iput (h : Mid Z T D N (k ::ₘ H) L n v s) (hkn : v.Known k) (hB : k ∈ L → B .deadlock) :
    Wp (Fs.iput k) s (fun _ s' => Mid Z T D N H L n (v.put k) s' ∧ Keep (H + v.refs) v (v.put k)) (Halt B) := by
  have hst := h.st
  have ht := h.tidy
  rw [Multiset.cons_add] at hst ht
  refine (iput_st hst hB).imp ?_
  intro _ s' hpost
  obtain ⟨-, hst', hkeep⟩ := hpost
  exact ⟨h.keep hkeep hst' (ht.put hst hkn), hkeep⟩

theorem iunlockput (h : Mid Z T D N (k ::ₘ H) L n v s) (hk : k ∈ L) :
    Wp (Fs.iunlockput k) s (fun _ s' => Mid Z T D N H (L.erase k) n ((v.unlock k).put k) s' ∧
      Keep (H + v.refs) v ((v.unlock k).put k)) (Halt B) := by
  refine Wp.bind (h.iunlock hk) ?_
  intro _ s₁ hpost
  obtain ⟨h₁, hkeep₁⟩ := hpost
  have hvalid := (hkeep₁.valid k ((h.st.locked k hk).1) (h.st.locked k hk).2).1
  refine (h₁.iput (.inl hvalid) fun hkL => absurd hkL (Finset.notMem_erase k L)).imp ?_
  intro _ s₂ hpost
  obtain ⟨h₂, hkeep₂⟩ := hpost
  rw [hkeep₁.refs_eq] at hkeep₂
  rw [Multiset.cons_add] at hkeep₁
  exact ⟨h₂, (hkeep₁.mono (Multiset.le_cons_self _ _)).trans hkeep₂⟩

theorem setNode (h : Mid Z T D N H L n v s) (hk : k ∈ L) {d : Node}
    (hst : St (H + v.refs) L (v.setNode (v.slot k).inum d) s')
    (hs : Stay (H + v.refs) v (v.setNode (v.slot k).inum d)) :
    Mid Z (Function.update T (v.slot k).inum d) D N H L n (v.setNode (v.slot k).inum d) s' :=
  h.stay (hs.mono (Multiset.le_add_left _ _)) (h.tree.update _ d) hst (h.tidy.setNode h.st hk d)

theorem writei (h : Mid Z T D N H L n v s) (hk : k ∈ L) (off : Nat) (src : List UInt8)
    (hd : (v.inodeAt k).type = .dir → DirOk v.sb ((v.inodeAt k).write off src).2.contents) :
    Wp (Fs.writei k src off) s (fun r s' => r = ((v.inodeAt k).write off src).1 ∧
      Mid Z (Function.update T (v.slot k).inum ((T (v.slot k).inum).write off src).2) D N H L n
        (v.setNode (v.slot k).inum ((v.inodeAt k).write off src).2) s' ∧
      Stay (H + v.refs) v (v.setNode (v.slot k).inum ((v.inodeAt k).write off src).2)) (Halt B) := by
  rw [← h.tree_at hk]
  refine (writei_st h.st hk off src hd).mono ?_ fun e he => he.1
  intro r s' hpost
  exact ⟨hpost.1, h.setNode hk hpost.2.1 hpost.2.2, hpost.2.2⟩

theorem addNlink (h : Mid Z T D N H L n v s) (hk : k ∈ L) (x : Int) {E : Stop → Prop} :
    Wp (Fs.addNlink k x) s (fun _ s' => Mid Z (Function.update T (v.slot k).inum ((T (v.slot k).inum).addNlink x)) D N H L n
        (v.setNode (v.slot k).inum ((v.inodeAt k).addNlink x)) s' ∧
      Stay (H + v.refs) v (v.setNode (v.slot k).inum ((v.inodeAt k).addNlink x))) E := by
  rw [← h.tree_at hk]
  refine (addNlink_st h.st hk x).imp ?_
  intro _ s' hpost
  exact ⟨h.setNode hk hpost.1 hpost.2, hpost.2⟩

theorem beginOp (h : Mid Z T D N H L n v s) {E : Stop → Prop} :
    Wp Fs.beginOp s (fun _ s' => Mid Z T D N H L (n + 1) v.beginOp s') E := by
  refine (beginOp_spec h.st.toAt).imp ?_
  intro _ s' hat
  exact ⟨⟨hat, h.st.toHeld.congr rfl rfl rfl⟩, h.tree, ⟨h.files.ref, h.files.unused, h.files.used, h.files.inode⟩, h.tidy,
    h.cwd, congrArg (fun x : Int => x + 1) h.ops, h.sb⟩

theorem endOp (h : Mid Z T D N H L (n + 1) v s) {E : Stop → Prop} :
    Wp Fs.endOp s (fun _ s' => Mid Z T D N H L n v.endOp s') E := by
  refine (endOp_spec h.st.toAt).imp ?_
  intro _ s' hat
  refine ⟨⟨hat, h.st.toHeld.congr rfl rfl rfl⟩, h.tree, ⟨h.files.ref, h.files.unused, h.files.used, h.files.inode⟩, h.tidy,
    h.cwd, ?_, h.sb⟩
  show v.outstanding - 1 = (n : Int)
  rw [h.ops]
  omega

theorem setFile (h : Mid Z T D N H L n v s) {g : File → File} {H' : Multiset IRef} (hat : At (v.setFile f g) s')
    (hrefs : H' + (v.setFile f g).refs = H + v.refs) (hf : Files D' N' (v.setFile f g)) :
    Mid Z T D' N' H' L n (v.setFile f g) s' := by
  refine ⟨?_, h.tree, hf, ?_, h.cwd, h.ops, h.sb⟩
  · rw [hrefs]
    exact ⟨hat, h.st.toHeld.congr rfl rfl rfl⟩
  · rw [hrefs]
    exact h.tidy

end Mid

/-! ## file.c -/

theorem Files.setFile (h : Files D N v) {g : File → File} {x : File} (hx : g (v.ftable f) = x)
    (href : x.ref = (D' + N').count f) (href' : ∀ f', f' ≠ f → (D' + N').count f' = (D + N).count f')
    (hunused : x.ref = 0 → x.type = .none) (hused : f ∈ D' → x.type ≠ .none) (hused' : ∀ f' ∈ D', f' ≠ f → f' ∈ D)
    (hinode : x.type = .inode → OpenOn v x) : Files D' N' (v.setFile f g) := by
  have hfile : ∀ f', (v.setFile f g).ftable f' = if f' = f then x else v.ftable f' := by
    intro f'
    rw [← hx]
    exact Function.update_apply ..
  refine ⟨fun f' => ?_, fun f' hr => ?_, fun f' hf' => ?_, fun f' ht => ?_⟩
  · rw [hfile]
    split_ifs with heq
    · rw [heq]
      exact href
    · rw [href' f' heq]
      exact h.ref f'
  · rw [hfile] at hr ⊢
    split_ifs at hr ⊢
    · exact hunused hr
    · exact h.unused f' hr
  · rw [hfile]
    split_ifs with heq
    · exact hused (heq ▸ hf')
    · exact h.used f' (hused' f' hf' heq)
  · rw [hfile] at ht ⊢
    split_ifs at ht ⊢
    · exact hinode ht
    · exact h.inode f' ht

theorem Mid.ftable (h : Mid Z T D N H L n v s) : s.ftable = v.ftable := h.st.toAt.ftable

theorem Mid.proc (h : Mid Z T D N H L n v s) : s.proc = v.proc := by
  rw [← h.st.view]
  rfl

theorem Mid.filealloc (h : Mid Z T D N H L n v s) {E : Stop → Prop} :
    Wp Fs.filealloc s (fun r s' => (r = none ∧ v.freeFile = none ∧ s' = s) ∨ ∃ f, r = some f ∧ v.freeFile = some f ∧
      (v.ftable f).ref = 0 ∧ Mid Z T D (f ::ₘ N) H L n (v.setFile f fun x => { x with ref := 1 }) s') E := by
  unfold Fs.filealloc
  simp only [wp_bind, wp_look, id, h.ftable]
  cases hfind : (List.finRange NFILE).find? fun f => decide ((v.ftable f).ref = 0) with
  | none => exact .inl ⟨rfl, hfind, rfl⟩
  | some f =>
    have hzero : (v.ftable f).ref = 0 := by simpa using List.find?_some hfind
    refine Wp.bind (setFile_spec h.st.toAt f _) ?_
    intro _ s₁ hat
    refine .inr ⟨f, rfl, hfind, hzero, h.setFile hat ?_ ?_⟩
    · rw [refs_setFile_same rfl]
    · have hcount : (D + N).count f = 0 := by rw [← h.files.ref, hzero]
      have htype := h.files.unused f hzero
      refine h.files.setFile rfl ?_ ?_ (fun h0 => by cases h0) ?_ (fun _ hf' _ => hf') ?_
      · rw [Multiset.add_cons, Multiset.count_cons_self, hcount]
      · intro f' hf'
        rw [Multiset.add_cons, Multiset.count_cons_of_ne hf']
      · intro hD
        have : f ∈ D + N := Multiset.mem_add.mpr (.inl hD)
        exact absurd this (Multiset.count_eq_zero.mp hcount)
      · intro ht
        exact absurd (htype.symm.trans ht) (by decide)

theorem Mid.filedup (h : Mid Z T D N H L n v s) (hf : f ∈ D) {E : Stop → Prop} :
    Wp (Fs.filedup f) s (fun _ s' => Mid Z T (f ::ₘ D) N H L n (v.setFile f fun x => { x with ref := x.ref + 1 }) s') E := by
  have hpos : 0 < (v.ftable f).ref := by
    rw [h.files.ref]
    exact Multiset.count_pos.mpr (Multiset.mem_add.mpr (.inl hf))
  unfold Fs.filedup
  simp only [wp_bind, wp_look, h.ftable]
  rw [if_neg (by omega)]
  refine (setFile_spec h.st.toAt f _).imp ?_
  intro _ s₁ hat
  refine h.setFile hat ?_ ?_
  · rw [refs_setFile_same rfl]
  · refine h.files.setFile rfl ?_ ?_ (fun h0 => by cases h0) (fun _ => h.files.used f hf) ?_ (h.files.inode f)
    · rw [Multiset.cons_add, Multiset.count_cons_self, h.files.ref]
    · intro f' hf'
      rw [Multiset.cons_add, Multiset.count_cons_of_ne hf']
    · intro f' hf' hne
      exact (Multiset.mem_cons.mp hf').resolve_left hne

theorem Mid.fileclose (h : Mid Z T D N H L n v s) (hD : D' ≤ D) (hE : D + N = f ::ₘ (D' + N'))
    (hL : (v.ftable f).type = .inode → L = ∅) :
    Wp (Fs.fileclose f) s (fun _ s' => ∃ v', Mid Z T D' N' H L n v' s' ∧ v'.proc = v.proc) (Halt B) := by
  have hcount : (D + N).count f = (D' + N').count f + 1 := by rw [hE, Multiset.count_cons_self]
  have hother : ∀ f', f' ≠ f → (D' + N').count f' = (D + N).count f' := by
    intro f' hf'
    rw [hE, Multiset.count_cons_of_ne hf']
  have href : (v.ftable f).ref = (D' + N').count f + 1 := by rw [h.files.ref, hcount]
  have hmem : ∀ f' ∈ D', f' ≠ f → f' ∈ D := fun f' hf' _ => Multiset.mem_of_le hD hf'
  unfold Fs.fileclose
  simp only [wp_bind, wp_look, h.ftable]
  rw [if_neg (by omega)]
  refine Wp.ite (fun hmore => ?_) fun hlast => ?_
  · refine (setFile_spec h.st.toAt f _).imp ?_
    intro _ s₁ hat
    refine ⟨_, h.setFile hat ?_ ?_, rfl⟩
    · rw [refs_setFile_same rfl]
    · refine h.files.setFile rfl ?_ hother ?_ ?_ hmem (h.files.inode f)
      · show (v.ftable f).ref - 1 = _
        omega
      · intro h0
        exact absurd h0 (by show (v.ftable f).ref - 1 ≠ 0; omega)
      · intro hf
        exact h.files.used f (Multiset.mem_of_le hD hf)
  · have hzero : (D' + N').count f = 0 := by omega
    have hgone : f ∉ D' + N' := Multiset.count_eq_zero.mp hzero
    have hfiles : Files D' N' (v.setFile f fun x => { x with ref := 0, type := .none }) := by
      refine h.files.setFile rfl hzero.symm hother (fun _ => rfl) ?_ hmem fun ht => by cases ht
      intro hf
      exact absurd (Multiset.mem_add.mpr (.inl hf)) hgone
    have hrefs := refs_setFile v f fun x => { x with ref := 0, type := .none }
    change _ + (v.ftable f).refs = v.refs + 0 at hrefs
    rw [add_zero] at hrefs
    refine Wp.bind (setFile_spec h.st.toAt f _) ?_
    intro _ s₁ hat
    unfold filelast
    cases htype : (v.ftable f).type with
    | none =>
      refine ⟨_, h.setFile hat ?_ hfiles, rfl⟩
      rw [← hrefs, File.refs, htype, if_neg (by decide), add_zero]
    | pipe =>
      refine ⟨_, h.setFile hat ?_ hfiles, rfl⟩
      rw [← hrefs, File.refs, htype, if_neg (by decide), add_zero]
    | inode =>
      -- the reference of the file is now one of the call
      have hmoved : ((v.ftable f).ip ::ₘ H) + (v.setFile f fun x => { x with ref := 0, type := .none }).refs =
          H + v.refs := by
        rw [← hrefs, File.refs, if_pos htype, Multiset.cons_add, ← Multiset.singleton_add]
        abel
      have h₁ := h.setFile hat hmoved hfiles
      dsimp only
      refine Wp.bind h₁.beginOp ?_
      intro _ s₂ h₂
      refine Wp.bind (h₂.iput (.inl (h.files.inode f htype).1) ?_) ?_
      · rw [hL htype]
        exact fun hmem => absurd hmem (Finset.notMem_empty _)
      intro _ s₃ hpost
      obtain ⟨h₃, hkeep⟩ := hpost
      refine h₃.endOp.imp ?_
      intro _ s₄ h₄
      exact ⟨_, h₄, hkeep.proc⟩

theorem Mid.closeFd (h : Mid Z T (f ::ₘ D) N H ∅ n v s) :
    Wp (Fs.fileclose f) s (fun _ s' => ∃ v', Mid Z T D N H ∅ n v' s' ∧ v'.proc = v.proc) (Halt B) :=
  h.fileclose (Multiset.le_cons_self D f) (Multiset.cons_add f D N) fun _ => rfl

theorem Mid.closeNew (h : Mid Z T D (f ::ₘ N) H L n v s) (hL : (v.ftable f).type = .inode → L = ∅) :
    Wp (Fs.fileclose f) s (fun _ s' => ∃ v', Mid Z T D N H L n v' s' ∧ v'.proc = v.proc) (Halt B) :=
  h.fileclose le_rfl (Multiset.add_cons f D N) hL

/-! ## Descriptors -/

theorem Mid.argfd (h : Mid Z T D N H L n v s) (fd : Int) {E : Stop → Prop} :
    Wp (Fs.argfd p fd) s (fun r s' => s' = s ∧ r.map Prod.snd = v.file p fd ∧
      ∀ i f, r = some (i, f) → (v.proc p).ofile i = some f) E := by
  unfold Fs.argfd View.file
  simp only [wp_bind, wp_look, h.proc]
  split_ifs with hfd
  · refine ⟨rfl, ?_, ?_⟩
    · rw [Option.map_map]
      exact Option.map_id_apply
    intro i f heq
    obtain ⟨f', hf', hpair⟩ := Option.map_eq_some_iff.mp heq
    cases hpair
    exact hf'
  · refine ⟨rfl, rfl, ?_⟩
    intro i f heq
    cases heq

theorem mem_fds_file {fd : Int} (h : v.file p fd = some f) : f ∈ v.fds := by
  unfold View.file at h
  split_ifs at h
  exact mem_fds h

theorem Mid.setProc (h : Mid Z T D N H L n v s) {g : ProcFiles → ProcFiles} {H' : Multiset IRef}
    (hat : At (v.setProc p g) s')
    (hrefs : H' + (v.setProc p g).refs = H + v.refs) (hcwd : ∀ k, (g (v.proc p)).cwd = some k → v.Known k) :
    Mid Z T D N H' L n (v.setProc p g) s' := by
  refine ⟨?_, h.tree, ?_, ?_, ?_, h.ops, h.sb⟩
  · rw [hrefs]
    exact ⟨hat, h.st.toHeld.congr rfl rfl rfl⟩
  · exact ⟨h.files.ref, h.files.unused, h.files.used, h.files.inode⟩
  · rw [hrefs]
    exact h.tidy
  · intro q k hk
    simp only [View.setProc, Function.update_apply] at hk
    split_ifs at hk
    · exact hcwd k hk
    · exact h.cwd q k hk

theorem Mid.setFd (h : Mid Z T D N H L n v s) {fd : Fin NOFILE} {o : Option FRef}
    (hat : At (v.setFd p fd o) s') : Mid Z T D N H L n (v.setFd p fd o) s' :=
  h.setProc hat (by rw [refs_setProc_same rfl]) (h.cwd p)

theorem Mid.fdalloc (h : Mid Z T D N H L n v s) (f : FRef) {E : Stop → Prop} :
    Wp (Fs.fdalloc p f) s (fun r s' => (r = none ∧ v.freeFd p = none ∧ s' = s) ∨ ∃ fd, r = some fd ∧ v.freeFd p = some fd ∧
      (v.proc p).ofile fd = none ∧ Mid Z T D N H L n (v.setFd p fd (some f)) s') E := by
  unfold Fs.fdalloc
  simp only [wp_bind, wp_look, h.proc]
  cases hfind : (List.finRange NOFILE).find? fun fd => ((v.proc p).ofile fd).isNone with
  | none => exact .inl ⟨rfl, hfind, rfl⟩
  | some fd =>
    have hnone : (v.proc p).ofile fd = none := by simpa using List.find?_some hfind
    refine Wp.bind (setProc_spec h.st.toAt p _) ?_
    intro _ s₁ hat
    exact .inr ⟨fd, rfl, hfind, hnone, h.setFd hat⟩

/-! ## Reading and writing -/

theorem OpenOn.advance {x : File} (h : OpenOn v x) {r : Nat}
    (hr : (v.inodeAt x.ip).type ≠ .dev → 0 < r → x.off + r < 2 ^ 31) : OpenOn v (advance r x) := by
  unfold Fs.advance
  split_ifs with hpos
  · refine ⟨h.1, h.2.1, fun hdev => lt_of_le_of_lt (Nat.mod_le _ _) (hr hdev hpos)⟩
  · exact h

theorem advance_refs (r : Nat) (x : File) : (advance r x).refs = x.refs := by
  unfold advance
  split_ifs <;> rfl

theorem advance_same (r : Nat) (x : File) : (advance r x).ref = x.ref ∧ (advance r x).type = x.type ∧
    (advance r x).writable = x.writable ∧ (advance r x).ip = x.ip := by
  unfold advance
  split_ifs <;> exact ⟨rfl, rfl, rfl, rfl⟩

theorem Mid.advance (h : Mid Z T D N H L n v s) {r : Nat} (ht : (v.ftable f).type = .inode)
    (hr : (v.inodeAt (v.ftable f).ip).type ≠ .dev → 0 < r → (v.ftable f).off + r < 2 ^ 31) {E : Stop → Prop} :
    Wp (Fs.setFile f (Fs.advance r)) s (fun _ s' => Mid Z T D N H L n (v.setFile f (Fs.advance r)) s') E := by
  obtain ⟨href, htype, -, -⟩ := advance_same r (v.ftable f)
  refine (setFile_spec h.st.toAt f _).imp ?_
  intro _ s' hat
  refine h.setFile hat (by rw [refs_setFile_same (advance_refs r _)]) ?_
  refine h.files.setFile rfl ?_ (fun _ _ => rfl) ?_ ?_ (fun _ hf _ => hf) fun _ => (h.files.inode f ht).advance hr
  · rw [href]
    exact h.files.ref f
  · rw [href, htype]
    exact h.files.unused f
  · intro hf
    rw [htype]
    exact h.files.used f hf

theorem readiResult_length {d : Node} {off m : Nat} {dev : Option (List UInt8)} (hd : d.type ≠ .dev)
    (hpos : 0 < ((readiResult d off m dev).getD []).length) :
    off + ((readiResult d off m dev).getD []).length ≤ d.contents.length := by
  unfold readiResult at hpos ⊢
  rw [if_neg hd] at hpos ⊢
  split_ifs at hpos ⊢ with hbad
  · exact absurd hpos (lt_irrefl 0)
  · simp only [Option.getD_some, List.length_take, List.length_drop] at hpos ⊢
    omega

theorem Mid.mem_file (ht : (v.ftable f).type = .inode) : (v.ftable f).ip ∈ H + v.refs :=
  Multiset.mem_add.mpr (.inr (mem_refs_file ht))

theorem Mid.lockable (h : Mid Z T D N H ∅ n v s) (ht : (v.ftable f).type = .inode) : Lockable B ∅ v (v.ftable f).ip :=
  .of_valid (Finset.notMem_empty _) (h.files.inode f ht).1

theorem Mid.fileread (h : Mid Z T D N H ∅ n v s) (hf : f ∈ D) (m : Nat) (dev : Option (List UInt8)) :
    Wp (Fs.fileread f m dev) s (fun _ s' => ∃ v', Mid Z T D N H ∅ n v' s' ∧ v'.proc = v.proc) (Halt B) := by
  unfold Fs.fileread
  simp only [wp_bind, wp_look, h.ftable]
  refine Wp.ite (fun _ => ⟨v, h, rfl⟩) fun _ => ?_
  cases ht : (v.ftable f).type with
  | none => exact absurd ht (h.files.used f hf)
  | pipe => exact ⟨v, h, rfl⟩
  | inode =>
    dsimp only
    refine Wp.bind (h.ilock (Mid.mem_file ht) (h.lockable ht)) ?_
    intro _ s₁ hpost
    obtain ⟨-, -, h₁, hkeep₁⟩ := hpost
    have hkL : (v.ftable f).ip ∈ insert (v.ftable f).ip (∅ : Finset IRef) := Finset.mem_insert_self _ _
    refine Wp.bind (readi_st h₁.st hkL _ m dev) ?_
    intro r s₂ hpost
    obtain ⟨rfl, rfl⟩ := hpost
    refine Wp.bind (h₁.advance (f := f) ht ?_) ?_
    · intro hdev hpos
      have hle := readiResult_length hdev hpos
      have hlen : ((v.ilock (v.ftable f).ip).inodeAt (v.ftable f).ip).contents.length ≤ MAXFILE * BSIZE :=
        h₁.st.length_le _
      simp only [MAXFILE, NDIRECT, NINDIRECT, BSIZE] at hlen
      exact lt_of_le_of_lt (hle.trans hlen) (by norm_num)
    intro _ s₃ h₃
    refine Wp.bind (h₃.iunlock hkL) ?_
    intro _ s₄ hpost
    rw [show (insert (v.ftable f).ip (∅ : Finset IRef)).erase (v.ftable f).ip = ∅ by simp] at hpost
    exact ⟨_, hpost.1, rfl⟩

theorem write_length {d : Node} {off : Nat} {src : List UInt8} (hd : d.type ≠ .dev)
    (hpos : 0 < (d.write off src).1.getD 0) : off + (d.write off src).1.getD 0 ≤ MAXFILE * BSIZE := by
  unfold Node.write at hpos ⊢
  rw [if_neg hd] at hpos ⊢
  split_ifs at hpos ⊢ with hbad hmax
  · exact absurd hpos (lt_irrefl 0)
  · exact absurd hpos (lt_irrefl 0)
  · exact Nat.le_of_not_lt hmax

theorem write_result (d : Node) (off : Nat) (src : List UInt8) :
    (d.write off src).1 = none ∨ (d.write off src).1 = some src.length := by
  unfold Node.write
  split_ifs <;> simp

theorem Mid.tree_file (h : Mid Z T D N H L n v s) (ht : (v.ftable f).type = .inode) :
    v.inodeAt (v.ftable f).ip = T (v.slot (v.ftable f).ip).inum := by
  apply h.tree.of_live
  apply h.st.live_of_loaded
  refine ⟨?_, (h.files.inode f ht).1⟩
  rw [h.st.ref]
  exact Multiset.count_pos.mpr (Mid.mem_file ht)

theorem Mid.filewriteChunk (h : Mid Z T D N H ∅ n v s) (ht : (v.ftable f).type = .inode) (hw : (v.ftable f).writable = true)
    {i : Nat} (hi : (v.slot (v.ftable f).ip).inum = i) (src : List UInt8) :
    Wp (Fs.filewriteChunk f (v.ftable f).ip src) s (fun r s' => r = ((T i).write (v.ftable f).off src).1 ∧
      ∃ v', Mid Z (Function.update T i ((T i).write (v.ftable f).off src).2) D N H ∅ n v' s' ∧ v'.proc = v.proc ∧
        v'.ftable f = Fs.advance (((T i).write (v.ftable f).off src).1.getD 0) (v.ftable f) ∧
        (v'.slot (v.ftable f).ip).inum = i) (Halt B) := by
  subst hi
  unfold Fs.filewriteChunk
  refine Wp.bind h.beginOp ?_
  intro _ s₁ h₁
  refine Wp.bind (h₁.ilock (Mid.mem_file (v := v.beginOp) ht) (h₁.lockable ht)) ?_
  intro _ s₂ hpost
  obtain ⟨-, -, h₂, hkeep₂⟩ := hpost
  change Mid Z T D N H (insert (v.ftable f).ip ∅) (n + 1) (v.beginOp.ilock (v.ftable f).ip) s₂ at h₂
  have hkL : (v.ftable f).ip ∈ insert (v.ftable f).ip (∅ : Finset IRef) := Finset.mem_insert_self _ _
  have hon := h₂.files.inode f ht
  have hinum : ((v.beginOp.ilock (v.ftable f).ip).slot (v.ftable f).ip).inum = (v.slot (v.ftable f).ip).inum :=
    hkeep₂.inum _ (Mid.mem_file (v := v.beginOp) ht)
  have hat := h₂.tree_at hkL
  rw [hinum] at hat
  simp only [wp_bind, wp_look, h₂.ftable]
  refine (h₂.writei hkL _ src fun hdir => absurd hdir (hon.2.1 hw)).imp ?_
  intro r s₃ hpost
  obtain ⟨rfl, h₃, -⟩ := hpost
  refine (h₃.advance (f := f) ht ?_).imp ?_
  · intro hdev hpos
    change (View.inodeAt (View.setNode _ _ _) (v.ftable f).ip).type ≠ _ at hdev
    rw [inodeAt_setNode, write_type] at hdev
    have hle := write_length hdev hpos
    simp only [MAXFILE, NDIRECT, NINDIRECT, BSIZE] at hle
    exact lt_of_le_of_lt hle (by norm_num)
  intro _ s₄ h₄
  refine (h₄.iunlock hkL).imp ?_
  intro _ s₅ hpost
  obtain ⟨h₅, -⟩ := hpost
  rw [show (insert (v.ftable f).ip (∅ : Finset IRef)).erase (v.ftable f).ip = ∅ by simp] at h₅
  refine h₅.endOp.imp ?_
  intro _ s₆ h₆
  rw [hinum, hat] at h₆
  rw [hat]
  refine ⟨rfl, _, h₆, rfl, ?_, ?_⟩
  · simp only [View.endOp, View.unlock, View.setFile, View.setNode, View.setSlot, Function.update_self]
    rfl
  · simp only [View.endOp, View.unlock, View.setFile, View.setNode, View.setSlot, Function.update_self]
    exact hinum

theorem Mid.filewriteLoop (fuel : Nat) : ∀ (T : Nat → Node) (v : View) (s : FS) (src : List UInt8) (i : Nat),
    src.length ≤ fuel → Mid Z T D N H ∅ n v s → (v.ftable f).type = .inode → (v.ftable f).writable = true →
    (v.slot (v.ftable f).ip).inum = i → Wp (Fs.filewriteLoop f (v.ftable f).ip fuel src) s
      (fun ok s' => (ok = true ↔ ((T i).filewrite (v.ftable f).off src).1 ≠ -1) ∧
        ∃ v', Mid Z (Function.update T i ((T i).filewrite (v.ftable f).off src).2) D N H ∅ n v' s' ∧ v'.proc = v.proc)
          (Halt B) := by
  -- nothing is left to write
  have hnil : ∀ (T : Nat → Node) (v : View) (s : FS) (i off : Nat), Mid Z T D N H ∅ n v s →
      (true = true ↔ ((T i).filewrite off []).1 ≠ -1) ∧
        ∃ v', Mid Z (Function.update T i ((T i).filewrite off []).2) D N H ∅ n v' s ∧ v'.proc = v.proc := by
    intro T v s i off h
    rw [filewrite_nil, Function.update_eq_self]
    exact ⟨iff_of_true rfl (by simp), v, h, rfl⟩
  induction fuel with
  | zero =>
    intro T v s src i hle h _ _ _
    obtain rfl : src = [] := List.length_eq_zero_iff.mp (by omega)
    exact hnil T v s i _ h
  | succ fuel ih =>
    intro T v s src i hle h ht hw hi
    unfold Fs.filewriteLoop
    refine Wp.ite (fun hs => ?_) fun hs => ?_
    · subst hs
      exact hnil T v s i _ h
    obtain ⟨m, hm⟩ : ∃ m, m = min src.length writeMax := ⟨_, rfl⟩
    have hpos : 0 < m := by
      have := List.length_pos_iff.mpr hs
      rw [hm]
      unfold writeMax
      omega
    have htake : (src.take m).length = m := by
      rw [List.length_take]
      omega
    have hlen : (T i).contents.length ≤ MAXFILE * BSIZE := by
      rw [← hi, ← h.tree_file ht]
      exact h.st.length_le _
    simp only [← hm]
    refine Wp.bind (h.filewriteChunk ht hw hi (src.take m)) ?_
    intro r s₁ hpost
    obtain ⟨rfl, v₁, h₁, hproc, hfile, hinum⟩ := hpost
    rcases write_result (T i) (v.ftable f).off (src.take m) with hr | hr
    · rw [filewrite_refused hlen hs hm hr]
      rw [hr]
      exact ⟨iff_of_false Bool.false_ne_true (not_not.mpr rfl), v₁, h₁, hproc⟩
    · rw [htake] at hr
      rw [hr] at hfile ⊢
      obtain ⟨-, htype, hwrit, hip⟩ := advance_same m (v.ftable f)
      have hoff : (v₁.ftable f).off = ((v.ftable f).off + m) % UINT := by
        rw [hfile]
        show (Fs.advance m (v.ftable f)).off = _
        unfold Fs.advance
        rw [if_pos hpos]
      have hip₁ : (v₁.ftable f).ip = (v.ftable f).ip := by
        rw [hfile]
        exact hip
      -- a chunk is never written in part
      dsimp only
      rw [if_neg (by simp)]
      have hrest := ih _ v₁ s₁ (src.drop m) i (by simp; omega) h₁ (by rw [hfile]; exact htype.trans ht)
        (by rw [hfile]; exact hwrit.trans hw) (by rw [hip₁]; exact hinum)
      rw [hip₁, hoff, Function.update_self, Function.update_idem] at hrest
      rw [filewrite_written hlen hm hr rfl]
      refine hrest.imp ?_
      intro ok s₂ hpost
      obtain ⟨hok, v₂, h₂, hproc₂⟩ := hpost
      refine ⟨hok.trans ?_, v₂, h₂, hproc₂.trans hproc⟩
      split_ifs with hneg
      · exact iff_of_false (not_not.mpr hneg) (not_not.mpr rfl)
      · exact iff_of_true hneg (by omega)

def View.inumOf (v : View) (f : FRef) : Nat := (v.slot (v.ftable f).ip).inum

/-- `filewrite` on the nodes: the result, and the nodes. -/
def View.filewrite (v : View) (T : Nat → Node) (f : FRef) (src : List UInt8) (dev : Int) : Int × (Nat → Node) :=
  if (v.ftable f).writable = false then (-1, T)
  else if (v.ftable f).type = .pipe then (dev, T)
  else (((T (v.inumOf f)).filewrite (v.ftable f).off src).1,
    Function.update T (v.inumOf f) ((T (v.inumOf f)).filewrite (v.ftable f).off src).2)

theorem Mid.filewrite (h : Mid Z T D N H ∅ n v s) (hf : f ∈ D) (src : List UInt8) (dev : Int) :
    Wp (Fs.filewrite f src dev) s (fun r s' => r = (v.filewrite T f src dev).1 ∧
      ∃ v', Mid Z (v.filewrite T f src dev).2 D N H ∅ n v' s' ∧ v'.proc = v.proc) (Halt B) := by
  unfold Fs.filewrite View.filewrite
  simp only [wp_bind, wp_look, h.ftable]
  refine Wp.ite (fun hw => ?_) fun hw => ?_
  · rw [if_pos hw]
    exact ⟨rfl, v, h, rfl⟩
  rw [if_neg hw]
  cases ht : (v.ftable f).type with
  | none => exact absurd ht (h.files.used f hf)
  | pipe => exact ⟨rfl, v, h, rfl⟩
  | inode =>
    dsimp only
    rw [if_neg (by decide)]
    refine Wp.bind (Mid.filewriteLoop _ T v s src (v.inumOf f) le_rfl h ht (by simpa using hw) rfl) ?_
    intro ok s₁ hpost
    obtain ⟨hok, v₁, h₁, hproc⟩ := hpost
    refine ⟨?_, v₁, h₁, hproc⟩
    rcases filewrite_result (T (v.inumOf f)) (v.ftable f).off src with hr | hr
    · rw [hok.mpr (by omega), hr]
      rfl
    · rw [if_neg (fun hyes => hok.mp hyes hr), hr]

theorem Mid.filestat (h : Mid Z T D N H ∅ n v s) : Wp (Fs.filestat f) s
    (fun _ s' => ∃ v', Mid Z T D N H ∅ n v' s' ∧ v'.proc = v.proc) (Halt B) := by
  unfold Fs.filestat
  simp only [wp_bind, wp_look, h.ftable]
  refine Wp.ite (fun ht => ?_) fun _ => ⟨v, h, rfl⟩
  refine Wp.bind (h.ilock (Mid.mem_file ht) (h.lockable ht)) ?_
  intro _ s₁ hpost
  obtain ⟨-, -, h₁, hkeep₁⟩ := hpost
  refine Wp.bind (h₁.iunlock (Finset.mem_insert_self _ _)) ?_
  intro _ s₂ hpost
  rw [show (insert (v.ftable f).ip (∅ : Finset IRef)).erase (v.ftable f).ip = ∅ by simp] at hpost
  exact ⟨_, hpost.1, rfl⟩

/-! ## System calls on descriptors -/

def Rest (Z : Origin) (v : View) (s : FS) : Prop := Mid Z v.node v.fds 0 0 ∅ 0 v s

/-- A system call has ended, and has left the tree `T`. -/
def Ends (Z : Origin) (T : Nat → Node) (s : FS) : Prop := ∃ v, Rest Z v s ∧ Freed T v.node

theorem Mid.rest (h : Mid Z T D 0 0 ∅ 0 v' s') (hD : v'.fds = D) : Rest Z v' s' := by
  unfold Rest
  rw [hD]
  exact ⟨h.st, .refl _, h.files, h.tidy, h.cwd, h.ops, h.sb⟩

theorem Mid.ends (h : Mid Z T D 0 0 ∅ 0 v' s') (hD : v'.fds = D) : Ends Z T s' := ⟨v', h.rest hD, h.tree⟩

theorem Rest.ends (h : Rest Z v s) : Ends Z v.node s := ⟨v, h, .refl _⟩

theorem fds_of_proc (h : v'.proc = v.proc) : v'.fds = v.fds := by
  unfold View.fds
  rw [h]

theorem ends_of_proc (h : ∃ v', Mid Z T v.fds 0 0 ∅ 0 v' s' ∧ v'.proc = v.proc) : Ends Z T s' := by
  obtain ⟨v', h', hproc⟩ := h
  exact h'.ends (fds_of_proc hproc)

theorem onFile_rest {α : Type} {m : FRef → M α} {a : α} {Q : α → FS → Prop} (h : Rest Z v s) (fd : Int)
    (hno : v.file p fd = none → Q a s) (hm : ∀ f ∈ v.fds, v.file p fd = some f → Wp (m f) s Q (Halt B)) :
    Wp (do
      match ← Fs.argfd p fd with
      | none => return a
      | some (_, f) => m f) s Q (Halt B) := by
  refine Wp.bind (Mid.argfd h fd) ?_
  intro r s₁ hpost
  obtain ⟨rfl, hfile, hr⟩ := hpost
  cases r with
  | none => exact hno hfile.symm
  | some x => exact hm x.2 (mem_fds (hr x.1 x.2 rfl)) hfile.symm

theorem sysRead_rest (h : Rest Z v s) (fd : Int) (m : Nat) (dev : Option (List UInt8)) :
    Wp (sysRead p fd m dev) s (fun _ s' => Ends Z v.node s') (Halt B) :=
  onFile_rest h fd (fun _ => h.ends) fun _ hf _ => (Mid.fileread h hf m dev).imp fun _ _ => ends_of_proc

/-- `write` on the tree: the result, and the tree. -/
def View.write (v : View) (p : PIdx) (fd : Int) (src : List UInt8) (dev : Int) : Int × (Nat → Node) :=
  (v.file p fd).elim (-1, v.node) fun f => v.filewrite v.node f src dev

theorem sysWrite_rest (h : Rest Z v s) (fd : Int) (src : List UInt8) (dev : Int) :
    Wp (sysWrite p fd src dev) s (fun r s' => r = (v.write p fd src dev).1 ∧ Ends Z (v.write p fd src dev).2 s')
      (Halt B) := by
  unfold View.write
  refine onFile_rest h fd (fun hno => ?_) fun f hf hfile => (Mid.filewrite h hf src dev).imp ?_
  · rw [hno]
    exact ⟨rfl, h.ends⟩
  · intro r s' hpost
    obtain ⟨hr, v', h', hproc⟩ := hpost
    rw [hfile]
    exact ⟨hr, h'.ends (fds_of_proc hproc)⟩

theorem write_nlink (v : View) (p : PIdx) (fd : Int) (src : List UInt8) (dev : Int) (i : Nat) :
    ((v.write p fd src dev).2 i).nlink = (v.node i).nlink := by
  unfold View.write
  cases v.file p fd with
  | none => rfl
  | some f =>
    simp only [Option.elim_some]
    unfold View.filewrite
    split_ifs
    · rfl
    · rfl
    simp only [Function.update_apply]
    split_ifs with hi
    · rcases filewrite_node (v.node (v.inumOf f)) (v.ftable f).off src with hsame | ⟨-, bs, hbs⟩
      · rw [hsame, hi]
      · rw [hbs, hi]
    · rfl

/-- `T'` is `T` with other bytes in the regular file `i`. -/
def Rewritten (i : Nat) (T T' : Nat → Node) : Prop :=
  T' = T ∨ ((T i).type = .file ∧ ∃ bs, T' = Function.update T i { T i with contents := bs })

theorem Rest.rewritten (h : Rest Z v s) (fd : Int) (src : List UInt8) (dev : Int) :
    ∃ i, Rewritten i v.node (v.write p fd src dev).2 := by
  unfold View.write
  cases hfile : v.file p fd with
  | none => exact ⟨0, .inl rfl⟩
  | some f =>
    simp only [Option.elim_some]
    unfold View.filewrite
    split_ifs with hw hpipe
    · exact ⟨0, .inl rfl⟩
    · exact ⟨0, .inl rfl⟩
    refine ⟨v.inumOf f, ?_⟩
    have hused := h.files.used f (mem_fds_file hfile)
    have ht : (v.ftable f).type = .inode := by
      cases htype : (v.ftable f).type with
      | none => exact absurd htype hused
      | pipe => exact absurd htype hpipe
      | inode => rfl
    obtain ⟨hvalid, hdir, -⟩ := h.files.inode f ht
    have hlive : (v.inodeAt (v.ftable f).ip).type ≠ .free := by
      apply h.st.live_of_loaded
      refine ⟨?_, hvalid⟩
      rw [h.st.ref]
      exact Multiset.count_pos.mpr (Mid.mem_file ht)
    rcases filewrite_node (v.node (v.inumOf f)) (v.ftable f).off src with hsame | ⟨hdev, bs, hbs⟩
    · left
      rw [hsame, Function.update_eq_self]
    · right
      refine ⟨?_, bs, by rw [hbs]⟩
      cases htype : (v.node (v.inumOf f)).type with
      | free => exact absurd htype hlive
      | dir => exact absurd htype (hdir (by simpa using hw))
      | file => rfl
      | dev => exact absurd htype hdev

theorem sysFstat_rest (h : Rest Z v s) (fd : Int) : Wp (sysFstat p fd) s (fun _ s' => Ends Z v.node s') (Halt B) :=
  onFile_rest h fd (fun _ => h.ends) fun _ _ _ => (Mid.filestat h).imp fun _ _ => ends_of_proc

theorem sysDup_rest (h : Rest Z v s) (fd : Int) : Wp (sysDup p fd) s (fun _ s' => Ends Z v.node s') (Halt B) := by
  unfold sysDup
  refine Wp.bind (Mid.argfd h fd) ?_
  intro r s₁ hpost
  obtain ⟨rfl, -, hr⟩ := hpost
  cases r with
  | none => exact h.ends
  | some x =>
    refine Wp.bind (Mid.fdalloc h x.2) ?_
    intro r s₂ hpost
    rcases hpost with ⟨rfl, -, rfl⟩ | ⟨fd', rfl, -, hnone, h'⟩
    · exact h.ends
    · refine Wp.bind (h'.filedup (mem_fds (hr x.1 x.2 rfl))) ?_
      intro _ s₃ h₃
      exact h₃.ends (fds_newFd hnone x.2)

theorem sysClose_rest (h : Rest Z v s) (fd : Int) : Wp (sysClose p fd) s (fun _ s' => Ends Z v.node s') (Halt B) := by
  unfold sysClose
  refine Wp.bind (Mid.argfd h fd) ?_
  intro r s₁ hpost
  obtain ⟨rfl, -, hr⟩ := hpost
  cases r with
  | none => exact h.ends
  | some x =>
    refine Wp.bind (setProc_spec h.st.toAt p _) ?_
    intro _ s₂ hat
    have h₂ : Mid Z v.node v.fds 0 0 ∅ 0 (v.setFd p x.1 none) s₂ := Mid.setFd h hat
    rw [fds_closeFd (hr x.1 x.2 rfl)] at h₂
    refine Wp.bind h₂.closeFd ?_
    exact fun _ _ => ends_of_proc

theorem newOffset_lt {off size : Nat} {offset whence new : Int} (ho : offset < 2 ^ 31)
    (h : newOffset off size offset whence = some new) : new < 2 ^ 31 := by
  have hint : ∀ x : Int, int x < 2 ^ 31 := by
    intro x
    have := Int.bmod_lt (x := x) (m := UINT) (by decide)
    unfold int
    simp only [UINT] at *
    omega
  unfold newOffset at h
  split_ifs at h
  · cases h
    exact ho
  · cases h
    exact hint _
  · cases h
    exact hint _

theorem lock_unlock (hl : (v.slot k).lock = false) : (v.lock k).unlock k = v := by
  have hslot : (⟨(v.slot k).inum, (v.slot k).ref, false, (v.slot k).valid⟩ : Slot) = v.slot k := by rw [← hl]
  simp only [View.lock, View.unlock, View.setSlot, Function.update_self, Function.update_idem, hslot,
    Function.update_eq_self]

theorem sysLseek_rest (h : Rest Z v s) (fd : Int) {offset : Int} (ho : offset < 2 ^ 31) (whence : Int) :
    Wp (sysLseek p fd offset whence) s (fun _ s' => Ends Z v.node s') (Halt B) := by
  refine onFile_rest h fd (fun _ => h.ends) fun f _ _ => ?_
  simp only [wp_bind, wp_look, Mid.ftable h]
  refine Wp.ite (fun _ => h.ends) fun ht => ?_
  have ht : (v.ftable f).type = .inode := not_not.mp ht
  refine Wp.bind ((acquire_spec h.st.toAt (v.ftable f).ip).mono (fun _ _ h => h) ?_) ?_
  · intro e he
    exact absurd ((h.st.lock _).mp he.2) (Finset.notMem_empty _)
  intro _ s₁ hpost
  obtain ⟨hl, hat⟩ := hpost
  simp only [Fs.inode, wp_bind, wp_look]
  refine (release_spec hat (v.ftable f).ip).imp ?_
  intro _ s₂ hat₂
  rw [lock_unlock hl] at hat₂
  have h₂ : Rest Z v s₂ := ⟨⟨hat₂, h.st.toHeld⟩, .refl _, h.files, h.tidy, h.cwd, h.ops, h.sb⟩
  cases hnew : newOffset (v.ftable f).off (s₁.icache (v.ftable f).ip).copy.size offset whence with
  | none => exact h₂.ends
  | some new =>
    have hlt := newOffset_lt ho hnew
    dsimp only
    refine Wp.ite (fun _ => h₂.ends) fun hneg => ?_
    refine Wp.bind (setFile_spec hat₂ f _) ?_
    intro _ s₃ hat₃
    refine Mid.ends (Mid.setFile h₂ hat₃ (by rw [refs_setFile_same rfl]) ?_) rfl
    have hon := h.files.inode f ht
    refine h.files.setFile rfl (h.files.ref f) (fun _ _ => rfl) (h.files.unused f) (h.files.used f) (fun _ hf _ => hf)
      fun _ => ⟨hon.1, hon.2.1, fun _ => ?_⟩
    show new.toNat < 2 ^ 31
    omega

/-! ## Pipes -/

theorem Files.setUp (h : Files D (f ::ₘ N) v) {g : File → File} (href : (g (v.ftable f)).ref = (v.ftable f).ref)
    (ht : (g (v.ftable f)).type ≠ .none) (hinode : (g (v.ftable f)).type = .inode → OpenOn v (g (v.ftable f))) :
    Files (f ::ₘ D) N (v.setFile f g) := by
  refine h.setFile rfl ?_ ?_ ?_ (fun _ => ht) ?_ hinode
  · rw [href, Multiset.cons_add, ← Multiset.add_cons]
    exact h.ref f
  · intro f' _
    rw [Multiset.cons_add, ← Multiset.add_cons]
  · intro h0
    have hone := h.ref f
    rw [Multiset.add_cons, Multiset.count_cons_self] at hone
    exact absurd (hone.symm.trans (href.symm.trans h0)) (Nat.succ_ne_zero _)
  · intro f' hf' hne
    exact (Multiset.mem_cons.mp hf').resolve_left hne

theorem refs_none {x : File} (h : x.type = .none) : x.refs = 0 := by
  unfold File.refs
  rw [h]
  rfl

theorem Mid.setPipe (h : Mid Z T D (f ::ₘ N) H L n v s) (hnone : (v.ftable f).type = .none) (r w : Bool) {E : Stop → Prop} :
    Wp (Fs.setFile f fun x => { x with type := .pipe, readable := r, writable := w }) s
      (fun _ s' => Mid Z T (f ::ₘ D) N H L n (v.setFile f
        fun x => { x with type := .pipe, readable := r, writable := w }) s') E := by
  refine (setFile_spec h.st.toAt f _).imp ?_
  intro _ s' hat
  refine h.setFile hat ?_ (h.files.setUp rfl (by simp) fun ht => by cases ht)
  rw [refs_setFile_same]
  rw [refs_none hnone]
  rfl

theorem Mid.setOpen (h : Mid Z T D (f ::ₘ N) (k ::ₘ H) L n v s) (hnone : (v.ftable f).type = .none)
    (hv : (v.slot k).valid = true) {omode : Nat} (hdir : (v.inodeAt k).type = .dir → omode = 0) {E : Stop → Prop} :
    Wp (Fs.setFile f (openFile omode k)) s (fun _ s' => Mid Z T (f ::ₘ D) N H L n (v.setFile f (openFile omode k)) s')
      E := by
  refine (setFile_spec h.st.toAt f _).imp ?_
  intro _ s' hat
  refine h.setFile hat ?_ (h.files.setUp rfl ?_ fun _ => ⟨hv, fun hw hd => ?_, fun _ => ?_⟩)
  · have hrefs := refs_setFile v f (openFile omode k)
    have hopen : (openFile omode k (v.ftable f)).refs = {k} := by simp [File.refs, openFile]
    rw [refs_none hnone, hopen, add_zero] at hrefs
    rw [hrefs, ← Multiset.singleton_add]
    abel
  · simp [openFile]
  · have h0 := hdir hd
    subst h0
    cases hw
  · show 0 < 2 ^ 31
    norm_num

theorem Mid.pipealloc (h : Mid Z T D 0 H ∅ n v s) (ok : Bool) :
    Wp (Fs.pipealloc ok) s (fun r s' => ∃ v', v'.proc = v.proc ∧ ((r = none ∧ Mid Z T D 0 H ∅ n v' s') ∨
      ∃ f0 f1, r = some (f0, f1) ∧ Mid Z T (f1 ::ₘ f0 ::ₘ D) 0 H ∅ n v' s')) (Halt B) := by
  unfold Fs.pipealloc
  refine Wp.bind h.filealloc ?_
  intro r s₁ hpost
  rcases hpost with ⟨rfl, -, rfl⟩ | ⟨f0, rfl, -, hf0, h₁⟩
  · exact ⟨v, rfl, .inl ⟨rfl, h⟩⟩
  refine Wp.bind h₁.filealloc ?_
  intro r s₂ hpost
  rcases hpost with ⟨rfl, -, rfl⟩ | ⟨f1, rfl, -, hf1, h₂⟩
  · refine Wp.bind (h₁.closeNew fun _ => rfl) ?_
    intro _ s₃ hpost
    obtain ⟨v', h', hproc⟩ := hpost
    exact ⟨v', hproc, .inl ⟨rfl, h'⟩⟩
  -- the second file is another one, as the first one is in use now
  have hne : f1 ≠ f0 := by
    rintro rfl
    simp [View.setFile] at hf1
  have hnew : (v.ftable f1).ref = 0 := by simpa [View.setFile, Function.update_of_ne hne] using hf1
  refine Wp.ite (fun _ => ?_) fun _ => ?_
  · rw [Multiset.cons_swap] at h₂
    refine Wp.bind (h₂.setPipe ?_ true false) ?_
    · simp only [View.setFile, Function.update_of_ne hne.symm, Function.update_self]
      exact h.files.unused f0 hf0
    intro _ s₃ h₃
    refine Wp.bind (h₃.setPipe ?_ false true) ?_
    · simp only [View.setFile, Function.update_of_ne hne, Function.update_self]
      exact h.files.unused f1 hnew
    intro _ s₄ h₄
    refine ⟨_, ?_, .inr ⟨f0, f1, rfl, h₄⟩⟩
    rfl
  · rw [Multiset.cons_swap] at h₂
    refine Wp.bind (h₂.closeNew fun _ => rfl) ?_
    intro _ s₃ hpost
    obtain ⟨v₃, h₃, hproc₃⟩ := hpost
    refine Wp.bind (h₃.closeNew fun _ => rfl) ?_
    intro _ s₄ hpost
    obtain ⟨v₄, h₄, hproc₄⟩ := hpost
    exact ⟨v₄, hproc₄.trans hproc₃, .inl ⟨rfl, h₄⟩⟩

theorem Mid.closePair {f0 f1 : FRef} (h : Mid Z T (f1 ::ₘ f0 ::ₘ D) 0 0 ∅ 0 v s) (hD : v.fds = D) :
    Wp (do
      Fs.fileclose f0
      Fs.fileclose f1
      return (-1 : Int)) s (fun _ s' => Ends Z T s') (Halt B) := by
  rw [Multiset.cons_swap] at h
  refine Wp.bind h.closeFd ?_
  intro _ s₁ hpost
  obtain ⟨v₁, h₁, hproc₁⟩ := hpost
  refine Wp.bind h₁.closeFd ?_
  intro _ s₂ hpost
  obtain ⟨v₂, h₂, hproc₂⟩ := hpost
  exact h₂.ends ((fds_of_proc (hproc₂.trans hproc₁)).trans hD)

theorem sysPipe_rest (h : Rest Z v s) (ok : Bool) : Wp (sysPipe p ok) s (fun _ s' => Ends Z v.node s') (Halt B) := by
  unfold sysPipe
  refine Wp.bind (Mid.pipealloc h ok) ?_
  intro r s₁ hpost
  obtain ⟨v₁, hproc₁, hr⟩ := hpost
  have hfds₁ : v₁.fds = v.fds := fds_of_proc hproc₁
  rcases hr with ⟨rfl, h₁⟩ | ⟨rf, wf, rfl, h₁⟩
  · exact h₁.ends hfds₁
  · dsimp only
    refine Wp.bind (h₁.fdalloc rf) ?_
    intro r s₂ hpost
    rcases hpost with ⟨rfl, -, rfl⟩ | ⟨fd0, rfl, -, hfd0, h₂⟩
    · exact h₁.closePair hfds₁
    have hfds₂ : (v₁.setFd p fd0 (some rf)).fds = rf ::ₘ v.fds := by rw [fds_newFd hfd0, hfds₁]
    refine Wp.bind (h₂.fdalloc wf) ?_
    intro r s₃ hpost
    rcases hpost with ⟨rfl, -, rfl⟩ | ⟨fd1, rfl, -, hfd1, h₃⟩
    · refine Wp.bind (setProc_spec h₂.st.toAt p _) ?_
      intro _ s₄ hat
      have hat : At ((v₁.setFd p fd0 (some rf)).setFd p fd0 none) s₄ := hat
      have h₄ := h₂.setFd hat
      refine h₄.closePair ?_
      have hset : ((v₁.setFd p fd0 (some rf)).proc p).ofile fd0 = some rf := by simp [View.setFd, View.setProc]
      exact (Multiset.cons_inj_right rf).mp ((fds_closeFd hset).symm.trans hfds₂)
    · exact h₃.ends (by rw [fds_newFd hfd1, hfds₂])

end mid

end Xv6Mlfq.Fs
