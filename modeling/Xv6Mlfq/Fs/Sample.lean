import Xv6Mlfq.Fs.Boot
import Xv6Mlfq.Fs.Integrity

/-!
# Runs by evaluation

A run of system calls from a disk that mkfs has made, checked by evaluating it: `checkRun`. `sample_run` is one run with
the calls that the results about reachable states are tried on.
-/

namespace Xv6Mlfq.Fs

open Lib

instance (s : FS) (a : Act) : Decidable (Ints s a) := inferInstanceAs (Decidable (_ = _))

instance (v : View) (p : PIdx) : (c : Call) → Decidable (c.Spares v p)
  | .unlink path => inferInstanceAs (Decidable
    (∀ x ∈ v.resolve p path true, ∀ y ∈ lookup x.2 (entries (v.node x.1).contents),
      (v.node y.2).type = .dir → ¬ v.Busy y.2))
  | .open _ _ => .isTrue trivial
  | .close _ => .isTrue trivial
  | .dup _ => .isTrue trivial
  | .read _ _ _ => .isTrue trivial
  | .write _ _ _ => .isTrue trivial
  | .lseek _ _ _ => .isTrue trivial
  | .fstat _ => .isTrue trivial
  | .link _ _ => .isTrue trivial
  | .mkdir _ => .isTrue trivial
  | .mknod _ _ _ => .isTrue trivial
  | .chdir _ => .isTrue trivial
  | .exec _ _ _ => .isTrue trivial
  | .pipe _ => .isTrue trivial
  | .fork _ => .isTrue trivial
  | .exit => .isTrue trivial

instance (s : FS) (a : Act) : Decidable (Tame s a) := inferInstanceAs (Decidable (_ ∧ _))

/-- From the disk that mkfs makes, as `f` changes it, the calls return one after the other, and `P` holds of the run in the
end. -/
def checkRun (files : List Mkfs.HostFile) (f : Image → Image) (calls : List Act) (P : List Event → FS → Bool) : Bool :=
  match Mkfs.mkfs files with
  | .ok im =>
    match exec step [] (start (f im.disk)) calls with
    | .ok r => P r.1 r.2
    | .error _ => false
  | .error _ => false

theorem run_of_check {files : List Mkfs.HostFile} {f : Image → Image} {calls : List Act} {P : List Event → FS → Bool}
    {im : Mkfs.Image} (h : checkRun files f calls P = true) (him : Mkfs.mkfs files = .ok im) :
    ∃ h s, FRun (f im.disk) h s ∧ P h s = true := by
  unfold checkRun at h
  rw [him] at h
  simp only at h
  refine exists_run_of_exec step (start (f im.disk)) (P := fun h s => P h s = true) calls ?_
  cases hexec : exec step [] (start (f im.disk)) calls with
  | ok r =>
    rw [hexec] at h
    exact h
  | error e =>
    rw [hexec] at h
    cases h

theorem sound_run {files : List Mkfs.HostFile} {calls : List Act} {P : List Event → FS → Prop} [∀ h s, Decidable (P h s)]
    (hfit : Mkfs.Fits files) (hname : Mkfs.Differ files) (h32 : (files.length + 2) % 32 ≠ 0)
    (hcheck : checkRun files id calls (fun h s => decide (P h s)) = true) :
    ∃ im h s, Mkfs.mkfs files = .ok im ∧ im.disk.Sound ∧ FRun im.disk h s ∧ P h s := by
  obtain ⟨im, hrooted, hrun⟩ := Mkfs.mkfs_rooted hfit
  obtain ⟨h, s, hr, hend⟩ := run_of_check hcheck hrun
  exact ⟨im.finish, h, s, hrun, hrooted.sound_disk hfit hname h32, hr, of_decide_eq_true hend⟩

theorem fits_nil : Mkfs.Fits [] := ⟨by decide, by decide, by decide, by decide⟩

/-! ## A run -/

def sampleFiles : List Mkfs.HostFile := [⟨[102], [1, 2, 3]⟩]

theorem fits_sample : Mkfs.Fits sampleFiles := ⟨by decide, by decide, by decide, by decide⟩

/-- Init makes a directory `a`, opens `f`, writes to it and seeks, links it to `a/c`, removes `f`, makes `a` its current
directory, and has a child that exits. -/
def sampleCalls : List Act :=
  [(0, .mkdir [97]), (0, .open [102] 2), (0, .write 0 [9, 9] 0), (0, .lseek 0 1 0), (0, .link [102] [97, 47, 99]),
    (0, .unlink [102]), (0, .chdir [97]), (0, .fork 1), (1, .exit)]

/-- What is checked of the run: descriptor 0 is open on the file of three bytes, `link("c", ".")` waits for itself, and
the next `mkdir` and `write` return. -/
structure SampleEnd (h : List Event) (s : FS) : Prop where
  tame : ∀ x ∈ h, Tame x.1 x.2
  fd : (s.proc 0).ofile 0 = some 0
  inode : (s.ftable 0).type = .inode
  off : (s.ftable 0).off = 1
  file : (s.inode (s.icache (s.ftable 0).ip).inum).type = .file
  size : (s.inode (s.icache (s.ftable 0).ip).inum).size = 3
  live : s.vol.Live (s.icache (s.ftable 0).ip).inum
  nlink : (s.inode (s.icache (s.ftable 0).ip).inum).nlink = 1
  link : Sat (step s (0, .link [99] [46])) (fun _ => False) fun e => e = .deadlock
  mkdir : Sat (syscall 0 (.mkdir [98]) s) (fun x => x.1 = 0) fun _ => False
  write : Sat (syscall 0 (.write 0 [7, 7] 0) s) (fun x => x.1 = 2) fun _ => False

instance (h : List Event) (s : FS) : Decidable (SampleEnd h s) :=
  decidable_of_iff ((∀ x ∈ h, Tame x.1 x.2) ∧ (s.proc 0).ofile 0 = some 0 ∧ (s.ftable 0).type = .inode ∧
    (s.ftable 0).off = 1 ∧ (s.inode (s.icache (s.ftable 0).ip).inum).type = .file ∧
    (s.inode (s.icache (s.ftable 0).ip).inum).size = 3 ∧ s.vol.Live (s.icache (s.ftable 0).ip).inum ∧
    (s.inode (s.icache (s.ftable 0).ip).inum).nlink = 1 ∧
    Sat (step s (0, .link [99] [46])) (fun _ => False) (fun e => e = .deadlock) ∧
    Sat (syscall 0 (.mkdir [98]) s) (fun x => x.1 = 0) (fun _ => False) ∧
    Sat (syscall 0 (.write 0 [7, 7] 0) s) (fun x => x.1 = 2) (fun _ => False)) (by
      constructor
      · intro h
        obtain ⟨htame, hfd, hinode, hoff, hfile, hsize, hlive, hnlink, hlink, hmkdir, hwrite⟩ := h
        exact ⟨htame, hfd, hinode, hoff, hfile, hsize, hlive, hnlink, hlink, hmkdir, hwrite⟩
      · intro h
        exact ⟨h.tame, h.fd, h.inode, h.off, h.file, h.size, h.live, h.nlink, h.link, h.mkdir, h.write⟩)

set_option maxRecDepth 100000 in
theorem sample_check : checkRun sampleFiles id sampleCalls (fun h s => decide (SampleEnd h s)) = true := by
  decide +kernel

theorem sample_run : ∃ im h s, Mkfs.mkfs sampleFiles = .ok im ∧ im.disk.Sound ∧ FRun im.disk h s ∧ SampleEnd h s := by
  exact sound_run fits_sample (by decide) (by decide) sample_check

theorem ints_of_tame {h : List Event} (hC : Always Tame h) : Always Ints h := fun x hx => (hC x hx).1

theorem node_not_dev {s : FS} {i : Nat} (h : (s.inode i).type ≠ .dev) : (s.vol.node i).type ≠ .dev := by
  unfold Vol.node
  split_ifs
  · exact h
  · decide

namespace SampleEnd

variable {h : List Event} {s : FS}

theorem ints (he : SampleEnd h s) : Always Ints h := ints_of_tame he.tame

theorem not_dev (he : SampleEnd h s) : (s.vol.node (s.icache (s.ftable 0).ip).inum).type ≠ .dev := by
  apply node_not_dev
  rw [he.file]
  decide

end SampleEnd

end Xv6Mlfq.Fs
