import Xv6Mlfq.Fs.Create

/-!
# chdir, exec, fork and exit

The system calls that move references of processes to inodes and to open files. None of them changes the tree; `exit` and
`chdir` may give up the last reference to an inode without links, which is freed then.
-/

namespace Xv6Mlfq.Fs

open Lib

section procs

variable {B : Stop → Prop} {Z : Origin} {T : Nat → Node} {D N : Multiset FRef} {H : Multiset IRef} {L : Finset IRef}
  {n : Nat} {v v' : View} {s s' : FS} {k : IRef} {f : FRef} {p : PIdx} {o : Option IRef}

/-- The reference of a current directory, if there is one. -/
def cwdRef (o : Option IRef) : Multiset IRef := o.elim 0 fun k => {k}

theorem Mid.moveCwd (h : Mid Z T D N (cwdRef o + H) ∅ (n + 1) v s) (hkn : ∀ k, o = some k → v.Known k)
    (hp : (v.proc p).cwd = none → B .notEnabled) (r : Int) :
    Wp (do
      iputCwd p
      Fs.endOp
      Fs.setProc p fun x => { x with cwd := o }
      return r) s (fun _ s' => ∃ v', Mid Z T D N H ∅ n v' s' ∧ v'.fds = v.fds) (Halt B) := by
  unfold iputCwd
  simp only [wp_bind, wp_look, h.proc]
  cases hc : (v.proc p).cwd with
  | none => exact .fault (hp hc)
  | some c =>
    -- what is left once the old reference is gone: the references with the new current directory
    have hrefs : cwdRef o + H + v.refs = c ::ₘ (H + (v.setProc p fun x => { x with cwd := o }).refs) := by
      have hset := refs_setProc v p fun x => { x with cwd := o }
      change _ + ProcFiles.refs (v.proc p) = v.refs + cwdRef o at hset
      have hold : (v.proc p).refs = {c} := by
        unfold ProcFiles.refs
        rw [hc]
        rfl
      rw [hold] at hset
      calc cwdRef o + H + v.refs = H + (v.refs + cwdRef o) := by abel
        _ = H + ((v.setProc p fun x => { x with cwd := o }).refs + {c}) := by rw [hset]
        _ = c ::ₘ (H + (v.setProc p fun x => { x with cwd := o }).refs) := by rw [← Multiset.singleton_add]; abel
    have hst := h.st
    have ht := h.tidy
    rw [hrefs] at hst ht
    refine (iput_st hst fun hk => absurd hk (Finset.notMem_empty c)).imp ?_
    intro _ s₁ hpost
    obtain ⟨-, hst₁, hkeep⟩ := hpost
    have ht₁ := ht.put hst (h.cwd p c hc)
    refine (endOp_spec hst₁.toAt).imp ?_
    intro _ s₂ hat₂
    refine (setProc_spec hat₂ p _).imp ?_
    intro _ s₃ hat₃
    obtain ⟨R, hR⟩ : ∃ R, H + (v.setProc p fun x => { x with cwd := o }).refs = R := ⟨_, rfl⟩
    rw [hR] at hst₁ hkeep ht₁
    have hmem : ∀ q k, ((v.setProc p fun x => { x with cwd := o }).proc q).cwd = some k → k ∈ R := by
      intro q k hk
      rw [← hR]
      exact Multiset.mem_add.mpr (.inr (mem_refs_cwd hk))
    obtain ⟨w, hw⟩ : ∃ w, ((v.put c).endOp.setProc p fun x => { x with cwd := o }) = w := ⟨_, rfl⟩
    have hfile : w.ftable = v.ftable := by
      rw [← hw]
      exact hkeep.ftable
    have hproc : w.proc = (v.setProc p fun x => { x with cwd := o }).proc := by
      rw [← hw]
      show Function.update (v.put c).proc p { (v.put c).proc p with cwd := o } = _
      rw [hkeep.proc]
      rfl
    have hrefs' : H + w.refs = R := by
      rw [← hR, refs_congr (v := v.setProc p fun x => { x with cwd := o }) hfile hproc]
    have hslot : w.slot = (v.put c).slot ∧ w.node = (v.put c).node ∧ w.sb = (v.put c).sb := by
      rw [← hw]
      exact ⟨rfl, rfl, rfl⟩
    rw [hw] at hat₃
    refine ⟨w, ⟨?_, hslot.2.1 ▸ h.tree.keep hkeep, ?_, ?_, ?_, ?_, hslot.2.2.trans (hkeep.sb.trans h.sb)⟩, ?_⟩
    · rw [hrefs']
      exact ⟨hat₃, hst₁.toHeld.congr hslot.2.2 hslot.1 hslot.2.1⟩
    · have hfiles := hkeep.toStay.files
        (fun f hf => hR ▸ Multiset.mem_add.mpr (.inr (mem_refs_file (v := v.setProc p _) hf))) h.files
      rw [← hw]
      exact ⟨hfiles.ref, hfiles.unused, hfiles.used, hfiles.inode⟩
    · rw [hrefs', ← hw]
      exact ht₁
    · intro q k hk
      rw [hproc] at hk
      have hknown := hkeep.known k (hmem q k hk) ?_
      · rw [← hw]
        exact hknown
      · simp only [View.setProc, Function.update_apply] at hk
        split_ifs at hk
        · exact hkn k hk
        · exact h.cwd q k hk
    · rw [← hw]
      show (v.put c).outstanding - 1 = (n : Int)
      rw [hkeep.ops, h.ops]
      omega
    · rw [fds_of_proc hproc, fds_setProc_same rfl]

theorem sysChdir_rest (h : Rest Z v s) (hB : Reach B p v) (path : List UInt8) :
    Wp (sysChdir p path) s (fun _ s' => Ends Z v.node s') (Halt B) := by
  unfold sysChdir
  refine Wp.bind (Mid.beginOp h) ?_
  intro _ s₁ h₁
  refine Wp.bind (h₁.namei hB.beginOp path) ?_
  intro r s₂ hpost
  obtain ⟨v₂, hkeep₂, hr⟩ := hpost
  have hfds₂ : v₂.fds = v.fds := hkeep₂.fds_eq
  rcases hr with ⟨rfl, h₂, -⟩ | ⟨ip, nm, rfl, h₂, hlock, -⟩
  · exact (h₂.endEnds hfds₂ (-1)).imp fun _ _ hpost => hpost.2
  have hkL : ip ∈ insert ip (∅ : Finset IRef) := Finset.mem_insert_self _ _
  refine Wp.bind (h₂.ilock (by simp) hlock) ?_
  intro _ s₃ hpost
  obtain ⟨-, -, h₃, hkeep₃⟩ := hpost
  simp only [Fs.inode, wp_bind, wp_look]
  refine Wp.ite (fun _ => ?_) fun _ => ?_
  · refine Wp.bind (h₃.iunlockput hkL) ?_
    intro _ s₄ hpost
    obtain ⟨h₄, hkeep₄⟩ := hpost
    rw [erase_insert_empty] at h₄
    exact (h₄.endEnds ((hkeep₄.fds_eq.trans hkeep₃.fds_eq).trans hfds₂) (-1)).imp fun _ _ hpost => hpost.2
  · refine Wp.bind (h₃.iunlock hkL) ?_
    intro _ s₄ hpost
    obtain ⟨h₄, hkeep₄⟩ := hpost
    rw [erase_insert_empty] at h₄
    have hsingle : ip ::ₘ 0 = cwdRef (some ip) + 0 := rfl
    rw [hsingle] at h₄
    refine (h₄.moveCwd ?_ (fun hc => hB.cwd ?_) 0).imp ?_
    · rintro k ⟨⟩
      exact .inl (hkeep₄.valid ip (by simp) (h₃.st.locked ip hkL).2).1
    · rw [hkeep₄.proc, hkeep₃.proc, hkeep₂.proc] at hc
      exact hc
    · intro _ s₅ hpost
      obtain ⟨v₅, h₅, hfds₅⟩ := hpost
      exact h₅.ends (((hfds₅.trans hkeep₄.fds_eq).trans hkeep₃.fds_eq).trans hfds₂)

theorem sysExec_rest (h : Rest Z v s) (hB : Reach B p v) (path : List UInt8) (reads : List (Nat × Nat))
    (dev : Option (List UInt8)) : Wp (sysExec p path reads dev) s (fun _ s' => Ends Z v.node s') (Halt B) := by
  unfold sysExec
  refine Wp.bind (Mid.beginOp h) ?_
  intro _ s₁ h₁
  refine Wp.bind (h₁.namei hB.beginOp path) ?_
  intro r s₂ hpost
  obtain ⟨v₂, hkeep₂, hr⟩ := hpost
  have hfds₂ : v₂.fds = v.fds := hkeep₂.fds_eq
  rcases hr with ⟨rfl, h₂, -⟩ | ⟨ip, nm, rfl, h₂, hlock, -⟩
  · exact (h₂.endEnds hfds₂ (-1)).imp fun _ _ hpost => hpost.2
  have hkL : ip ∈ insert ip (∅ : Finset IRef) := Finset.mem_insert_self _ _
  refine Wp.bind (h₂.ilock (by simp) hlock) ?_
  intro _ s₃ hpost
  obtain ⟨-, -, h₃, hkeep₃⟩ := hpost
  -- reading the program changes nothing
  refine Wp.bind (Wp.each (fun _ s' => s' = s₃) reads ?_ rfl) ?_
  · intro pre r post s' _ hs'
    rw [hs']
    refine Wp.bind (readi_st h₃.st hkL r.1 r.2 dev) ?_
    intro _ s₄ hpost
    exact hpost.1
  intro _ s₄ hs₄
  rw [hs₄]
  refine Wp.bind (h₃.iunlockput hkL) ?_
  intro _ s₅ hpost
  obtain ⟨h₅, hkeep₅⟩ := hpost
  rw [erase_insert_empty] at h₅
  exact (h₅.endEnds ((hkeep₅.fds_eq.trans hkeep₃.fds_eq).trans hfds₂) 0).imp fun _ _ hpost => hpost.2

theorem Mid.idup (h : Mid Z T D N H L n v s) (hk : k ∈ H + v.refs) {E : Stop → Prop} :
    Wp (Fs.idup k) s (fun k' s' => k' = k ∧ Mid Z T D N (k ::ₘ H) L n (v.dup k) s' ∧ Keep (H + v.refs) v (v.dup k)) E := by
  refine (idup_st h.st hk).imp ?_
  intro k' s' hpost
  obtain ⟨rfl, hst, hkeep⟩ := hpost
  rw [← Multiset.cons_add] at hst
  refine ⟨rfl, h.keep hkeep hst ?_, hkeep⟩
  rw [Multiset.cons_add]
  exact (h.tidy.keep hkeep).mono (Multiset.le_cons_self _ _)

theorem forkFile_rest {np : PIdx} {fd : Fin NOFILE} (h : Mid Z T v.fds 0 0 ∅ 0 v s) (hfree : (v.proc np).ofile fd = none)
    {E : Stop → Prop} :
    Wp (forkFile p np fd) s (fun _ s' => ∃ v', Mid Z T v'.fds 0 0 ∅ 0 v' s' ∧ (∀ q, (v'.proc q).cwd = (v.proc q).cwd) ∧
      ∀ j, j ≠ fd → (v'.proc np).ofile j = (v.proc np).ofile j) E := by
  unfold forkFile
  simp only [wp_bind, wp_look, Mid.proc h]
  cases hfd : (v.proc p).ofile fd with
  | none => exact ⟨v, h, fun _ => rfl, fun _ _ => rfl⟩
  | some f =>
    dsimp only
    refine Wp.bind (Mid.filedup h (mem_fds hfd)) ?_
    intro _ s₁ h₁
    refine (setProc_spec h₁.st.toAt np _).imp ?_
    intro _ s₂ hat
    have h₂ := h₁.setFd hat
    have hfds : (View.setFd (v.setFile f fun x => { x with ref := x.ref + 1 }) np fd (some f)).fds = f ::ₘ v.fds :=
      fds_newFd hfree f
    rw [← hfds] at h₂
    refine ⟨_, h₂, fun q => ?_, fun j hj => ?_⟩
    · simp only [View.setFd, View.setProc, View.setFile, Function.update_apply]
      split_ifs with hq
      · rw [hq]
      · rfl
    · simp only [View.setFd, View.setProc, Function.update_self, Function.update_of_ne hj]
      rfl

def View.InUse (v : View) (p : PIdx) : Prop := (v.proc p).cwd ≠ none ∨ ∃ fd, (v.proc p).ofile fd ≠ none

theorem sysFork_rest {np : PIdx} (h : Rest Z v s) (hp : (v.proc p).cwd = none → B .notEnabled)
    (hnp : v.InUse np → B .notEnabled) : Wp (sysFork p np) s (fun _ s' => Ends Z v.node s') (Halt B) := by
  unfold sysFork
  simp only [wp_bind, wp_look, Mid.proc h]
  refine Wp.ite (fun huse => .fault (hnp huse)) fun hfree => ?_
  rw [not_or, not_not, not_exists] at hfree
  -- the descriptors that have not been visited are free in the child
  refine Wp.bind (Wp.each (fun pre s' => ∃ v', Mid Z v.node v'.fds 0 0 ∅ 0 v' s' ∧
    (∀ q, (v'.proc q).cwd = (v.proc q).cwd) ∧
    ∀ fd, fd ∉ pre → (v'.proc np).ofile fd = none) (List.finRange NOFILE) ?_ ?_) ?_
  · intro pre fd post s₁ hl hI
    obtain ⟨v₁, h₁, hcwd, hnone⟩ := hI
    have hfd : fd ∉ pre := by
      have hnd := List.nodup_finRange NOFILE
      rw [hl] at hnd
      exact fun hmem => (List.nodup_append.mp hnd).2.2 fd hmem fd List.mem_cons_self rfl
    refine (forkFile_rest h₁ (hnone fd hfd)).imp ?_
    intro _ s₂ hpost
    obtain ⟨v₂, h₂, hcwd₂, hother⟩ := hpost
    refine ⟨v₂, h₂, fun q => (hcwd₂ q).trans (hcwd q), fun j hj => ?_⟩
    rw [List.mem_append, List.mem_singleton, not_or] at hj
    rw [hother j hj.2]
    exact hnone j hj.1
  · exact ⟨v, h, fun _ => rfl, fun fd _ => not_not.mp (hfree.2 fd)⟩
  intro _ s₁ hI
  obtain ⟨v₁, h₁, hcwd, -⟩ := hI
  simp only [wp_bind, wp_look, Mid.proc h₁]
  cases hc : (v₁.proc p).cwd with
  | none => exact .fault (hp ((hcwd p).symm.trans hc))
  | some c =>
    dsimp only
    refine Wp.bind (Mid.idup h₁ (Multiset.mem_add.mpr (.inr (mem_refs_cwd hc)))) ?_
    intro k s₂ hpost
    obtain ⟨rfl, h₂, hkeep₂⟩ := hpost
    refine Wp.bind (setProc_spec h₂.st.toAt np _) ?_
    intro _ s₃ hat
    have h₃ : Mid Z v.node v₁.fds 0 0 ∅ 0 ((v₁.dup k).setProc np fun x => { x with cwd := some k }) s₃ := by
      refine h₂.setProc hat ?_ ?_
      · have hset := refs_setProc (v₁.dup k) np fun x => { x with cwd := some k }
        have hold : ((v₁.dup k).proc np).refs = 0 := by
          unfold ProcFiles.refs
          rw [show ((v₁.dup k).proc np).cwd = none from (hcwd np).trans hfree.1]
          rfl
        have hnew : ({ (v₁.dup k).proc np with cwd := some k } : ProcFiles).refs = {k} := rfl
        rw [hold, hnew, add_zero] at hset
        rw [hset, ← Multiset.singleton_add]
        abel
      · rintro k' ⟨⟩
        exact hkeep₂.known k (Multiset.mem_add.mpr (.inr (mem_refs_cwd hc))) (h₁.cwd p k hc)
    refine h₃.ends ?_
    rw [fds_setProc_same rfl]
    exact hkeep₂.fds_eq

theorem sysExit_rest (h : Rest Z v s) (hp : (v.proc p).cwd = none → B .notEnabled) :
    Wp (sysExit p) s (fun _ s' => Ends Z v.node s') (Halt B) := by
  unfold sysExit
  refine Wp.ite (fun _ => .init) fun _ => ?_
  have hstart : Mid Z v.node v.fds 0 0 ∅ 0 v s := h
  refine Wp.bind (Wp.each (fun _ s' => ∃ v', Mid Z v.node v'.fds 0 0 ∅ 0 v' s' ∧ (v'.proc p).cwd = (v.proc p).cwd)
    (List.finRange NOFILE) ?_ ⟨v, hstart, rfl⟩) ?_
  · intro pre fd post s₁ _ hI
    obtain ⟨v₁, h₁, hcwd⟩ := hI
    unfold exitFile
    simp only [wp_bind, wp_look, Mid.proc h₁]
    cases hfd : (v₁.proc p).ofile fd with
    | none => exact ⟨v₁, h₁, hcwd⟩
    | some f =>
      dsimp only
      have hclose : Mid Z v.node (f ::ₘ (v₁.setFd p fd none).fds) 0 0 ∅ 0 v₁ s₁ := by
        rw [← fds_closeFd hfd]
        exact h₁
      refine Wp.bind hclose.closeFd ?_
      intro _ s₂ hpost
      obtain ⟨v₂, h₂, hproc⟩ := hpost
      refine (setProc_spec h₂.st.toAt p _).imp ?_
      intro _ s₃ hat
      have hat : At (v₂.setFd p fd none) s₃ := hat
      have h₃ := h₂.setFd hat
      have hfds : (v₂.setFd p fd none).fds = (v₁.setFd p fd none).fds := by
        refine fds_of_proc ?_
        show Function.update v₂.proc p _ = Function.update v₁.proc p _
        rw [hproc]
      rw [← hfds] at h₃
      refine ⟨_, h₃, ?_⟩
      simp only [View.setFd, View.setProc, Function.update_self]
      rw [hproc]
      exact hcwd
  intro _ s₁ hI
  obtain ⟨v₁, h₁, hcwd⟩ := hI
  refine Wp.bind (Mid.beginOp h₁) ?_
  intro _ s₂ h₂
  refine (Mid.moveCwd (o := none) (H := 0) h₂ ?_ (fun hc => hp (hcwd.symm.trans hc)) 0).imp ?_
  · rintro k ⟨⟩
  · intro _ s₃ hpost
    obtain ⟨v₃, h₃, hfds⟩ := hpost
    exact h₃.ends hfds

end procs

end Xv6Mlfq.Fs
