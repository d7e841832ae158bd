import Xv6Mlfq.Fs.Procs

/-!
# What holds between two system calls

An image is `Ok` if every block belongs to one file and the bitmap says which blocks are in use, its directories hold
whole entries with different names, and the root directory has a link. In every state that is reached from such an
image the blocks are still accounted for, the reference counts are exact, no lock is held and no transaction is open,
and a system call that does not return stops for one of the reasons in `Halt Fault`. If no inode of the image has lost
its links, every system call has on the tree the effect that `Effect` says, and an inode is freed exactly when it has
neither links nor references.
-/

namespace Xv6Mlfq.Fs

open Lib

/-! ## One system call -/

def Call.ints : Call → Bool
  | .lseek _ offset _ => decide (-2 ^ 31 ≤ offset ∧ offset < 2 ^ 31)
  | _ => true

/-- The arguments of the call are values of their types. -/
def Ints (_ : FS) (a : Act) : Prop := a.2.ints = true

/-- The last element of the path names the directory that it is in. -/
def NamesItself (v : View) (p : PIdx) : Call → Prop
  | .link _ new => ∃ d name j, v.resolve p new true = some (d, name) ∧
      lookup name (entries (v.node d).contents) = some (j, d)
  | .unlink path => ∃ d name j, v.resolve p path true = some (d, name) ∧ namecmp name dot ≠ 0 ∧ namecmp name dotdot ≠ 0 ∧
      lookup name (entries (v.node d).contents) = some (j, d)
  | _ => False

def ForksInUse (v : View) : Call → Prop
  | .fork np => v.InUse np
  | _ => False

/-- The tree after a system call of process `p`, with its return value. -/
def Effect (v : View) (p : PIdx) : Call → Int → (Nat → Node) → Prop
  | .link old new, r, T => (r = 0 ∧ v.link p old new = some T) ∨ (r = -1 ∧ T = v.node ∧ v.link p old new = none)
  | .unlink path, r, T => (r = 0 ∧ v.unlink p path = some T) ∨ (r = -1 ∧ T = v.node ∧ v.unlink p path = none)
  | .mkdir path, r, T => ∃ o, (r = if o = none then -1 else 0) ∧ v.Create p path .dir 0 0 o T
  | .mknod path major minor, r, T => ∃ o, (r = if o = none then -1 else 0) ∧ v.Create p path .dev major minor o T
  | .open path omode, r, T => v.Open p path omode r T
  | .write fd src dev, r, T => v.write p fd src dev = (r, T)
  | _, _, T => T = v.node

section step

variable {B : Stop → Prop} {Z : Origin} {v v' : View} {s s' : FS} {p : PIdx} {T : Nat → Node}

/-- The calls that leave open files and current directories alone. -/
def Call.onTree : Call → Bool
  | .link _ _ => true
  | .unlink _ => true
  | .mkdir _ => true
  | .mknod _ _ _ => true
  | _ => false

/-- A system call has led from `v` to `s'`, with the return value `r`. -/
structure Step (Z : Origin) (v : View) (p : PIdx) (c : Call) (r : Int) (T : Nat → Node) (v' : View) (s' : FS) : Prop where
  rest : Rest Z v' s'
  freed : Freed T v'.node
  left : c.onTree = true → Left v v'
  effect : Z.lost = ∅ → (∀ i, IsShort (v.node i).nlink) → Effect v p c r T

theorem syscall_spec (h : Rest Z v s) {c : Call} (hc : c.ints = true) (hB : Sound B p v)
    (hself : (Z.lost = ∅ → NamesItself v p c) → B .deadlock) (hfork : ForksInUse v c → B .notEnabled) :
    Wp (syscall p c) s (fun r s' => ∃ T v', Step Z v p c r T v' s') (Halt B) := by
  -- a call that does not change the tree
  have hsame : ∀ {m : M Int}, c.onTree = false → (∀ r, Effect v p c r v.node) →
    Wp m s (fun _ s' => Ends Z v.node s') (Halt B) →
      Wp m s (fun r s' => ∃ T v', Step Z v p c r T v' s') (Halt B) := by
    intro m hno heff hm
    refine hm.imp ?_
    intro r s' hends
    obtain ⟨v', hrest, hfreed⟩ := hends
    refine ⟨_, v', hrest, hfreed, fun hyes => ?_, fun _ _ => heff r⟩
    rw [hno] at hyes
    cases hyes
  -- `mkdir` and `mknod`
  have hmade : ∀ {m : M Int} {P : Option Nat → (Nat → Node) → Prop},
      (∀ r T o, (r = if o = none then -1 else 0) → P o T → Effect v p c r T) →
      Wp m s (fun r s' => ∃ T o, Done Z v T s' ∧ (r = if o = none then -1 else 0) ∧ (Z.lost = ∅ → P o T)) (Halt B) →
      Wp m s (fun r s' => ∃ T v', Step Z v p c r T v' s') (Halt B) := by
    intro m P heff hm
    refine hm.imp ?_
    intro r s' hpost
    obtain ⟨T, o, ⟨v', hrest, hfreed, hleft⟩, hr, hP⟩ := hpost
    exact ⟨T, v', hrest, hfreed, fun _ => hleft, fun hZ _ => heff r T o hr (hP hZ)⟩
  cases c with
  | «open» path omode =>
    refine (sysOpen_rest h hB.reach path omode).imp ?_
    intro r s' hpost
    obtain ⟨T, ⟨v', hrest, hfreed⟩, hT⟩ := hpost
    exact ⟨T, v', hrest, hfreed, (fun hyes => Bool.noConfusion hyes), fun hZ _ => hT hZ⟩
  | close fd => exact hsame rfl (fun _ => rfl) (sysClose_rest h fd)
  | dup fd => exact hsame rfl (fun _ => rfl) (sysDup_rest h fd)
  | read fd n dev => exact hsame rfl (fun _ => rfl) (Wp.bind (sysRead_rest h fd n dev) fun _ _ h' => h')
  | write fd src dev =>
    refine (sysWrite_rest h fd src dev).imp ?_
    intro r s' hpost
    obtain ⟨rfl, v', hrest, hfreed⟩ := hpost
    exact ⟨_, v', hrest, hfreed, (fun hyes => Bool.noConfusion hyes), fun _ _ => rfl⟩
  | lseek fd offset whence => exact hsame rfl (fun _ => rfl) (sysLseek_rest h fd (of_decide_eq_true hc).2 whence)
  | fstat fd => exact hsame rfl (fun _ => rfl) (sysFstat_rest h fd)
  | link old new =>
    refine (sysLink_rest h hB old new fun d name j hres hfound => hself fun hZ => ⟨d, name, j, hres hZ, hfound⟩).imp ?_
    intro r s' hpost
    obtain ⟨T, ⟨v', hrest, hfreed, hleft⟩, hT⟩ := hpost
    exact ⟨T, v', hrest, hfreed, fun _ => hleft, hT⟩
  | unlink path =>
    refine (sysUnlink_rest h hB path
      fun d name j hres hdot hdotdot hfound => hself fun hZ => ⟨d, name, j, hres hZ, hdot, hdotdot, hfound⟩).imp ?_
    intro r s' hpost
    obtain ⟨T, ⟨v', hrest, hfreed, hleft⟩, hT⟩ := hpost
    exact ⟨T, v', hrest, hfreed, fun _ => hleft, fun hZ _ => hT hZ⟩
  | mkdir path => exact hmade (fun r T o hr hP => ⟨o, hr, hP⟩) (sysMkdir_rest h hB.reach path)
  | mknod path major minor => exact hmade (fun r T o hr hP => ⟨o, hr, hP⟩) (sysMknod_rest h hB.reach path major minor)
  | chdir path => exact hsame rfl (fun _ => rfl) (sysChdir_rest h hB.reach path)
  | exec path reads dev => exact hsame rfl (fun _ => rfl) (sysExec_rest h hB.reach path reads dev)
  | pipe ok => exact hsame rfl (fun _ => rfl) (sysPipe_rest h ok)
  | fork np => exact hsame rfl (fun _ => rfl) (sysFork_rest h hB.reach.cwd hfork)
  | exit => exact hsame rfl (fun _ => rfl) (sysExit_rest h hB.reach.cwd)

/-- An open file or a current directory refers to inode `i`. -/
def View.Busy (v : View) (i : Nat) : Prop :=
  (∃ f, (v.ftable f).type = .inode ∧ (v.slot (v.ftable f).ip).inum = i) ∨
    ∃ p k, (v.proc p).cwd = some k ∧ (v.slot k).inum = i

instance (v : View) (i : Nat) : Decidable (v.Busy i) := inferInstanceAs (Decidable (_ ∨ _))

theorem mem_refs {k : IRef} : k ∈ v.refs ↔
    (∃ f, (v.ftable f).type = .inode ∧ (v.ftable f).ip = k) ∨ ∃ p, (v.proc p).cwd = some k := by
  constructor
  · intro hk
    rcases Multiset.mem_add.mp hk with hk | hk
    · obtain ⟨f, -, hf⟩ := Multiset.mem_sum.mp hk
      unfold File.refs at hf
      split_ifs at hf with ht
      · exact .inl ⟨f, ht, (Multiset.mem_singleton.mp hf).symm⟩
      · exact absurd hf (Multiset.notMem_zero _)
    · obtain ⟨q, -, hq⟩ := Multiset.mem_sum.mp hk
      unfold ProcFiles.refs at hq
      cases hc : (v.proc q).cwd with
      | none =>
        rw [hc] at hq
        exact absurd hq (Multiset.notMem_zero _)
      | some c =>
        rw [hc] at hq
        exact .inr ⟨q, by rw [hc, Multiset.mem_singleton.mp hq]⟩
  · rintro (⟨f, hf, rfl⟩ | ⟨q, hq⟩)
    · exact mem_refs_file hf
    · exact mem_refs_cwd hq

theorem busy_iff {i : Nat} : v.Busy i ↔ ∃ k ∈ v.refs, (v.slot k).inum = i := by
  constructor
  · rintro (⟨f, hf, hi⟩ | ⟨q, k, hq, hi⟩)
    · exact ⟨_, mem_refs_file hf, hi⟩
    · exact ⟨k, mem_refs_cwd hq, hi⟩
  · rintro ⟨k, hk, hi⟩
    rcases mem_refs.mp hk with ⟨f, hf, rfl⟩ | ⟨q, hq⟩
    · exact .inl ⟨f, hf, hi⟩
    · exact .inr ⟨q, k, hq, hi⟩

theorem Left.busy (h : Left v v') (i : Nat) : v'.Busy i ↔ v.Busy i := by
  have hrefs : v'.refs = v.refs := refs_congr h.ftable h.proc
  rw [busy_iff, busy_iff, hrefs]
  refine exists_congr fun k => and_congr_right fun hk => ?_
  rw [h.inum k hk]

namespace Rest

theorem refs_pos (h : Rest Z v s) {k : IRef} (hk : k ∈ v.refs) : 0 < (v.slot k).ref := by
  rw [h.st.ref, zero_add]
  exact Multiset.count_pos.mpr hk

theorem live_of_known (h : Rest Z v s) {k : IRef} (hk : k ∈ v.refs) (hkn : v.Known k) : v.Live (v.slot k).inum := by
  rcases hkn with hv | hn
  · exact h.st.live_of_loaded ⟨h.refs_pos hk, hv⟩
  · by_contra hdead
    refine hn ?_
    unfold View.inodeAt
    rw [h.st.node_dead hdead]
    rfl

theorem live_of_busy (h : Rest Z v s) {i : Nat} (hb : v.Busy i) : v.Live i := by
  rcases hb with ⟨f, hf, rfl⟩ | ⟨q, k, hq, rfl⟩
  · exact h.live_of_known (mem_refs_file hf) (.inl (h.files.inode f hf).1)
  · exact h.live_of_known (mem_refs_cwd hq) (h.cwd q k hq)

theorem busy_of_unlinked (h : Rest Z v s) {i : Nat} (hZ : i ∉ Z.lost) (hl : v.Live i) (hn : (v.node i).nlink = 0) :
    v.Busy i := by
  have ht := h.tidy
  rw [zero_add] at ht
  exact busy_iff.mpr (ht i hZ hl hn)

end Rest

theorem Step.node {c : Call} {r : Int} (h : Step Z v p c r T v' s') (hZ : Z.lost = ∅) (i : Nat) :
    v'.node i = if (T i).nlink = 0 ∧ ¬ v'.Busy i then .none else T i := by
  have hnot : i ∉ Z.lost := by
    rw [hZ]
    exact Set.notMem_empty i
  rcases h.freed i with heq | ⟨hnone, hz⟩
  · split_ifs with hfree
    · by_contra hne
      refine hfree.2 (h.rest.busy_of_unlinked hnot ?_ (heq ▸ hfree.1))
      by_contra hdead
      exact hne (h.rest.st.node_dead hdead)
    · exact heq
  · rw [if_pos]
    · exact hnone
    · refine ⟨hz, fun hb => h.rest.live_of_busy hb ?_⟩
      rw [hnone]
      rfl

theorem Effect.isShort {c : Call} {r : Int} (h : Effect v p c r T) (hv : ∀ i, IsShort (v.node i).nlink) (i : Nat) :
    IsShort (T i).nlink := by
  have hupdate : ∀ {T : Nat → Node} (k : Nat) (d : Node), (∀ i, IsShort (T i).nlink) → IsShort d.nlink →
      ∀ i, IsShort (Function.update T k d i).nlink := by
    intro T k d hT hd i
    rw [Function.update_apply]
    split_ifs
    · exact hd
    · exact hT i
  have hone : IsShort 1 := by
    unfold IsShort
    omega
  have hcreate : ∀ {path : List UInt8} {type : FType} {major minor : Int} {o : Option Nat},
      v.Create p path type major minor o T → IsShort (T i).nlink := by
    intro path type major minor o hT
    cases hT with
    | noDir => exact hv i
    | reuse => exact hv i
    | «exists» => exact hv i
    | @new d k name =>
      have hfresh := hupdate k (.fresh type major minor) hv hone
      unfold created
      split_ifs
      · have hinc := hupdate d (Node.addNlink (Function.update v.node k (.fresh type major minor) d) 1) hfresh
          (short_spec _).1
        have hdots := hupdate k ((Function.update v.node k (.fresh type major minor) k).dots k d) hinc (hfresh k)
        exact hupdate d (Node.link _ k name) hdots (hdots d) i
      · exact hupdate d (Node.link _ k name) hfresh (hfresh d) i
  cases c with
  | link old new =>
    rcases h with ⟨-, hT⟩ | ⟨-, rfl, -⟩
    · obtain ⟨x, -, hT⟩ := Option.bind_eq_some_iff.mp hT
      split_ifs at hT
      obtain ⟨y, -, hT⟩ := Option.bind_eq_some_iff.mp hT
      split_ifs at hT
      cases hT
      have hinc := hupdate x.1 ((v.node x.1).addNlink 1) hv (short_spec _).1
      exact hupdate y.1 (Node.link _ x.1 y.2) hinc (hinc y.1) i
    · exact hv i
  | unlink path =>
    rcases h with ⟨-, hT⟩ | ⟨-, rfl, -⟩
    · obtain ⟨x, -, hT⟩ := Option.bind_eq_some_iff.mp hT
      split_ifs at hT
      obtain ⟨y, -, hT⟩ := Option.bind_eq_some_iff.mp hT
      split_ifs at hT
      cases hT
      have hclear := hupdate x.1 ((v.node x.1).unlink y.1) hv (hv x.1)
      unfold unlinked
      split_ifs
      · exact hupdate _ _ (hupdate _ _ hclear (short_spec _).1) (short_spec _).1 i
      · exact hupdate _ _ hclear (short_spec _).1 i
    · exact hv i
  | mkdir path =>
    obtain ⟨o, -, hT⟩ := h
    exact hcreate hT
  | mknod path major minor =>
    obtain ⟨o, -, hT⟩ := h
    exact hcreate hT
  | «open» path omode =>
    rcases View.Open.tree h with rfl | ⟨o, hT⟩
    · exact hv i
    · exact hcreate hT
  | write fd src dev =>
    have hT : (v.write p fd src dev).2 = T := by rw [h]
    rw [← hT, write_nlink]
    exact hv i
  | _ =>
    obtain rfl : T = v.node := h
    exact hv i

theorem Effect.failed {c : Call} (h : Effect v p c (-1) T) (hc : c.onTree = true) : T = v.node := by
  have hcreate : ∀ {path : List UInt8} {type : FType} {major minor : Int} {o : Option Nat},
      (-1 : Int) = (if o = none then -1 else 0) → v.Create p path type major minor o T → T = v.node := by
    intro path type major minor o ho hT
    cases hT with
    | noDir => rfl
    | reuse => rfl
    | «exists» => rfl
    | new =>
      rw [if_neg (Option.some_ne_none _)] at ho
      cases ho
  cases c with
  | link old new =>
    rcases h with ⟨hr, -⟩ | ⟨-, hT, -⟩
    · cases hr
    · exact hT
  | unlink path =>
    rcases h with ⟨hr, -⟩ | ⟨-, hT, -⟩
    · cases hr
    · exact hT
  | mkdir path =>
    obtain ⟨o, ho, hT⟩ := h
    exact hcreate ho hT
  | mknod path major minor =>
    obtain ⟨o, ho, hT⟩ := h
    exact hcreate ho hT
  | _ => cases hc

inductive Fault : Stop → Prop
  /-- The process has no current directory, or the child of a `fork` is in use. -/
  | notEnabled : Fault .notEnabled
  /-- `iput` or `ilock` of an inode that the same system call has locked. -/
  | deadlock : Fault .deadlock
  /-- An entry names an inode that is not allocated. -/
  | noType : Fault (.panic "ilock: no type")
  | nlink : Fault (.panic "unlink: nlink < 1")

theorem sound_of (hno : B (.panic "ilock: no type")) (hlow : B (.panic "unlink: nlink < 1"))
    (hp : (v.proc p).cwd = none → B .notEnabled) : Sound B p v :=
  ⟨⟨fun _ _ _ => hno, hp⟩, fun _ _ _ => ⟨hno, hlow⟩, fun _ _ => hno⟩

theorem sound_fault (p : PIdx) (v : View) : Sound Fault p v := sound_of .noType .nlink fun _ => .notEnabled

theorem step_spec (h : Rest Z v s) {a : Act} (ha : Ints s a) (hB : Sound B a.1 v)
    (hself : (Z.lost = ∅ → NamesItself v a.1 a.2) → B .deadlock) (hfork : ForksInUse v a.2 → B .notEnabled) :
    Sat (step s a) (fun s' => ∃ r T v', Step Z v a.1 a.2 r T v' s') (Halt B) := by
  unfold step
  split_ifs with hcwd
  · rw [Mid.proc h] at hcwd
    exact .fault (hB.reach.cwd hcwd)
  · have hcall := syscall_spec h ha hB hself hfork
    unfold Wp at hcall
    cases hrun : syscall a.1 a.2 s with
    | ok x =>
      rw [hrun] at hcall
      exact ⟨x.1, hcall⟩
    | error e =>
      rw [hrun] at hcall
      exact hcall

end step

/-! ## Images -/

def Image.vol (img : Image) : Vol := ⟨img.sb, img.inode, img.bitmap, img.data⟩

structure Image.Ok (img : Image) : Prop where
  owned : Owned img.vol
  shaped : ∀ i, img.vol.Live i → Shaped img.vol i (blocksIn (img.inode i).size) (NDIRECT < blocksIn (img.inode i).size)
  dirs : ∀ i, (img.vol.node i).type = .dir → DirOk img.sb (img.vol.node i).contents
  root : ROOTINO < img.sb.ninodes
  linked : (img.vol.node ROOTINO).nlink ≠ 0

/-- The inodes of the image that have no links. -/
def Image.lost (img : Image) : Set Nat := { i | img.vol.Live i ∧ (img.vol.node i).nlink = 0 }

def Image.origin (img : Image) : Origin := ⟨img.sb, img.lost⟩

section start

variable {img : Image}

theorem start_good (h : img.Ok) : Good (start img) := by
  have hslot : ∀ k : IRef, 0 < ((start img).icache k).ref → k.val = 0 := by
    intro k hk
    by_contra hne
    have : ((start img).icache k).ref = 0 := if_neg hne
    omega
  refine ⟨h.owned, h.shaped, ?_, ?_⟩
  · intro k k' hk hk' _
    exact Fin.ext ((hslot k hk).trans (hslot k' hk').symm)
  · intro k _ hv
    cases hv

theorem start_refs (img : Image) : (start img).view.refs = {0} := by
  have hfiles : ∑ f, ((start img).view.ftable f).refs = 0 := Finset.sum_eq_zero fun f _ => rfl
  unfold View.refs
  rw [hfiles, zero_add, Finset.sum_eq_single (0 : PIdx)]
  · rfl
  · intro p _ hp
    have hne : p.val ≠ 0 := fun h => hp (Fin.ext h)
    show (if p.val = 0 then some (0 : IRef) else none).elim (0 : Multiset IRef) _ = 0
    rw [if_neg hne]
    rfl
  · intro hno
    exact absurd (Finset.mem_univ _) hno

theorem start_fds (img : Image) : (start img).view.fds = 0 :=
  Finset.sum_eq_zero fun _ _ => Finset.sum_eq_zero fun _ _ => rfl

theorem start_held (h : img.Ok) : Held {0} ∅ (start img).view := by
  refine ⟨?_, ?_, ?_, ?_, h.root, h.dirs⟩
  · intro k
    rw [Multiset.count_singleton]
    show (if k.val = 0 then 1 else 0) = _
    simp only [Fin.ext_iff]
    rfl
  · intro k
    exact iff_of_false Bool.false_ne_true (Finset.notMem_empty k)
  · intro k hk
    exact absurd hk (Finset.notMem_empty k)
  · intro k hk
    rw [Multiset.mem_singleton.mp hk]
    exact h.root

theorem start_files (img : Image) : Files 0 0 (start img).view := by
  have hnone : ∀ f, ((start img).view.ftable f).type = .none := fun _ => rfl
  refine ⟨fun _ => rfl, fun f _ => hnone f, ?_, ?_⟩
  · intro f hf
    exact absurd hf (Multiset.notMem_zero f)
  · intro f hf
    rw [hnone] at hf
    cases hf

theorem start_rest (h : img.Ok) : Rest img.origin (start img).view (start img) := by
  unfold Rest
  rw [start_fds]
  refine ⟨?_, .refl _, start_files img, ?_, ?_, rfl, rfl⟩
  · rw [zero_add, start_refs]
    exact ⟨.of_good (start_good h), start_held h⟩
  · intro i hZ hl hn
    exact absurd ⟨node_type_ne.mp hl, hn⟩ hZ
  · intro p k hk
    change (if p.val = 0 then some (0 : IRef) else none) = some k at hk
    split_ifs at hk
    cases hk
    exact .inr h.linked

theorem run_rest {h : List Event} {s : FS} (hok : img.Ok) (hr : FRun img h s) (hi : Always Ints h) :
    Rest img.origin s.view s := by
  have hrest : ∃ v, Rest img.origin v s := by
    refine hr.induct_of (I := fun s => ∃ v, Rest img.origin v s) hi ⟨_, start_rest hok⟩ ?_
    intro s a s' hI ha hs
    obtain ⟨v, hv⟩ := hI
    obtain ⟨r, T, v', hstep⟩ := (step_spec hv ha (sound_fault a.1 v) (fun _ => .deadlock) fun _ => .notEnabled).of_ok hs
    exact ⟨v', hstep.rest⟩
  obtain ⟨v, hv⟩ := hrest
  rw [hv.st.view]
  exact hv

theorem run_isShort {h : List Event} {s : FS} (hok : img.Ok) (hlost : img.lost = ∅)
    (hshort : ∀ i, IsShort (img.vol.node i).nlink)
    (hr : FRun img h s) (hi : Always Ints h) : ∀ i, IsShort (s.vol.node i).nlink := by
  have hinv : ∃ v, Rest img.origin v s ∧ ∀ i, IsShort (v.node i).nlink := by
    refine hr.induct_of (I := fun s => ∃ v, Rest img.origin v s ∧ ∀ i, IsShort (v.node i).nlink) hi
      ⟨_, start_rest hok, hshort⟩ ?_
    intro s a s' hI ha hs
    obtain ⟨v, hv, hnlink⟩ := hI
    obtain ⟨r, T, v', hstep⟩ := (step_spec hv ha (sound_fault a.1 v) (fun _ => .deadlock) fun _ => .notEnabled).of_ok hs
    refine ⟨v', hstep.rest, fun i => ?_⟩
    rcases hstep.freed i with heq | ⟨hnone, -⟩
    · rw [heq]
      exact (hstep.effect hlost hnlink).isShort hnlink i
    · rw [hnone]
      exact (by decide : (-32768 : Int) ≤ 0 ∧ (0 : Int) < 32768)
  obtain ⟨v, hv, hnlink⟩ := hinv
  have hview := hv.st.view
  rw [← hview] at hnlink
  exact hnlink

end start

end Xv6Mlfq.Fs
