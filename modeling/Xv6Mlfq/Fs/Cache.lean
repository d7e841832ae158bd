import Xv6Mlfq.Fs.Contents
import Xv6Mlfq.Fs.Syscall

/-!
# The inode layer on views

`At v s`: the state `s` is good and `v` is its view. Each function of the inode layer is a step from one view to
another, so what follows about directories, paths and system calls never looks at blocks or at copies of inodes.
-/

namespace Xv6Mlfq.Fs

open Lib

structure At (v : View) (s : FS) : Prop where
  good : Good s
  view : s.view = v

namespace View

def setSlot (v : View) (k : IRef) (f : Slot → Slot) : View :=
  { v with slot := Function.update v.slot k (f (v.slot k)) }

def inodeAt (v : View) (k : IRef) : Node := v.node (v.slot k).inum

/-- Entry `k` is in use and holds a copy of its inode. -/
structure Loaded (v : View) (k : IRef) : Prop where
  ref : 0 < (v.slot k).ref
  valid : (v.slot k).valid = true

def Live (v : View) (i : Nat) : Prop := (v.node i).type ≠ .free

def lock (v : View) (k : IRef) : View := v.setSlot k fun x => { x with lock := true }

/-- The lock of entry `k` is taken and its inode read. -/
def ilock (v : View) (k : IRef) : View := v.setSlot k fun x => { x with lock := true, valid := true }

def unlock (v : View) (k : IRef) : View := v.setSlot k fun x => { x with lock := false }

def dup (v : View) (k : IRef) : View := v.setSlot k fun x => { x with ref := x.ref + 1 }

def fill (v : View) (k : IRef) (i : Nat) : View := v.setSlot k fun x => { x with inum := i, ref := 1, valid := false }

/-- The last reference to an inode without links goes. -/
def Last (v : View) (k : IRef) : Prop :=
  (v.slot k).valid = true ∧ (v.inodeAt k).nlink = 0 ∧ (v.slot k).ref = 1

instance (v : View) (k : IRef) : Decidable (v.Last k) := inferInstanceAs (Decidable (_ ∧ _))

/-- One reference less to entry `k`; an inode without links and references is freed. -/
def put (v : View) (k : IRef) : View :=
  if v.Last k then (v.setNode (v.slot k).inum .none).setSlot k fun x => { x with ref := 0, valid := false }
  else v.setSlot k fun x => { x with ref := x.ref - 1 }

def setFile (v : View) (f : FRef) (g : File → File) : View :=
  { v with ftable := Function.update v.ftable f (g (v.ftable f)) }

/-- The files or the current directory of a process are changed. -/
def setProc (v : View) (p : PIdx) (g : ProcFiles → ProcFiles) : View :=
  { v with proc := Function.update v.proc p (g (v.proc p)) }

def beginOp (v : View) : View := { v with outstanding := v.outstanding + 1 }

def endOp (v : View) : View := { v with outstanding := v.outstanding - 1 }

end View

section state

variable {v : View} {s : FS} {k : IRef}

namespace At

theorem of_good (h : Good s) : At s.view s := ⟨h, rfl⟩

theorem inum (h : At v s) (k : IRef) : (s.icache k).inum = (v.slot k).inum := by
  rw [← h.view]
  rfl

theorem ref (h : At v s) (k : IRef) : (s.icache k).ref = (v.slot k).ref := by
  rw [← h.view]
  rfl

theorem lock (h : At v s) (k : IRef) : (s.icache k).lock = (v.slot k).lock := by
  rw [← h.view]
  rfl

theorem valid (h : At v s) (k : IRef) : (s.icache k).valid = (v.slot k).valid := by
  rw [← h.view]
  rfl

theorem node (h : At v s) (i : Nat) : s.vol.node i = v.node i := by
  rw [← h.view]
  rfl

theorem live (h : At v s) (i : Nat) : s.vol.Live i ↔ v.Live i := by
  unfold View.Live
  rw [← h.node, node_type_ne]

theorem loaded (h : At v s) (hk : v.Loaded k) : Fs.Loaded s k := ⟨h.ref k ▸ hk.ref, h.valid k ▸ hk.valid⟩

theorem live_of_loaded (h : At v s) (hk : v.Loaded k) : v.Live (v.slot k).inum := by
  rw [← h.live, ← h.inum]
  exact h.good.live (h.loaded hk)

theorem copy (h : At v s) (hk : v.Loaded k) :
    v.inodeAt k = ⟨(s.icache k).copy.type, (s.icache k).copy.major, (s.icache k).copy.minor, (s.icache k).copy.nlink,
      s.vol.contents (v.slot k).inum⟩ ∧ (s.icache k).copy.size = (v.inodeAt k).contents.length := by
  have hnode : v.inodeAt k = _ := (h.node _).symm.trans (node_of_live ((h.live _).mpr (h.live_of_loaded hk)))
  have hcopy := h.good.copy (h.loaded hk)
  rw [h.inum] at hcopy
  refine ⟨by rw [hnode, hcopy]; rfl, ?_⟩
  rw [hnode, length_contents, hcopy]
  rfl

theorem type (h : At v s) (hk : v.Loaded k) : (s.icache k).copy.type = (v.inodeAt k).type := by rw [(h.copy hk).1]

theorem nlink (h : At v s) (hk : v.Loaded k) : (s.icache k).copy.nlink = (v.inodeAt k).nlink := by rw [(h.copy hk).1]

theorem size (h : At v s) (hk : v.Loaded k) : (s.icache k).copy.size = (v.inodeAt k).contents.length := (h.copy hk).2

theorem unique (h : At v s) {k k' : IRef} (hk : 0 < (v.slot k).ref) (hk' : 0 < (v.slot k').ref)
    (heq : (v.slot k).inum = (v.slot k').inum) : k = k' :=
  h.good.unique k k' (by rwa [h.ref]) (by rwa [h.ref]) (by rwa [h.inum, h.inum])

end At

theorem Good.congr {s' : FS} (h : Good s) (hsb : s'.sb = s.sb) (hino : s'.inode = s.inode)
    (hbits : s'.bitmap = s.bitmap) (hdata : s'.data = s.data) (hic : s'.icache = s.icache) : Good s' := by
  have hvol : s'.vol = s.vol := by
    unfold FS.vol
    rw [hsb, hino, hbits, hdata]
  have hcnt : s'.cnt = s.cnt := by
    unfold FS.cnt
    rw [hino]
  refine ⟨hvol ▸ h.owned, ?_, ?_, ?_⟩
  · rw [hvol, hcnt]
    exact h.shaped
  · rw [hic]
    exact h.unique
  · rw [hvol, hic, hino]
    exact h.cached

theorem Good.setEntry (h : Good s) {ip : Inode}
    (hu : 0 < ip.ref → ∀ j, j ≠ k → 0 < (s.icache j).ref → (s.icache j).inum ≠ ip.inum)
    (hc : 0 < ip.ref → ip.valid = true → s.vol.Live ip.inum ∧ ip.copy = s.inode ip.inum) :
    Good { s with icache := Function.update s.icache k ip } := by
  refine ⟨h.owned, h.shaped, fun j j' hj hj' heq => ?_, fun j hj hv => ?_⟩
  · simp only [Function.update_apply] at hj hj' heq
    split_ifs at hj hj' heq with h₁ h₂ h₂
    · rw [h₁, h₂]
    · exact absurd heq.symm (hu hj j' h₂ hj')
    · exact absurd heq (hu hj' j h₁ hj)
    · exact h.unique j j' hj hj' heq
  · simp only [Function.update_apply] at hj hv ⊢
    split_ifs at hj hv ⊢ with h₁
    · exact hc hj hv
    · exact h.cached j hj hv

theorem At.setEntry (h : At v s) {ip : Inode} {f : Slot → Slot}
    (hf : f (v.slot k) = ⟨ip.inum, ip.ref, ip.lock, ip.valid⟩)
    (hu : 0 < ip.ref → ∀ j, j ≠ k → 0 < (v.slot j).ref → (v.slot j).inum ≠ ip.inum)
    (hc : 0 < ip.ref → ip.valid = true → s.vol.Live ip.inum ∧ ip.copy = s.inode ip.inum) :
    At (v.setSlot k f) { s with icache := Function.update s.icache k ip } := by
  refine ⟨h.good.setEntry (fun hr j hj hjr => ?_) hc, ?_⟩
  · rw [h.inum]
    rw [h.ref] at hjr
    exact hu hr j hj hjr
  · rw [← h.view] at hf ⊢
    ext1
    · rfl
    · rfl
    · funext j
      simp only [FS.view, View.setSlot, Function.update_apply] at hf ⊢
      split_ifs with hj
      · exact hf.symm
      · rfl
    · rfl
    · rfl
    · rfl

theorem At.keepEntry (h : At v s) (ip : Inode) {f : Slot → Slot}
    (hf : f (v.slot k) = ⟨ip.inum, ip.ref, ip.lock, ip.valid⟩) (hinum : ip.inum = (v.slot k).inum)
    (href : 0 < ip.ref → 0 < (v.slot k).ref)
    (hcopy : ip.valid = true → (v.slot k).valid = true ∧ ip.copy = (s.icache k).copy) :
    At (v.setSlot k f) { s with icache := Function.update s.icache k ip } := by
  refine h.setEntry hf (fun hr j hj hjr heq => hj ?_) fun hr hv => ?_
  · exact h.unique hjr (href hr) (heq.trans hinum)
  · obtain ⟨hv, hc⟩ := hcopy hv
    have hk : v.Loaded k := ⟨href hr, hv⟩
    rw [hinum, hc, h.live]
    exact ⟨h.live_of_loaded hk, h.inum k ▸ h.good.copy (h.loaded hk)⟩

/-! ## Locks and references -/

theorem acquire_spec (h : At v s) (k : IRef) :
    Wp (acquire k) s (fun _ s' => (v.slot k).lock = false ∧ At (v.lock k) s')
      fun e => e = .deadlock ∧ (v.slot k).lock = true := by
  unfold acquire
  simp only [Fs.inode, wp_bind, wp_look, h.lock]
  refine Wp.ite (fun hl => ⟨rfl, hl⟩) fun hl => ?_
  refine ⟨by simpa using hl, h.keepEntry _ ?_ (h.inum k) (fun hr => h.ref k ▸ hr) fun hv => ⟨h.valid k ▸ hv, rfl⟩⟩
  simp only [h.inum, h.ref, h.valid]

theorem release_spec (h : At v s) (k : IRef) {E : Stop → Prop} :
    Wp (release k) s (fun _ s' => At (v.unlock k) s') E := by
  refine h.keepEntry _ ?_ (h.inum k) (fun hr => h.ref k ▸ hr) fun hv => ⟨h.valid k ▸ hv, rfl⟩
  simp only [h.inum, h.ref, h.valid]

theorem idup_spec (h : At v s) (hk : 0 < (v.slot k).ref) {E : Stop → Prop} :
    Wp (idup k) s (fun k' s' => k' = k ∧ At (v.dup k) s') E := by
  refine ⟨rfl, h.keepEntry _ ?_ (h.inum k) (fun _ => hk) fun hv => ⟨h.valid k ▸ hv, rfl⟩⟩
  simp only [h.inum, h.ref, h.lock, h.valid]

inductive LockFault (v : View) (k : IRef) : Stop → Prop
  | held (h : (v.slot k).lock = true) : LockFault v k .deadlock
  | beyond (h : v.sb.ninodes ≤ (v.slot k).inum) (hv : (v.slot k).valid = false) : LockFault v k .noInode
  | noType (h : ¬ v.Live (v.slot k).inum) (hv : (v.slot k).valid = false) : LockFault v k (.panic "ilock: no type")

theorem iload_spec (h : At v s) (hk : 0 < (v.slot k).ref) :
    Wp (iload k) s (fun _ s' => At (v.setSlot k fun x => { x with valid := true }) s' ∧ v.Live (v.slot k).inum)
      fun e => (e = .noInode ∧ v.sb.ninodes ≤ (v.slot k).inum) ∨
        (e = .panic "ilock: no type" ∧ ¬ v.Live (v.slot k).inum) := by
  have hsb : s.sb = v.sb := by
    rw [← h.view]
    rfl
  unfold iload
  simp only [wp_bind, wp_look, id, h.inum, hsb]
  refine Wp.ite (fun hlt => ?_) fun hge => .inl ⟨rfl, by omega⟩
  simp only [setInode, wp_bind, wp_update]
  have hlive : v.Live (v.slot k).inum ↔ (s.inode (v.slot k).inum).type ≠ .free := by
    rw [← h.live]
    exact ⟨fun hl => hl.2, fun hl => ⟨show _ < s.sb.ninodes from hsb ▸ hlt, hl⟩⟩
  refine Wp.ite (fun hfree => .inr ⟨rfl, fun hl => hlive.mp hl hfree⟩) fun hne => ?_
  refine ⟨h.setEntry ?_ (fun hr j hj hjr heq => hj (h.unique hjr hk ?_)) fun _ _ => ?_, hlive.mpr hne⟩
  · simp only [h.inum, h.ref, h.lock]
  · exact heq.trans (h.inum k)
  · rw [h.live, h.inum]
    exact ⟨hlive.mpr hne, rfl⟩

theorem ilock_spec (h : At v s) (hk : 0 < (v.slot k).ref) :
    Wp (ilock k) s (fun _ s' => (v.slot k).lock = false ∧ v.Live (v.slot k).inum ∧ At (v.ilock k) s')
      (LockFault v k) := by
  unfold ilock
  simp only [Fs.inode, wp_bind, wp_look, h.ref, h.valid]
  refine Wp.ite (fun hr => by omega) fun _ => ?_
  refine Wp.bind ((acquire_spec h k).mono (fun _ _ h => h) ?_) ?_
  · rintro e ⟨rfl, hl⟩
    exact .held hl
  rintro _ s₁ ⟨hl, h₁⟩
  refine Wp.ite (fun hv => ?_) fun hv => ?_
  · refine ⟨hl, h.live_of_loaded ⟨hk, hv⟩, ?_⟩
    have hslot : v.ilock k = v.lock k := by
      simp only [View.ilock, View.lock, View.setSlot, hv]
    rw [hslot]
    exact h₁
  · have hv : (v.slot k).valid = false := by simpa using hv
    have hslot : (v.lock k).slot k = { v.slot k with lock := true } := by simp [View.lock, View.setSlot]
    have hload := iload_spec h₁ (k := k) (by rw [hslot]; exact hk)
    rw [hslot] at hload
    refine hload.mono ?_ ?_
    · rintro _ s₂ ⟨h₂, hlive⟩
      refine ⟨hl, hlive, ?_⟩
      have heq : v.ilock k = (v.lock k).setSlot k fun x => { x with valid := true } := by
        simp only [View.ilock, View.lock, View.setSlot, Function.update_self, Function.update_idem]
      rw [heq]
      exact h₂
    · rintro e (⟨rfl, hb⟩ | ⟨rfl, hb⟩)
      · exact .beyond hb hv
      · exact .noType hb hv

theorem iunlock_spec (h : At v s) (hk : 0 < (v.slot k).ref) (hl : (v.slot k).lock = true) {E : Stop → Prop} :
    Wp (iunlock k) s (fun _ s' => At (v.unlock k) s') E := by
  unfold iunlock
  simp only [Fs.inode, wp_bind, wp_look, h.ref, h.lock]
  refine Wp.ite (fun hbad => ?_) fun _ => release_spec h k
  rcases hbad with hbad | hbad
  · rw [hl] at hbad
    cases hbad
  · omega

/-- What `iget` returns: the entry of the inode, or an unused one. -/
inductive Got (v : View) (i : Nat) (k : IRef) : View → Prop
  | old (hr : 0 < (v.slot k).ref) (hi : (v.slot k).inum = i) : Got v i k (v.dup k)
  | new (hr : (v.slot k).ref = 0) (hi : ∀ j, 0 < (v.slot j).ref → (v.slot j).inum ≠ i) : Got v i k (v.fill k i)

theorem iget_spec (h : At v s) (i : Nat) :
    Wp (iget i) s (fun k s' => ∃ v', Got v i k v' ∧ At v' s') fun e => e = .panic "iget: no inodes" := by
  unfold iget
  simp only [wp_bind, wp_look, id]
  cases hfind : s.cached i with
  | some k =>
    have hk : 0 < (v.slot k).ref ∧ (v.slot k).inum = i := by
      have := List.find?_some hfind
      simpa [h.ref, h.inum] using this
    refine ⟨v.dup k, .old hk.1 hk.2, h.keepEntry _ ?_ (h.inum k) (fun _ => hk.1) fun hv => ⟨h.valid k ▸ hv, rfl⟩⟩
    simp only [h.inum, h.ref, h.lock, h.valid]
  | none =>
    have hno : ∀ j, 0 < (v.slot j).ref → (v.slot j).inum ≠ i := by
      intro j hj heq
      have := List.find?_eq_none.mp hfind j (List.mem_finRange j)
      simp [h.ref, h.inum, hj, heq] at this
    cases hempty : s.empty with
    | some k =>
      have hk : (v.slot k).ref = 0 := by
        have := List.find?_some hempty
        simpa [h.ref] using this
      refine ⟨v.fill k i, .new hk hno, h.setEntry ?_ (fun _ j _ hj => hno j hj) fun _ hv => by cases hv⟩
      simp only [h.lock]
    | none => rfl

theorem Good.newInode (h : Good s) {i : Nat} {d : Dinode} {l : List Nat} (hdead : ¬ s.vol.Live i) (hd : d.type ≠ .free)
    (hi : i < s.sb.ninodes) (hsize : d.size = 0) (haddrs : ∀ j, d.addrs j = 0) :
    At (s.view.setNode i ⟨d.type, d.major, d.minor, d.nlink, []⟩)
      { s with inode := Function.update s.inode i d, logged := l } := by
  generalize hs' : ({ s with inode := Function.update s.inode i d, logged := l } : FS) = s'
  have hself : s'.vol.ino i = d := by
    rw [← hs']
    exact Function.update_self ..
  have hrest : ∀ j, j ≠ i → s'.vol.ino j = s.vol.ino j := by
    intro j hj
    rw [← hs']
    exact Function.update_of_ne hj _ _
  have hsb : s'.vol.sb = s.vol.sb := by rw [← hs']; rfl
  have hdata : s'.vol.data = s.vol.data := by rw [← hs']; rfl
  have hic : s'.icache = s.icache := by rw [← hs']
  have hlive : ∀ j, s'.vol.Live j ↔ j = i ∨ s.vol.Live j := by
    intro j
    unfold Vol.Live
    rw [hsb]
    by_cases hj : j = i
    · rw [hj, hself]
      exact iff_of_true ⟨hi, hd⟩ (.inl rfl)
    · rw [hrest j hj]
      simp [hj]
  have hne : ∀ {j}, s.vol.Live j → j ≠ i := fun hj heq => hdead (heq ▸ hj)
  have haddr : ∀ p, s.vol.Live p.inum → s'.vol.addr p = s.vol.addr p := fun p hp =>
    addr_congr (by rw [hrest _ (hne hp)]) fun _ => by rw [hdata]
  have hzero : ∀ p, p.inum = i → s'.vol.addr p = 0 := fun p hp => addr_eq_zero fun j _ => by rw [hp, hself, haddrs]
  refine ⟨⟨?_, fun j hj => ?_, ?_, fun k hk hv => ?_⟩, ?_⟩
  · refine h.owned.congr hsb (fun p hp _ => haddr p hp) (fun p hp hno => hzero p ?_) (fun p hp hno => ?_)
      (by rw [← hs']; rfl)
    · exact ((hlive _).mp hp).resolve_right hno
    · exact absurd ((hlive _).mpr (.inr hp)) hno
  · rcases (hlive j).mp hj with rfl | hj
    · have hcnt : s'.cnt j = 0 := by
        unfold FS.cnt
        rw [show s'.inode j = d from hself, hsize]
        rfl
      rw [hcnt]
      refine ⟨fun bn => ?_, ?_⟩
      · simp [hzero (.block j bn) rfl]
      · simp [hzero (.indirect j) rfl]
    · have hcnt : s'.cnt j = s.cnt j := by
        unfold FS.cnt
        rw [show s'.inode j = s.inode j from hrest j (hne hj)]
      rw [hcnt]
      exact (h.shaped j hj).congr fun p hp => haddr p (hp ▸ hj)
  · rw [hic]
    exact h.unique
  · rw [hic] at hk hv ⊢
    obtain ⟨hl, hc⟩ := h.cached k hk hv
    exact ⟨(hlive _).mpr (.inr hl), hc.trans (hrest _ (hne hl)).symm⟩
  · have hnode : s'.vol.node = Function.update s.vol.node i ⟨d.type, d.major, d.minor, d.nlink, []⟩ := by
      funext j
      rw [Function.update_apply]
      split_ifs with hj
      · rw [hj, node_of_live ((hlive i).mpr (.inl rfl)), hself]
        unfold Vol.contents
        rw [hself, hsize]
        rfl
      · exact node_congr hsb hdata (hrest j hj)
    rw [← hs'] at hnode ⊢
    unfold FS.view View.setNode
    rw [hnode]

theorem ialloc_spec (h : At v s) {type : FType} (htype : type ≠ .free) :
    Wp (ialloc type) s (fun k s' => ∃ i v', 1 ≤ i ∧ i < v.sb.ninodes ∧ ¬ v.Live i ∧
        Got (v.setNode i ⟨type, 0, 0, 0, []⟩) i k v' ∧ At v' s')
      fun e => e = .panic "ialloc: no inodes" ∨ e = .panic "iget: no inodes" := by
  unfold ialloc
  simp only [wp_bind, wp_look, id]
  cases hfind : (List.range s.sb.ninodes).find? fun i => decide (1 ≤ i ∧ (s.inode i).type = .free) with
  | none => exact .inl rfl
  | some i =>
    have hi : i < s.sb.ninodes := by simpa using List.mem_of_find?_eq_some hfind
    have hfree : 1 ≤ i ∧ (s.inode i).type = .free := by simpa using List.find?_some hfind
    have hdead : ¬ s.vol.Live i := fun hl => hl.2 hfree.2
    have hnew := h.good.newInode (l := s.sb.iblock i :: s.logged) (d := { Dinode.zero with type := type }) hdead htype hi
      rfl fun _ => rfl
    rw [h.view] at hnew
    simp only [logWrite, wp_bind, wp_update]
    refine (iget_spec hnew i).mono ?_ fun e he => .inr he
    rintro k s' ⟨v', hgot, h'⟩
    refine ⟨i, v', hfree.1, ?_, fun hl => hdead ((h.live i).mpr hl), hgot, h'⟩
    rw [← h.view]
    exact hi

theorem ifree_view (h : At v s) (hk : v.Loaded k) :
    Wp (ifree k) s (fun _ s' => At ((v.setNode (v.slot k).inum .none).setSlot k fun x => { x with valid := false }) s')
      fun _ => False := by
  have hcopy := h.good.copy (h.loaded hk)
  refine (ifree_spec h.good.owned hcopy (h.good.live (h.loaded hk))).imp ?_
  rintro _ s' ⟨bitmap, l, d, hd, howned, hs'⟩
  rw [h.inum] at hs'
  have hself : s'.vol.ino (v.slot k).inum = d := by
    rw [hs']
    exact Function.update_self ..
  have hrest : ∀ j, j ≠ (v.slot k).inum → s'.vol.ino j = s.vol.ino j := by
    intro j hj
    rw [hs']
    exact Function.update_of_ne hj _ _
  have hsb : s'.vol.sb = s.vol.sb := by rw [hs']; rfl
  have hdata : s'.vol.data = s.vol.data := by rw [hs']; rfl
  have hlive : ∀ j, s'.vol.Live j ↔ j ≠ (v.slot k).inum ∧ s.vol.Live j := by
    intro j
    unfold Vol.Live
    rw [hsb]
    by_cases hj : j = (v.slot k).inum
    · rw [hj, hself]
      simp [hd]
    · rw [hrest j hj]
      simp [hj]
  have hic : ∀ j, s'.icache j = if j = k then { s.icache k with copy := d, valid := false } else s.icache j := by
    intro j
    rw [hs']
    exact Function.update_apply ..
  have hhead : ∀ j, (s'.icache j).inum = (s.icache j).inum ∧ (s'.icache j).ref = (s.icache j).ref := by
    intro j
    rw [hic]
    split_ifs with hj
    · rw [hj]
      exact ⟨rfl, rfl⟩
    · exact ⟨rfl, rfl⟩
  refine ⟨⟨howned, fun j hj => ?_, fun j j' hj hj' heq => ?_, fun j hj hv => ?_⟩, ?_⟩
  · obtain ⟨hne, hl⟩ := (hlive j).mp hj
    have hcnt : s'.cnt j = s.cnt j := by
      unfold FS.cnt
      rw [show s'.inode j = s.inode j from hrest j hne]
    rw [hcnt]
    refine (h.good.shaped j hl).congr fun p hp => addr_congr ?_ fun _ => by rw [hdata]
    rw [hp, hrest j hne]
  · rw [(hhead j).2] at hj
    rw [(hhead j').2] at hj'
    rw [(hhead j).1, (hhead j').1] at heq
    exact h.good.unique j j' hj hj' heq
  · rw [(hhead j).2] at hj
    have hjk : j ≠ k := by
      rintro rfl
      rw [hic, if_pos rfl] at hv
      cases hv
    rw [hic, if_neg hjk] at hv ⊢
    obtain ⟨hl, hc⟩ := h.good.cached j hj hv
    have hne : (s.icache j).inum ≠ (v.slot k).inum := by
      rw [h.inum]
      rw [h.ref] at hj
      exact fun heq => hjk (h.unique hj hk.ref heq)
    exact ⟨(hlive _).mpr ⟨hne, hl⟩, hc.trans (hrest _ hne).symm⟩
  · have hnode : s'.vol.node = Function.update v.node (v.slot k).inum .none := by
      funext j
      rw [Function.update_apply]
      split_ifs with hj
      · unfold Vol.node
        rw [if_neg]
        intro hl
        exact ((hlive j).mp hl).1 hj
      · rw [node_congr hsb hdata (hrest j hj), h.node]
    have hslot : s'.view.slot = ((v.setNode (v.slot k).inum .none).setSlot k fun x => { x with valid := false }).slot := by
      funext j
      simp only [FS.view, View.setSlot, View.setNode, Function.update_apply, hic]
      split_ifs with hj
      · simp only [h.inum, h.ref, h.lock]
      · simp only [h.inum, h.ref, h.lock, h.valid]
    rw [← h.view] at hnode hslot ⊢
    ext1
    · rw [hs']
      rfl
    · exact hnode
    · exact hslot
    · rw [hs']
      rfl
    · rw [hs']
      rfl
    · rw [hs']
      rfl

theorem iput_spec (h : At v s) (hk : 0 < (v.slot k).ref) :
    Wp (iput k) s (fun _ s' => (v.slot k).lock = false ∧ At (v.put k) s')
      fun e => e = .deadlock ∧ (v.slot k).lock = true := by
  unfold iput
  refine Wp.bind (acquire_spec h k) ?_
  rintro _ s₁ ⟨hl, h₁⟩
  have hslot : (v.lock k).slot k = { v.slot k with lock := true } := by simp [View.lock, View.setSlot]
  have hat : (v.lock k).inodeAt k = v.inodeAt k := by
    unfold View.inodeAt
    rw [hslot]
    rfl
  have hlast : Wp (iputLast k) s₁ (fun _ s' => At (if v.Last k then
      ((v.lock k).setNode (v.slot k).inum .none).setSlot k fun x => { x with valid := false } else v.lock k) s')
      fun e => e = .deadlock ∧ (v.slot k).lock = true := by
    unfold iputLast
    simp only [Fs.inode, wp_bind, wp_look, h₁.ref, h₁.valid, hslot]
    refine Wp.ite (fun hyes => ?_) fun hno => ?_
    · have hloaded : (v.lock k).Loaded k := ⟨by rw [hslot]; exact hk, by rw [hslot]; exact hyes.1⟩
      rw [h₁.nlink hloaded, hat] at hyes
      rw [if_pos (show v.Last k from hyes)]
      have := ifree_view h₁ hloaded
      rw [hslot] at this
      exact this.mono (fun _ _ h => h) fun _ he => he.elim
    · rw [if_neg]
      · exact h₁
      · intro hyes
        have hloaded : (v.lock k).Loaded k := ⟨by rw [hslot]; exact hk, by rw [hslot]; exact hyes.1⟩
        rw [h₁.nlink hloaded, hat] at hno
        exact hno hyes
  refine Wp.bind hlast ?_
  intro _ s₂ h₂
  refine Wp.bind (release_spec h₂ k) ?_
  intro _ s₃ h₃
  refine ⟨hl, ?_⟩
  have hput := h₃.keepEntry (k := k) { s₃.icache k with ref := (s₃.icache k).ref - 1 }
    (f := fun x => { x with ref := x.ref - 1 }) (by simp only [h₃.inum, h₃.ref, h₃.lock, h₃.valid]) (h₃.inum k)
    (fun hr => by have := h₃.ref k; simp only at hr; omega) fun hv => ⟨h₃.valid k ▸ hv, rfl⟩
  refine (congrArg (fun w => At w _) ?_).mp hput
  unfold View.put
  split_ifs with hyes
  · have := hyes.2.2
    simp only [View.setSlot, View.setNode, View.lock, View.unlock, Function.update_self, Function.update_idem, hl, this]
  · simp only [View.setSlot, View.lock, View.unlock, Function.update_self, Function.update_idem, hl]

/-! ## Contents -/

theorem readi_view (h : At v s) (hk : v.Loaded k) (off n : Nat) (dev : Option (List UInt8)) {E : Stop → Prop} :
    Wp (readi k off n dev) s (fun r s' => s' = s ∧ r = readiResult (v.inodeAt k) off n dev) E := by
  have := readi_spec h.good (h.loaded hk) off n dev
  rw [h.inum, h.node] at this
  exact this.mono (fun _ _ h => h) fun _ he => he.elim

theorem writei_view (h : At v s) (hk : v.Loaded k) (off : Nat) (src : List UInt8) :
    Wp (writei k src off) s (fun r s' => r = ((v.inodeAt k).write off src).1 ∧
        At (v.setNode (v.slot k).inum ((v.inodeAt k).write off src).2) s' ∧
        s'.free + blocksFor (blocksIn ((v.inodeAt k).write off src).2.contents.length) =
          s.free + blocksFor (blocksIn (v.inodeAt k).contents.length))
      fun e => OutOfBlocks e ∧ s.free + blocksFor (blocksIn (v.inodeAt k).contents.length) <
        blocksFor (blocksIn ((v.inodeAt k).write off src).2.contents.length) := by
  refine (writei_spec h.good (h.loaded hk) off src).mono (fun r s' hp => ?_) fun e he => ?_
  · obtain ⟨hgood, hresult, hview, hpaid⟩ := hp
    rw [h.inum, h.node] at hresult hview hpaid
    rw [h.view] at hview
    exact ⟨hresult, ⟨hgood, hview⟩, hpaid⟩
  · unfold WriteiFull at he
    rw [h.inum, h.node] at he
    exact he

theorem At.setFields (h : At v s) (hk : v.Loaded k) {d : Dinode} {l : List Nat}
    (htype : d.type = (s.inode (v.slot k).inum).type) (hsize : d.size = (s.inode (v.slot k).inum).size)
    (haddrs : d.addrs = (s.inode (v.slot k).inum).addrs) :
    At (v.setNode (v.slot k).inum ⟨d.type, d.major, d.minor, d.nlink, (v.inodeAt k).contents⟩)
      { s with
        inode := Function.update s.inode (v.slot k).inum d
        icache := Function.update s.icache k { s.icache k with copy := d }
        logged := l } := by
  generalize hs' : ({ s with
    inode := Function.update s.inode (v.slot k).inum d
    icache := Function.update s.icache k { s.icache k with copy := d }
    logged := l } : FS) = s'
  have hsb : s'.sb = s.sb := by rw [← hs']
  have hdata : s'.vol.data = s.vol.data := by rw [← hs']; rfl
  have hino : s'.inode = Function.update s.inode (v.slot k).inum d := by rw [← hs']
  have hic : s'.icache = Function.update s.icache k { s.icache k with copy := d } := by rw [← hs']
  have hlive := live_setInode hsb hino htype
  have haddrs' : ∀ j, (s'.vol.ino j).addrs = (s.vol.ino j).addrs := by
    intro j
    show (s'.inode j).addrs = (s.inode j).addrs
    rw [hino, Function.update_apply]
    split_ifs with hj
    · rw [hj, haddrs]
    · rfl
  have haddr : ∀ p, s'.vol.addr p = s.vol.addr p := fun p => addr_congr (haddrs' _) fun _ => by rw [hdata]
  have hcnt : s'.cnt = s.cnt := by
    funext j
    unfold FS.cnt
    rw [hino, Function.update_apply]
    split_ifs with hj
    · rw [hj, hsize]
    · rfl
  refine ⟨h.good.setInode (h.loaded hk) hsb (h.inum k ▸ hino) hic (by rw [h.inum, htype]) ?_ fun j hj => ?_, ?_⟩
  · refine h.good.owned.congr hsb (fun p _ _ => haddr p) (fun p hp hno => ?_) (fun p hp hno => ?_) (by rw [← hs']; rfl)
    · exact absurd ((hlive _).mp hp) hno
    · exact absurd ((hlive _).mpr hp) hno
  · rw [hcnt]
    exact (h.good.shaped j hj).congr fun p _ => haddr p
  · have hnode : s'.vol.node = Function.update v.node (v.slot k).inum
        ⟨d.type, d.major, d.minor, d.nlink, (v.inodeAt k).contents⟩ := by
      funext j
      rw [Function.update_apply]
      split_ifs with hj
      · have hl := (h.live _).mpr (h.live_of_loaded hk)
        have hd : s'.vol.ino (v.slot k).inum = d := by
          show s'.inode _ = d
          rw [hino, Function.update_self]
        have hbytes : s'.vol.contents (v.slot k).inum = (v.inodeAt k).contents := by
          rw [(h.copy hk).1]
          unfold Vol.contents Vol.byte
          rw [hd, hsize, hdata]
          simp only [haddr]
          rfl
        rw [hj, node_of_live ((hlive _).mpr hl), hd, hbytes]
      · rw [node_congr (v := s.vol) hsb hdata ?_, h.node]
        show s'.inode j = s.inode j
        rw [hino, Function.update_of_ne hj]
    have hslot := slot_setCopy hic
    rw [← h.view] at hnode ⊢
    ext1
    · exact hsb
    · exact hnode
    · exact hslot
    · rw [← hs']
      rfl
    · rw [← hs']
      rfl
    · rw [← hs']
      rfl

theorem iwrite_spec (h : At v s) (hk : v.Loaded k) {f : Dinode → Dinode} {g : Node → Node}
    (hf : ∀ d, (f d).type = d.type ∧ (f d).size = d.size ∧ (f d).addrs = d.addrs)
    (hg : ∀ d bs, g ⟨d.type, d.major, d.minor, d.nlink, bs⟩ = ⟨(f d).type, (f d).major, (f d).minor, (f d).nlink, bs⟩)
    {E : Stop → Prop} :
    Wp (iwrite k f) s (fun _ s' => At (v.setNode (v.slot k).inum (g (v.inodeAt k))) s') E := by
  have hcopy := h.good.copy (h.loaded hk)
  obtain ⟨htype, hsize, haddrs⟩ := hf (s.inode (v.slot k).inum)
  have hset := h.setFields hk (l := s.sb.iblock (v.slot k).inum :: s.logged) htype hsize haddrs
  have hnode : g (v.inodeAt k) = ⟨(f (s.inode (v.slot k).inum)).type, (f (s.inode (v.slot k).inum)).major,
      (f (s.inode (v.slot k).inum)).minor, (f (s.inode (v.slot k).inum)).nlink, (v.inodeAt k).contents⟩ := by
    rw [← hg, ← h.inum, ← hcopy, (h.copy hk).1]
  rw [hnode]
  simp only [iwrite, setCopy, setInode, iupdate, Fs.inode, logWrite, wp_bind, wp_look, wp_update, Function.update_self,
    hcopy]
  rw [← h.inum] at hset ⊢
  exact hset

/-! ## Files, processes and the log -/

theorem setFile_spec (h : At v s) (f : FRef) (g : File → File) {E : Stop → Prop} :
    Wp (setFile f g) s (fun _ s' => At (v.setFile f g) s') E := by
  refine ⟨h.good.congr rfl rfl rfl rfl rfl, ?_⟩
  rw [← h.view]
  rfl

theorem setProc_spec (h : At v s) (p : PIdx) (g : ProcFiles → ProcFiles) {E : Stop → Prop} :
    Wp (setProc p g) s (fun _ s' => At (v.setProc p g) s') E := by
  refine ⟨h.good.congr rfl rfl rfl rfl rfl, ?_⟩
  rw [← h.view]
  rfl

theorem beginOp_spec (h : At v s) {E : Stop → Prop} : Wp beginOp s (fun _ s' => At v.beginOp s') E := by
  refine ⟨h.good.congr rfl rfl rfl rfl rfl, ?_⟩
  rw [← h.view]
  rfl

theorem endOp_spec (h : At v s) {E : Stop → Prop} : Wp endOp s (fun _ s' => At v.endOp s') E := by
  refine ⟨h.good.congr rfl rfl rfl rfl rfl, ?_⟩
  rw [← h.view]
  rfl

end state

end Xv6Mlfq.Fs
