import Xv6Mlfq.Fs.Calls

/-!
# create and open

`create` and the system calls built on it: `open`, `mkdir` and `mknod`. The new inode is any free one (`View.Create`).
-/

namespace Xv6Mlfq.Fs

open Lib

section create

variable {B : Stop → Prop} {Z : Origin} {T : Nat → Node} {D N : Multiset FRef} {H : Multiset IRef} {L : Finset IRef}
  {n : Nat} {v v' w : View} {s s' : FS} {k dp ip : IRef} {f : FRef} {p : PIdx} {name : Name} {i d j : Nat} {type : FType}

/-! ## create -/

theorem Mid.ialloc (h : Mid Z T D N H L n v s) {type : FType} (htype : type ≠ .free) :
    Wp (Fs.ialloc type) s (fun k s' => ∃ v' i, Mid Z (Function.update T i ⟨type, 0, 0, 0, []⟩) D N (k ::ₘ H) L n v' s' ∧
      Stay (H + v.refs) v v' ∧ (v'.slot k).inum = i ∧ v'.Live i ∧ ¬ v.Live i ∧ 0 < i) (Halt B) := by
  refine (ialloc_st h.st htype).imp ?_
  intro k s' hpost
  obtain ⟨v', hst, hstay, hdead, hpos, hnode⟩ := hpost
  have htree : Freed (Function.update T (v'.slot k).inum ⟨type, 0, 0, 0, []⟩) v'.node := by
    rw [hnode]
    exact h.tree.update _ _
  have hlive : v'.Live (v'.slot k).inum := by
    unfold View.Live
    rw [hnode, Function.update_self]
    exact htype
  refine ⟨v', _, h.stay (hstay.mono (Multiset.le_add_left _ _)) htree (Multiset.cons_add k H v.refs ▸ hst) ?_, hstay, rfl,
    hlive, hdead, hpos⟩
  intro i hZ hl hn
  by_cases hi : i = (v'.slot k).inum
  · exact ⟨k, by simp, hi.symm⟩
  · unfold View.Live at hl
    rw [hnode, Function.update_of_ne hi] at hl hn
    obtain ⟨j, hj, hji⟩ := h.tidy i hZ hl hn
    refine ⟨j, ?_, (hstay.inum j hj).trans hji⟩
    rw [Multiset.cons_add]
    exact Multiset.mem_cons_of_mem hj

theorem Mid.createDots (h : Mid Z T D N H L n v s) (hdp : dp ∈ L) (hip : ip ∈ L) (hi : (v.slot ip).inum = i)
    (hd : (v.slot dp).inum = d) (hne : i ≠ d) (ht : (T i).type = .dir) (hempty : (T i).contents = []) :
    Wp (Fs.createDots dp ip) s (fun _ s' => ∃ v', Mid Z (addDots T i d) D N H L n v' s' ∧ v'.slot = v.slot ∧
      Stay (H + v.refs) v v') (Halt B) := by
  have hilt : i < v.sb.ninodes := hi ▸ h.st.toHeld.inum ip (h.st.locked ip hip).1
  have hdlt : d < v.sb.ninodes := hd ▸ h.st.toHeld.inum dp (h.st.locked dp hdp).1
  have hnil : DirOk v.sb (T i).contents := by
    rw [hempty]
    exact DirOk.nil v.sb
  unfold Fs.createDots
  refine Wp.bind (h.addNlink hdp 1) ?_
  intro _ s₁ hpost
  obtain ⟨h₁, hstay₁⟩ := hpost
  rw [hd] at h₁ hstay₁
  have hi₁ : (s₁.icache ip).inum = i := (h₁.st.toAt.inum ip).trans hi
  have hd₁ : (s₁.icache dp).inum = d := (h₁.st.toAt.inum dp).trans hd
  obtain ⟨T₁, hT₁⟩ : ∃ T₁, Function.update T d ((T d).addNlink 1) = T₁ := ⟨_, rfl⟩
  rw [hT₁] at h₁
  have hat₁ : T₁ i = T i := by rw [← hT₁, Function.update_of_ne hne]
  simp only [Fs.inode, wp_bind, wp_look, hi₁, hd₁]
  refine (h₁.dirlink (d := i) hip hi (hat₁ ▸ ht) hilt ?_).imp ?_
  · intro j k _ hfound
    rw [hat₁, hempty] at hfound
    cases hfound
  intro r s₂ hpost
  rcases hpost with ⟨-, hsome, -⟩ | ⟨rfl, -, v₂, h₂, hslot₂, hstay₂⟩
  · rw [hat₁, hempty] at hsome
    exact absurd rfl hsome
  rw [if_neg (by decide)]
  rw [hat₁] at h₂
  have hat₂ : Function.update T₁ i ((T i).link i dot) i = (T i).link i dot := Function.update_self ..
  have hes : entries ((T i).link i dot).contents = [⟨i % 65536, dot⟩] := by
    rw [entries_link hnil, strncpy_dot, hempty]
    rfl
  have hi₂ : (v₂.slot ip).inum = i := by
    rw [hslot₂]
    exact hi
  refine Wp.bind (h₂.dirlink hip hi₂ (by rw [hat₂]; exact ht) (hstay₂.sb ▸ hdlt) ?_) ?_
  · intro j k _ hfound
    rw [hat₂, hes, lookup_dotdot] at hfound
    cases hfound
  intro r s₃ hpost
  rcases hpost with ⟨-, hsome, -⟩ | ⟨rfl, -, v₃, h₃, hslot₃, hstay₃⟩
  · rw [hat₂, hes, lookup_dotdot] at hsome
    exact absurd rfl hsome
  rw [if_neg (by decide)]
  rw [hat₂, Function.update_idem, ← hT₁] at h₃
  refine ⟨v₃, h₃, hslot₃.trans hslot₂, ?_⟩
  rw [hstay₁.refs_eq] at hstay₂
  rw [hstay₂.refs_eq, hstay₁.refs_eq] at hstay₃
  exact (hstay₁.trans hstay₂).trans hstay₃

theorem Mid.createDir (h : Mid Z T D N H L n v s) (hdp : dp ∈ L) (hip : ip ∈ L) (hi : (v.slot ip).inum = i)
    (hd : (v.slot dp).inum = d) (hne : i ≠ d) (ht : (T i).type = type) (hempty : (T i).contents = []) :
    Wp (Fs.createDir dp ip type) s (fun _ s' => ∃ v', Mid Z (if type = .dir then addDots T i d else T) D N H L n v' s' ∧
      v'.slot = v.slot ∧ Stay (H + v.refs) v v') (Halt B) := by
  unfold Fs.createDir
  refine Wp.ite (fun hdir => ?_) fun hdir => ?_
  · rw [if_pos hdir]
    exact h.createDots hdp hip hi hd hne (ht.trans hdir) hempty
  · rw [if_neg hdir]
    exact ⟨v, h, rfl, .refl _ v⟩

theorem Mid.createAlloc (h : Mid Z T D N (dp ::ₘ H) (insert dp ∅) n v s) (htype : type ≠ .free) (major minor : Int)
    (m : IRef → M (Option IRef)) {Q : Option IRef → FS → Prop}
    (hm : ∀ ip i v' s', Mid Z (Function.update T i (Node.fresh type major minor)) D N (ip ::ₘ dp ::ₘ H)
      (insert ip (insert dp ∅)) n v' s' → Stay ((dp ::ₘ H) + v.refs) v v' → ip ≠ dp → (v'.slot ip).inum = i → ¬ v.Live i →
      0 < i → Wp (m ip) s' Q (Halt B)) :
    Wp (do
      let ip ← Fs.ialloc type
      Fs.ilock ip
      iwrite ip fun d => { d with major := short major, minor := short minor, nlink := 1 }
      m ip) s Q (Halt B) := by
  refine Wp.bind (h.ialloc htype) ?_
  intro ip s₁ hpost
  obtain ⟨v₁, i, h₁, hstay₁, hi, hlive, hdead, hpos⟩ := hpost
  have hmem : ip ∈ (ip ::ₘ dp ::ₘ H) + v₁.refs := by simp
  have hdpL : dp ∈ insert dp (∅ : Finset IRef) := Finset.mem_insert_self _ _
  -- the directory is allocated, so the new inode is another one
  have hipdp : ip ∉ insert dp (∅ : Finset IRef) := by
    intro hin
    rw [Finset.mem_singleton.mp hin, hstay₁.inum dp (by simp)] at hi
    rw [← hi] at hdead
    exact hdead (h.st.live_of_loaded (h.st.toHeld.loaded hdpL))
  refine Wp.bind (h₁.ilock hmem (.of_live hipdp (hi ▸ hlive))) ?_
  intro _ s₂ hpost
  obtain ⟨-, -, h₂, hkeep₂⟩ := hpost
  have hip : ip ∈ insert ip (insert dp (∅ : Finset IRef)) := Finset.mem_insert_self _ _
  have hinum : ((v₁.ilock ip).slot ip).inum = i := (hkeep₂.inum ip hmem).trans hi
  have hnew := h₂.tree_at hip
  rw [hinum, Function.update_self] at hnew
  have hwrite := iwrite_st h₂.st hip (f := fun d => { d with major := short major, minor := short minor, nlink := 1 })
    (g := fun d => { d with major := short major, minor := short minor, nlink := 1 }) (fun _ => ⟨rfl, rfl, rfl⟩)
    (fun _ _ => rfl) (fun _ => ⟨rfl, rfl⟩) (E := Halt B)
  rw [hnew] at hwrite
  refine Wp.bind hwrite ?_
  intro _ s₃ hpost
  have h₃ := h₂.setNode hip hpost.1 hpost.2
  rw [hinum, Function.update_idem] at h₃
  refine hm ip i _ s₃ h₃ ?_ (fun heq => hipdp (heq ▸ hdpL)) hinum hdead hpos
  refine hstay₁.trans ?_
  rw [← hstay₁.refs_eq]
  have hle : (dp ::ₘ H) + v₁.refs ≤ (ip ::ₘ dp ::ₘ H) + v₁.refs := by
    rw [Multiset.cons_add ip]
    exact Multiset.le_cons_self _ _
  rw [hinum] at hpost
  exact (hkeep₂.toStay.mono hle).trans (hpost.2.mono hle)

theorem Mid.createNew (h : Mid Z T D N (dp ::ₘ H) (insert dp ∅) n v s) (hd : (v.slot dp).inum = d) (ht : (T d).type = .dir)
    (hnone : lookup name (entries (T d).contents) = none) (htype : type ≠ .free)
    (major minor : Int) :
    Wp (Fs.createNew dp name type major minor) s (fun r s' => ∃ ip i v', r = some ip ∧
      Mid Z (created T i d type major minor name) D N (ip ::ₘ H) (insert ip ∅) n v' s' ∧ Stay (H + v.refs) v v' ∧
      (v'.slot ip).inum = i ∧ i ≠ d ∧ ¬ v.Live i ∧ 0 < i ∧ i < v.sb.ninodes) (Halt B) := by
  have hdpL : dp ∈ insert dp (∅ : Finset IRef) := Finset.mem_insert_self _ _
  have hle : H + v.refs ≤ (dp ::ₘ H) + v.refs := by
    rw [Multiset.cons_add]
    exact Multiset.le_cons_self _ _
  refine h.createAlloc htype major minor _ ?_
  intro ip i v₁ s₁ h₁ hstay₁ hipdp hi hdead hpos
  have hd₁ : (v₁.slot dp).inum = d := (hstay₁.inum dp (by simp)).trans hd
  have hne : i ≠ d := by
    rintro rfl
    rw [← hd] at hdead
    exact hdead (h.st.live_of_loaded (h.st.toHeld.loaded hdpL))
  have hip : ip ∈ insert ip (insert dp (∅ : Finset IRef)) := Finset.mem_insert_self _ _
  have hdp : dp ∈ insert ip (insert dp (∅ : Finset IRef)) := Finset.mem_insert_of_mem hdpL
  have hilt : i < v₁.sb.ninodes := hi ▸ h₁.st.toHeld.inum ip (by simp)
  obtain ⟨T₁, hT₁⟩ : ∃ T₁, Function.update T i (Node.fresh type major minor) = T₁ := ⟨_, rfl⟩
  rw [hT₁] at h₁
  have hnew : T₁ i = Node.fresh type major minor := by rw [← hT₁, Function.update_self]
  have hold : T₁ d = T d := by rw [← hT₁, Function.update_of_ne hne.symm]
  have hnewtype : (T₁ i).type = type := by
    rw [hnew]
    rfl
  refine Wp.bind (h₁.createDir hdp hip hi hd₁ hne hnewtype (by rw [hnew]; rfl)) ?_
  intro _ s₂ hpost
  obtain ⟨v₂, h₂, hslot₂, hstay₂⟩ := hpost
  obtain ⟨T₂, hT₂⟩ : ∃ T₂, (if type = .dir then addDots T₁ i d else T₁) = T₂ := ⟨_, rfl⟩
  rw [hT₂] at h₂
  have hd₂ : (T₂ d).type = .dir ∧ (T₂ d).contents = (T d).contents := by
    rw [← hT₂]
    split_ifs
    · unfold addDots
      rw [Function.update_of_ne hne.symm, Function.update_self, hold]
      exact ⟨ht, rfl⟩
    · rw [hold]
      exact ⟨ht, rfl⟩
  have hi₂ : (s₂.icache ip).inum = i := by
    rw [h₂.st.toAt.inum, hslot₂]
    exact hi
  simp only [Fs.inode, wp_bind, wp_look, hi₂]
  refine (h₂.dirlink hdp (by rw [hslot₂]; exact hd₁) hd₂.1 (hstay₂.sb ▸ hilt) ?_).imp ?_
  · intro j k _ hfound
    rw [hd₂.2, hnone] at hfound
    cases hfound
  intro r s₃ hpost
  rcases hpost with ⟨-, hsome, -⟩ | ⟨rfl, -, v₃, h₃, hslot₃, hstay₃⟩
  · rw [hd₂.2] at hsome
    exact absurd hnone hsome
  rw [if_neg (by decide)]
  rw [Multiset.cons_swap] at h₃
  refine Wp.bind (h₃.iunlockput hdp) ?_
  intro _ s₄ hpost
  obtain ⟨h₄, hkeep₄⟩ := hpost
  rw [erase_insert_pair hipdp] at h₄
  have hlt : i < v.sb.ninodes := hstay₁.sb ▸ hilt
  refine ⟨ip, i, (v₃.unlock dp).put dp, rfl, ?_, ?_, ?_, hne, hdead, hpos, hlt⟩
  · have heq : created T i d type major minor name = Function.update T₂ d ((T₂ d).link i name) := by
      rw [← hT₂, ← hT₁]
      rfl
    rw [heq]
    exact h₄
  · have hle₂ : H + v.refs ≤ (ip ::ₘ dp ::ₘ H) + v.refs := by
      rw [Multiset.cons_add]
      exact hle.trans (Multiset.le_cons_self _ _)
    rw [hstay₁.refs_eq] at hstay₂
    rw [hstay₂.refs_eq, hstay₁.refs_eq] at hstay₃
    have hkeep := hkeep₄.toStay
    rw [hstay₃.refs_eq, hstay₂.refs_eq, hstay₁.refs_eq] at hkeep
    refine (((hstay₁.mono hle).trans (hstay₂.mono hle₂)).trans (hstay₃.mono hle₂)).trans (hkeep.mono ?_)
    rw [Multiset.cons_add]
    exact Multiset.le_cons_self _ _
  · rw [hkeep₄.inum ip (by simp), hslot₃, hslot₂]
    exact hi

theorem Mid.createOld (h : Mid Z T D N (ip ::ₘ dp ::ₘ H) (insert dp ∅) n v s) (hlock : Lockable B ∅ v ip)
    (hi : (v.slot ip).inum = i) (type : FType) :
    Wp (Fs.createOld dp ip type) s (fun r s' => ∃ v', Keep (H + v.refs) v v' ∧
      ((r = none ∧ Mid Z T D N H ∅ n v' s' ∧ ¬ (type = .file ∧ (T i).type = .file)) ∨
        (r = some ip ∧ Mid Z T D N (ip ::ₘ H) (insert ip ∅) n v' s' ∧ (v'.slot ip).inum = i ∧
          type = .file ∧ (T i).type = .file))) (Halt B) := by
  have hkL : ip ∈ insert ip (∅ : Finset IRef) := Finset.mem_insert_self _ _
  unfold Fs.createOld
  rw [Multiset.cons_swap] at h
  refine Wp.bind (h.iunlockput (Finset.mem_insert_self _ _)) ?_
  intro _ s₁ hpost
  obtain ⟨h₁, hkeep₁⟩ := hpost
  rw [erase_insert_empty] at h₁
  have hmem : ip ∈ (ip ::ₘ H) + v.refs := by simp
  have hi₁ := (hkeep₁.inum ip hmem).trans hi
  refine Wp.bind (h₁.ilock (by simp) (hlock.keep hkeep₁ hmem (Finset.notMem_empty ip))) ?_
  intro _ s₂ hpost
  obtain ⟨-, -, h₂, hkeep₂⟩ := hpost
  rw [hkeep₁.refs_eq] at hkeep₂
  have hi₂ := (hkeep₂.inum ip hmem).trans hi₁
  have hle : H + v.refs ≤ (ip ::ₘ H) + v.refs := by
    rw [Multiset.cons_add]
    exact Multiset.le_cons_self _ _
  have hkeep := (hkeep₁.trans hkeep₂).mono hle
  have hat := h₂.tree_at hkL
  rw [hi₂] at hat
  simp only [Fs.inode, wp_bind, wp_look, h₂.st.type (h₂.st.toHeld.loaded hkL), hat]
  refine Wp.ite (fun hfile => ?_) fun hfile => ?_
  · exact ⟨_, hkeep, .inr ⟨rfl, h₂, hi₂, hfile⟩⟩
  · refine Wp.bind (h₂.iunlockput hkL) ?_
    intro _ s₃ hpost
    obtain ⟨h₃, hkeep₃⟩ := hpost
    rw [erase_insert_empty] at h₃
    rw [hkeep₂.refs_eq.trans hkeep₁.refs_eq] at hkeep₃
    exact ⟨_, hkeep.trans hkeep₃, .inl ⟨rfl, h₃, hfile⟩⟩

theorem Mid.create {s₀ : FS} (hrest : Rest Z v s₀) (hB : Reach B p v) (h : Mid Z v.node v.fds 0 0 ∅ 1 v.beginOp s)
    (path : List UInt8) (htype : type ≠ .free) (major minor : Int) :
    Wp (Fs.create p path type major minor) s (fun r s' => ∃ T w, Stay v.refs v.beginOp w ∧
      ((r = none ∧ Mid Z T v.fds 0 0 ∅ 1 w s' ∧ (Z.lost = ∅ → v.Create p path type major minor none T)) ∨
      ∃ ip i, r = some ip ∧ Mid Z T v.fds 0 (ip ::ₘ 0) (insert ip ∅) 1 w s' ∧ (w.slot ip).inum = i ∧ (T i).type = type ∧
        (Z.lost = ∅ → v.Create p path type major minor (some i) T))) (Halt B) := by
  unfold Fs.create nameiparent
  refine Wp.bind (h.namex hB.beginOp path true) ?_
  intro r s₁ hpost
  obtain ⟨v₁, hkeep₁, hr⟩ := hpost
  have hk₁ : Keep v.refs v.beginOp v₁ := hkeep₁.mono (Multiset.le_add_left _ _)
  have hres : ∀ path parent, v.beginOp.resolve p path parent = v.resolve p path parent := fun _ _ => rfl
  rw [hres] at hr
  rcases hr with ⟨rfl, h₁, hno⟩ | ⟨dp, name, rfl, h₁, hlock, hsome, hdp⟩
  · exact ⟨_, v₁, hk₁.toStay, .inl ⟨rfl, h₁, fun hZ => .noDir (hno hZ)⟩⟩
  obtain ⟨-, hdir⟩ := hdp rfl
  obtain ⟨d, hd⟩ : ∃ d, (v₁.slot dp).inum = d := ⟨_, rfl⟩
  rw [hd] at hsome
  have hkL : dp ∈ insert dp (∅ : Finset IRef) := Finset.mem_insert_self _ _
  have hmem : dp ∈ (dp ::ₘ 0) + v₁.refs := by simp
  refine Wp.bind (h₁.ilock hmem hlock) ?_
  intro _ s₂ hpost
  obtain ⟨-, -, h₂, hkeep₂⟩ := hpost
  have hk₂ := hk₁.next hkeep₂
  have hd₂ : ((v₁.ilock dp).slot dp).inum = d := (hkeep₂.inum dp hmem).trans hd
  have hat := h₂.tree_at hkL
  rw [hd₂] at hat
  have ht : (v.node d).type = .dir := by
    rw [← hat, hkeep₂.inodeAt hmem]
    exact hdir
  refine Wp.bind (h₂.dirlookup hkL hd₂ ht name) ?_
  intro r s₃ hpost
  rcases hpost with ⟨rfl, rfl, hnone⟩ | ⟨ip, v₃, j, rfl, hfound, h₃, hkeep₃, hnode₃⟩
  · refine (h₂.createNew hd₂ ht hnone htype major minor).imp ?_
    intro r s₄ hpost
    obtain ⟨ip, i, w, rfl, h', hstay, hi, hne, hdead, hpos, hlt⟩ := hpost
    refine ⟨_, w, hk₂.toStay.next hstay, .inr ⟨ip, i, rfl, h', hi, ?_, fun hZ => ?_⟩⟩
    · rw [created_new hne]
      split_ifs <;> rfl
    · have hnode := hrest.node_eq hZ hk₂
      have hdead' : ¬ v.Live i := by
        unfold View.Live at hdead ⊢
        rwa [hnode] at hdead
      have hlt' : i < v.sb.ninodes := by
        rw [hk₂.sb] at hlt
        exact hlt
      exact .new (hsome hZ) hnone (hrest.st.node_dead hdead') hpos hlt'
  · obtain ⟨i, hi⟩ : ∃ i, (v₃.slot ip).inum = i := ⟨_, rfl⟩
    rw [hi] at hfound
    have hlock₃ : Lockable B ∅ v₃ ip := by
      refine ⟨fun hk => absurd hk (Finset.notMem_empty ip), fun _ hd => hB.named i ?_ ?_⟩
      · obtain ⟨de, hget, hde, hn⟩ := lookup_some hfound
        exact .inr ⟨d, ht, de, List.mem_of_getElem? hget, hde, hde ▸ hn.1⟩
      · rw [hi] at hd
        rcases h₃.tree i with heq | ⟨-, hz⟩
        · rw [← heq, h₃.st.node_dead hd]
          rfl
        · exact hz
    refine (h₃.createOld hlock₃ hi type).imp ?_
    intro r s₄ hpost
    obtain ⟨w, hkeep, hr⟩ := hpost
    have hstay := ((hk₂.next hkeep₃).next hkeep).toStay
    rcases hr with ⟨rfl, h', hno⟩ | ⟨rfl, h', hi', hfile⟩
    · exact ⟨_, w, hstay, .inl ⟨rfl, h', fun hZ => .exists (hsome hZ) hfound hno⟩⟩
    · exact ⟨_, w, hstay, .inr ⟨ip, i, rfl, h', hi', hfile.2.trans hfile.1.symm, fun hZ => .reuse (hsome hZ) hfound hfile⟩⟩

/-! ## open, mkdir and mknod -/

theorem Mid.endEnds (h : Mid Z T D 0 0 ∅ 1 v s) (hD : v.fds = D) (r : Int) {E : Stop → Prop} :
    Wp (do
      Fs.endOp
      return r) s (fun r' s' => r' = r ∧ Ends Z T s') E := by
  refine Wp.bind h.endOp ?_
  intro _ s' h'
  exact ⟨rfl, h'.ends hD⟩

/-- The descriptor that an inode is opened at; -1 if there is no `struct file` or no descriptor. -/
def View.newFd (v : View) (p : PIdx) : Int :=
  if v.freeFile = none then -1 else (v.freeFd p).elim (-1) fun fd => (fd.val : Int)

theorem newFd_eq (hf : v'.ftable = v.ftable) (hp : v'.proc = v.proc) : v'.newFd p = v.newFd p := by
  unfold View.newFd View.freeFile View.freeFd
  rw [hf, hp]

theorem Mid.openInode (h : Mid Z T D 0 (ip ::ₘ 0) (insert ip ∅) 1 v s) (hD : v.fds = D) {omode : Nat}
    (hdir : (T (v.slot ip).inum).type = .dir → omode = 0) :
    Wp (Fs.openInode p ip omode) s (fun r s' => r = v.newFd p ∧ Ends Z T s') (Halt B) := by
  have hkL : ip ∈ insert ip (∅ : Finset IRef) := Finset.mem_insert_self _ _
  rw [← h.tree_at hkL] at hdir
  unfold Fs.openInode
  refine Wp.bind h.filealloc ?_
  intro r s₁ hpost
  rcases hpost with ⟨rfl, hfull, rfl⟩ | ⟨f, rfl, hfree, hf, h₁⟩
  · refine Wp.bind (h.iunlockput hkL) ?_
    intro _ s₂ hpost
    obtain ⟨h₂, hkeep₂⟩ := hpost
    rw [erase_insert_empty] at h₂
    have hfd : v.newFd p = -1 := if_pos hfull
    rw [hfd]
    exact h₂.endEnds (hkeep₂.fds_eq.trans hD) (-1)
  have hfd : v.newFd p = (v.freeFd p).elim (-1) fun fd => (fd.val : Int) := by
    unfold View.newFd
    rw [hfree, if_neg (Option.some_ne_none f)]
  rw [hfd]
  have hnew : ((v.setFile f fun x => { x with ref := 1 }).ftable f).type = .none := by
    simp only [View.setFile, Function.update_self]
    exact h.files.unused f hf
  refine Wp.bind (h₁.fdalloc f) ?_
  intro r s₂ hpost
  rcases hpost with ⟨rfl, hnofd, rfl⟩ | ⟨fd, rfl, hsome, hnone, h₂⟩
  · refine Wp.bind (h₁.closeNew fun ht => ?_) ?_
    · rw [hnew] at ht
      cases ht
    intro _ s₃ hpost
    obtain ⟨v₃, h₃, hproc₃⟩ := hpost
    refine Wp.bind (h₃.iunlockput hkL) ?_
    intro _ s₄ hpost
    obtain ⟨h₄, hkeep₄⟩ := hpost
    rw [erase_insert_empty] at h₄
    rw [show v.freeFd p = none from hnofd]
    exact h₄.endEnds (hkeep₄.fds_eq.trans ((fds_of_proc hproc₃).trans hD)) (-1)
  rw [show v.freeFd p = some fd from hsome]
  refine Wp.bind (h₂.iunlock hkL) ?_
  intro _ s₃ hpost
  obtain ⟨h₃, hkeep₃⟩ := hpost
  rw [erase_insert_empty] at h₃
  refine Wp.bind h₃.endOp ?_
  intro _ s₄ h₄
  have hat : (View.inodeAt (View.unlock _ ip) ip) = v.inodeAt ip := hkeep₃.inodeAt (by simp)
  refine Wp.bind (h₄.setOpen hnew (hkeep₃.valid ip (by simp) (h₂.st.locked ip hkL).2).1 ?_) ?_
  · intro hd
    refine hdir ?_
    rw [← hat]
    exact hd
  intro _ s₅ h₅
  refine ⟨rfl, h₅.ends ?_⟩
  show (View.setFd _ p fd (some f)).fds = _
  rw [fds_newFd hnone]
  show f ::ₘ v.fds = _
  rw [hD]

def View.openOld (v : View) (p : PIdx) (path : List UInt8) (omode : Nat) : Int :=
  (v.resolve p path false).elim (-1) fun x => if (v.node x.1).type = .dir ∧ omode ≠ 0 then -1 else v.newFd p

/-- `open` with its result and the tree after it. A file that is created stays, also when there is no descriptor for
it. -/
def View.Open (v : View) (p : PIdx) (path : List UInt8) (omode : Nat) (r : Int) (T : Nat → Node) : Prop :=
  if hasFlag omode 0x200 then ∃ o, v.Create p path .file 0 0 o T ∧ r = if o = none then -1 else v.newFd p
  else T = v.node ∧ r = v.openOld p path omode

theorem View.Open.tree {path : List UInt8} {omode : Nat} {r : Int} (h : v.Open p path omode r T) :
    T = v.node ∨ ∃ o, v.Create p path .file 0 0 o T := by
  unfold View.Open at h
  split_ifs at h
  · obtain ⟨o, hT, -⟩ := h
    exact .inr ⟨o, hT⟩
  · exact .inl h.1

theorem sysOpen_rest (h : Rest Z v s) (hB : Reach B p v) (path : List UInt8) (omode : Nat) :
    Wp (sysOpen p path omode) s (fun r s' => ∃ T, Ends Z T s' ∧ (Z.lost = ∅ → v.Open p path omode r T)) (Halt B) := by
  unfold sysOpen View.Open
  refine Wp.bind (Mid.beginOp h) ?_
  intro _ s₁ h₁
  refine Wp.ite (fun hflag => ?_) fun hflag => ?_
  · simp only [if_pos hflag]
    refine Wp.bind (Mid.create h hB h₁ path (by decide) 0 0) ?_
    intro r s₂ hpost
    obtain ⟨T, w, hs, hr⟩ := hpost
    have hfds : w.fds = v.fds := hs.fds_eq
    rcases hr with ⟨rfl, h₂, hT⟩ | ⟨ip, i, rfl, h₂, hi, ht, hT⟩
    · refine (h₂.endEnds hfds (-1)).imp ?_
      intro r s₃ hpost
      exact ⟨T, hpost.2, fun hZ => ⟨none, hT hZ, by rw [hpost.1, if_pos rfl]⟩⟩
    · refine (h₂.openInode hfds fun hd => ?_).imp ?_
      · rw [hi, ht] at hd
        cases hd
      · intro r s₃ hpost
        have hfd : w.newFd p = v.newFd p := newFd_eq hs.ftable hs.proc
        exact ⟨T, hpost.2, fun hZ => ⟨some i, hT hZ, by rw [hpost.1, hfd, if_neg (Option.some_ne_none i)]⟩⟩
  · simp only [if_neg hflag]
    refine Wp.bind (h₁.namei hB.beginOp path) ?_
    intro r s₂ hpost
    obtain ⟨v₂, hkeep₂, hr⟩ := hpost
    have hfds₂ : v₂.fds = v.fds := hkeep₂.fds_eq
    -- the tree is what it was
    have hsame : ∀ {m : M Int} {s : FS} {x : Int}, (Z.lost = ∅ → v.openOld p path omode = x) →
        Wp m s (fun r s' => r = x ∧ Ends Z v.node s') (Halt B) →
        Wp m s (fun r s' => ∃ T, Ends Z T s' ∧ (Z.lost = ∅ → T = v.node ∧ r = v.openOld p path omode)) (Halt B) := by
      intro m s x hx hm
      refine hm.imp ?_
      intro r s' hpost
      exact ⟨_, hpost.2, fun hZ => ⟨rfl, hpost.1.trans (hx hZ).symm⟩⟩
    rcases hr with ⟨rfl, h₂, hno⟩ | ⟨ip, nm, rfl, h₂, hlock, hres⟩
    · refine hsame (fun hZ => ?_) (h₂.endEnds hfds₂ (-1))
      unfold View.openOld
      rw [show v.resolve p path false = none from hno hZ]
      rfl
    have hkL : ip ∈ insert ip (∅ : Finset IRef) := Finset.mem_insert_self _ _
    refine Wp.bind (h₂.ilock (by simp) hlock) ?_
    intro _ s₃ hpost
    obtain ⟨-, -, h₃, hkeep₃⟩ := hpost
    have hfds₃ := hkeep₃.fds_eq.trans hfds₂
    have hinum : ((v₂.ilock ip).slot ip).inum = (v₂.slot ip).inum := hkeep₃.inum ip (by simp)
    have hat := h₃.tree_at hkL
    rw [hinum] at hat
    have hold : Z.lost = ∅ → v.openOld p path omode =
        if (v.node (v₂.slot ip).inum).type = .dir ∧ omode ≠ 0 then -1 else v.newFd p := by
      intro hZ
      unfold View.openOld
      rw [show v.resolve p path false = some ((v₂.slot ip).inum, nm) from hres hZ]
      rfl
    simp only [Fs.inode, wp_bind, wp_look, h₃.st.type (h₃.st.toHeld.loaded hkL), hat]
    refine Wp.ite (fun hyes => ?_) fun hno => ?_
    · refine Wp.bind (h₃.iunlockput hkL) ?_
      intro _ s₄ hpost
      obtain ⟨h₄, hkeep₄⟩ := hpost
      rw [erase_insert_empty] at h₄
      refine hsame (fun hZ => ?_) (h₄.endEnds (hkeep₄.fds_eq.trans hfds₃) (-1))
      rw [hold hZ, if_pos hyes]
    · have hfd : (v₂.ilock ip).newFd p = v.newFd p :=
        newFd_eq (hkeep₃.ftable.trans hkeep₂.ftable) (hkeep₃.proc.trans hkeep₂.proc)
      have hopen : Wp (openInode p ip omode) s₃ (fun r s' => r = (v₂.ilock ip).newFd p ∧ Ends Z v.node s') (Halt B) := by
        apply h₃.openInode hfds₃
        intro hd
        rw [hinum] at hd
        by_contra hne
        exact hno ⟨hd, hne⟩
      rw [hfd] at hopen
      refine hsame (fun hZ => ?_) hopen
      rw [hold hZ, if_neg hno]

theorem create_made_rest (h : Rest Z v s) (hB : Reach B p v) (path : List UInt8) {type : FType} (htype : type ≠ .free)
    (major minor : Int) :
    Wp (do
      beginOp
      let r ← create p path type major minor
      made r) s (fun r s' => ∃ T o, Done Z v T s' ∧ (r = if o = none then -1 else 0) ∧
        (Z.lost = ∅ → v.Create p path type major minor o T)) (Halt B) := by
  refine Wp.bind (Mid.beginOp h) ?_
  intro _ s₁ h₁
  refine Wp.bind (Mid.create h hB h₁ path htype major minor) ?_
  intro r s₂ hpost
  obtain ⟨T, w, hs, hr⟩ := hpost
  rcases hr with ⟨rfl, h₂, hT⟩ | ⟨ip, i, rfl, h₂, hi, -, hT⟩
  · refine (h₂.endDone hs (-1)).imp ?_
    intro r s₃ hpost
    exact ⟨T, none, hpost.2, by rw [hpost.1, if_pos rfl], hT⟩
  · refine Wp.bind (h₂.iunlockput (Finset.mem_insert_self _ _)) ?_
    intro _ s₃ hpost
    obtain ⟨h₃, hkeep₃⟩ := hpost
    rw [erase_insert_empty] at h₃
    refine (h₃.endDone (hs.next hkeep₃.toStay) 0).imp ?_
    intro r s₄ hpost
    exact ⟨T, some i, hpost.2, by rw [hpost.1, if_neg (Option.some_ne_none i)], hT⟩

theorem sysMkdir_rest (h : Rest Z v s) (hB : Reach B p v) (path : List UInt8) :
    Wp (sysMkdir p path) s (fun r s' => ∃ T o, Done Z v T s' ∧ (r = if o = none then -1 else 0) ∧
      (Z.lost = ∅ → v.Create p path .dir 0 0 o T)) (Halt B) :=
  create_made_rest h hB path (by decide) 0 0

theorem sysMknod_rest (h : Rest Z v s) (hB : Reach B p v) (path : List UInt8) (major minor : Int) :
    Wp (sysMknod p path major minor) s (fun r s' => ∃ T o, Done Z v T s' ∧ (r = if o = none then -1 else 0) ∧
      (Z.lost = ∅ → v.Create p path .dev major minor o T)) (Halt B) :=
  create_made_rest h hB path (by decide) major minor

end create

end Xv6Mlfq.Fs
