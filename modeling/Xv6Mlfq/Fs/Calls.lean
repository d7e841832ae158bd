import Xv6Mlfq.Fs.OpenFiles
import Xv6Mlfq.Fs.Tree

/-!
# link and unlink

From a state at rest each of the two leads to a state at rest, whichever way it returns. If no inode has been lost before,
the tree afterwards is what `View.link` and `View.unlink` say. What the call holds on the way is in the parameters of `Mid`.
-/

namespace Xv6Mlfq.Fs

open Lib

/-- The open files and the current directories are what they were. -/
structure Left (v v' : View) : Prop where
  ftable : v'.ftable = v.ftable
  proc : v'.proc = v.proc
  inum : ∀ k ∈ v.refs, (v'.slot k).inum = (v.slot k).inum

/-- A system call from `v` has ended with the tree `T`, and has left open files and current directories alone. -/
def Done (Z : Origin) (v : View) (T : Nat → Node) (s : FS) : Prop := ∃ v', Rest Z v' s ∧ Freed T v'.node ∧ Left v v'

section calls

variable {B : Stop → Prop} {Z : Origin} {T : Nat → Node} {D N : Multiset FRef} {H : Multiset IRef} {L : Finset IRef}
  {n : Nat} {v v' w : View} {s s' : FS} {k dp ip : IRef} {p : PIdx} {name : Name} {i d j : Nat}

theorem Stay.next (h : Stay v.refs v.beginOp v') (hs : Stay (H + v'.refs) v' w) : Stay v.refs v.beginOp w := by
  have hrefs : v'.refs = v.refs := h.refs_eq
  rw [hrefs] at hs
  exact h.trans (hs.mono (Multiset.le_add_left _ _))

theorem Keep.next (h : Keep v.refs v.beginOp v') (hk : Keep (H + v'.refs) v' w) : Keep v.refs v.beginOp w := by
  have hrefs : v'.refs = v.refs := h.refs_eq
  rw [hrefs] at hk
  exact h.trans (hk.mono (Multiset.le_add_left _ _))

theorem resolve_congr (hs : Stay v.refs v.beginOp v') (hT : SameDirs v.node v'.node) (path : List UInt8) (parent : Bool) :
    v'.resolve p path parent = v.resolve p path parent := by
  have hstart : v'.startInum p path = v.startInum p path := by
    unfold View.startInum
    rw [hs.proc]
    cases hc : (v.proc p).cwd with
    | none =>
      rw [show (v.beginOp.proc p).cwd = none from hc]
      rfl
    | some k =>
      rw [show (v.beginOp.proc p).cwd = some k from hc, Option.map_some, Option.map_some, hs.inum k (mem_refs_cwd hc)]
      rfl
  unfold View.resolve
  rw [hstart]
  simp only [walk_congr hT]

theorem Rest.node_eq (h : Rest Z v s) (hZ : Z.lost = ∅) (hk : Keep v.refs v.beginOp v') : v'.node = v.node := by
  have hkeep : Keep v.refs v v'.endOp := by
    refine ⟨⟨hk.sb, hk.ftable, hk.proc, ?_, hk.inum, hk.valid, hk.known⟩, hk.node⟩
    show v'.outstanding - 1 = v.outstanding
    rw [hk.ops]
    exact add_sub_cancel_right _ _
  have ht := h.tidy
  rw [zero_add, hZ] at ht
  have hnode : v'.endOp.node = v.node := ht.node_eq h.st.toAt hkeep
  exact hnode

theorem erase_insert_empty (k : IRef) : (insert k (∅ : Finset IRef)).erase k = ∅ := by simp

theorem erase_insert_pair (h : ip ≠ dp) : (insert ip (insert dp (∅ : Finset IRef))).erase dp = insert ip ∅ := by
  rw [Finset.erase_insert_of_ne h, erase_insert_empty]

/-! ## Names -/

theorem Reach.beginOp (h : Reach B p v) : Reach B p v.beginOp := ⟨h.named, h.cwd⟩

theorem Mid.namex (h : Mid Z T D N H ∅ n v s) (hB : Reach B p v) (path : List UInt8) (parent : Bool) :
    Wp (Fs.namex p path parent) s (fun r s' => ∃ v', Keep (H + v.refs) v v' ∧
      ((r = none ∧ Mid Z T D N H ∅ n v' s' ∧ (Z.lost = ∅ → v.resolve p path parent = none)) ∨
      ∃ k name, r = some (k, name) ∧ Mid Z T D N (k ::ₘ H) ∅ n v' s' ∧ Lockable B ∅ v' k ∧
        (Z.lost = ∅ → v.resolve p path parent = some ((v'.slot k).inum, name)) ∧
        (parent = true → (v'.slot k).valid = true ∧ (v'.inodeAt k).type = .dir))) (Halt B) := by
  refine (namex_st h.st hB (fun k hk => ⟨Multiset.mem_add.mpr (.inr (mem_refs_cwd hk)), h.cwd p k hk⟩) path parent).imp ?_
  intro r s' hwalk
  cases hwalk with
  | none st keep result =>
    refine ⟨_, keep, .inl ⟨rfl, h.keep keep st (h.tidy.keep keep), fun hZ => result ?_⟩⟩
    exact hZ ▸ h.tidy
  | some st keep lock dir result =>
    rw [← Multiset.cons_add] at st
    refine ⟨_, keep, .inr ⟨_, _, rfl, h.keep keep st ?_, lock, fun hZ => result ?_, dir⟩⟩
    · rw [Multiset.cons_add]
      exact (h.tidy.keep keep).mono (Multiset.le_cons_self _ _)
    · exact hZ ▸ h.tidy

theorem Mid.namei (h : Mid Z T D N H ∅ n v s) (hB : Reach B p v) (path : List UInt8) :
    Wp (Fs.namei p path) s (fun r s' => ∃ v', Keep (H + v.refs) v v' ∧
      ((r = none ∧ Mid Z T D N H ∅ n v' s' ∧ (Z.lost = ∅ → v.resolve p path false = none)) ∨
      ∃ k name, r = some k ∧ Mid Z T D N (k ::ₘ H) ∅ n v' s' ∧ Lockable B ∅ v' k ∧
        (Z.lost = ∅ → v.resolve p path false = some ((v'.slot k).inum, name)))) (Halt B) := by
  refine Wp.bind (h.namex hB path false) ?_
  intro r s' hpost
  obtain ⟨v', hkeep, ⟨rfl, h', hno⟩ | ⟨k, name, rfl, h', hlock, hres, -⟩⟩ := hpost
  · exact ⟨v', hkeep, .inl ⟨rfl, h', hno⟩⟩
  · exact ⟨v', hkeep, .inr ⟨k, name, rfl, h', hlock, hres⟩⟩

theorem Mid.dirents_eq (h : Mid Z T D N H L n v s) (hk : dp ∈ L) (hd : (v.slot dp).inum = d) :
    v.dirents dp = entries (T d).contents := by
  unfold View.dirents
  rw [h.tree_at hk, hd]

theorem Mid.dirlookup (h : Mid Z T D N H L n v s) (hk : dp ∈ L) (hd : (v.slot dp).inum = d) (ht : (T d).type = .dir)
    (name : Name) :
    Wp (Fs.dirlookup dp name) s (fun r s' => (r = none ∧ s' = s ∧ lookup name (entries (T d).contents) = none) ∨
      ∃ k v' j, r = some (k, DESIZE * j) ∧ lookup name (entries (T d).contents) = some (j, (v'.slot k).inum) ∧
        Mid Z T D N (k ::ₘ H) L n v' s' ∧ Keep (H + v.refs) v v' ∧ v'.node = v.node) (Halt B) := by
  have hat := h.tree_at hk
  rw [hd] at hat
  rw [← h.dirents_eq hk hd]
  refine (dirlookup_st h.st hk (hat ▸ ht) name).imp ?_
  intro r s' hfound
  generalize hw : lookup name (v.dirents dp) = w at hfound
  cases hfound with
  | none => exact .inl ⟨rfl, rfl, rfl⟩
  | some st keep node =>
    rw [← Multiset.cons_add] at st
    refine .inr ⟨_, _, _, rfl, rfl, h.keep keep st ?_, keep, node⟩
    rw [Multiset.cons_add]
    exact (h.tidy.keep keep).mono (Multiset.le_cons_self _ _)

theorem Mid.dirlink (h : Mid Z T D N H L n v s) (hk : dp ∈ L) (hd : (v.slot dp).inum = d) (ht : (T d).type = .dir)
    (hi : i < v.sb.ninodes)
    (hB : ∀ j k, k ∈ L → lookup name (entries (T d).contents) = some (j, (v.slot k).inum) → B .deadlock) :
    Wp (Fs.dirlink dp name i) s (fun r s' =>
      (r = -1 ∧ lookup name (entries (T d).contents) ≠ none ∧ ∃ v', Mid Z T D N H L n v' s' ∧ Keep (H + v.refs) v v') ∨
      (r = 0 ∧ lookup name (entries (T d).contents) = none ∧
        ∃ v', Mid Z (Function.update T d ((T d).link i name)) D N H L n v' s' ∧ v'.slot = v.slot ∧
          Stay (H + v.refs) v v')) (Halt B) := by
  have hat := h.tree_at hk
  rw [hd] at hat
  rw [← h.dirents_eq hk hd] at hB ⊢
  refine (dirlink_st h.st hk (hat ▸ ht) hi hB).imp ?_
  intro r s' hlink
  cases hlink with
  | old found st keep _ =>
    refine .inl ⟨rfl, ?_, _, h.keep keep st (h.tidy.keep keep), keep⟩
    rw [found]
    exact Option.some_ne_none _
  | new none st =>
    have hstay : Stay (H + v.refs) v (v.setNode (v.slot dp).inum ((v.inodeAt dp).link i name)) := Stay.setNode h.st hk rfl
    have h' := h.setNode hk st hstay
    rw [hat, hd] at h' hstay
    exact .inr ⟨rfl, none, _, h', rfl, hstay⟩

/-! ## link -/

theorem Mid.endDone (h : Mid Z T v.fds 0 0 ∅ 1 v' s) (hs : Stay v.refs v.beginOp v') (r : Int) {E : Stop → Prop} :
    Wp (do
      Fs.endOp
      return r) s (fun r' s' => r' = r ∧ Done Z v T s') E := by
  refine Wp.bind h.endOp ?_
  intro _ s' h'
  have hfds : v'.endOp.fds = v.fds := fds_of_proc (v := v) hs.proc
  exact ⟨rfl, v'.endOp, h'.rest hfds, h.tree, hs.ftable, hs.proc, hs.inum⟩

theorem Mid.linkBad (h : Mid Z (Function.update v.node i ((v.node i).addNlink 1)) v.fds 0 (ip ::ₘ 0) ∅ 1 w s)
    (hs : Stay v.refs v.beginOp w) (hi : (w.slot ip).inum = i) (hv : (w.slot ip).valid = true) :
    Wp (Fs.linkBad ip) s (fun r s' => r = -1 ∧ ∃ T, Done Z v T s' ∧ (IsShort (v.node i).nlink → T = v.node)) (Halt B) := by
  have hkL : ip ∈ insert ip (∅ : Finset IRef) := Finset.mem_insert_self _ _
  have hip : ip ∈ (ip ::ₘ 0) + w.refs := by simp
  unfold Fs.linkBad
  refine Wp.bind (h.ilock hip (.of_valid (Finset.notMem_empty ip) hv)) ?_
  intro _ s₁ hpost
  obtain ⟨-, -, h₁, hkeep₁⟩ := hpost
  have hs₁ := hs.next hkeep₁.toStay
  have hi₁ : ((w.ilock ip).slot ip).inum = i := (hkeep₁.inum ip hip).trans hi
  refine Wp.bind (h₁.addNlink hkL (-1)) ?_
  intro _ s₂ hpost
  obtain ⟨h₂, hstay₂⟩ := hpost
  rw [hi₁, Function.update_self, Function.update_idem] at h₂
  have hs₂ := hs₁.next hstay₂
  rw [hi₁] at hs₂
  refine Wp.bind (h₂.iunlockput hkL) ?_
  intro _ s₃ hpost
  obtain ⟨h₃, hkeep₃⟩ := hpost
  rw [erase_insert_empty] at h₃
  refine (h₃.endDone (hs₂.next hkeep₃.toStay) (-1)).imp ?_
  intro r s₄ hpost
  refine ⟨hpost.1, _, hpost.2, fun hshort => ?_⟩
  rw [addNlink_back hshort, Function.update_eq_self]

theorem Mid.linkNew (h : Mid Z (Function.update v.node i ((v.node i).addNlink 1)) v.fds 0 (ip ::ₘ 0) ∅ 1 w s)
    (hB : Reach B p w)
    (hs : Stay v.refs v.beginOp w) (hi : (w.slot ip).inum = i) (hv : (w.slot ip).valid = true)
    (hw : Z.lost = ∅ → w.node = Function.update v.node i ((v.node i).addNlink 1)) (new : List UInt8)
    (hself : ∀ d name j, (Z.lost = ∅ → v.resolve p new true = some (d, name)) →
      lookup name (entries (v.node d).contents) = some (j, d) → B .deadlock) :
    Wp (Fs.linkNew p ip new) s (fun r s' => ∃ T, Done Z v T s' ∧
      ((r = -1 ∧ (IsShort (v.node i).nlink → T = v.node) ∧ (Z.lost = ∅ → ∀ y, v.resolve p new true = some y →
          lookup y.2 (entries (v.node y.1).contents) ≠ none)) ∨
        ∃ d name, r = 0 ∧ T = linked v.node i d name ∧ (Z.lost = ∅ → v.resolve p new true = some (d, name)) ∧
          lookup name (entries (v.node d).contents) = none)) (Halt B) := by
  obtain ⟨T₁, hT₁⟩ : ∃ T₁, Function.update v.node i ((v.node i).addNlink 1) = T₁ := ⟨_, rfl⟩
  have hsame : SameDirs v.node T₁ := by
    intro m
    rw [← hT₁]
    by_cases hm : m = i
    · rw [hm, Function.update_self]
      exact ⟨rfl, rfl⟩
    · rw [Function.update_of_ne hm]
      exact ⟨rfl, rfl⟩
  have hres : Z.lost = ∅ → w.resolve p new true = v.resolve p new true := by
    intro hZ
    refine resolve_congr hs ?_ new true
    rw [hw hZ, hT₁]
    exact hsame
  have hip : ip ∈ (ip ::ₘ 0) + w.refs := by simp
  unfold Fs.linkNew nameiparent
  refine Wp.bind (h.namex hB new true) ?_
  intro r s₁ hpost
  obtain ⟨v₁, hkeep₁, hr⟩ := hpost
  have hs₁ := hs.next hkeep₁.toStay
  have hi₁ : (v₁.slot ip).inum = i := (hkeep₁.inum ip hip).trans hi
  have hv₁ := (hkeep₁.valid ip hip hv).1
  rcases hr with ⟨rfl, h₁, hno⟩ | ⟨dp, name, rfl, h₁, hlock, hsome, hdp⟩
  · refine (h₁.linkBad hs₁ hi₁ hv₁).imp ?_
    intro r s₂ hpost
    obtain ⟨hr, T, hdone, hT⟩ := hpost
    refine ⟨T, hdone, .inl ⟨hr, hT, fun hZ y hy => ?_⟩⟩
    rw [← hres hZ, hno hZ] at hy
    cases hy
  have hvd := (hdp rfl).1
  obtain ⟨d, hd⟩ : ∃ d, (v₁.slot dp).inum = d := ⟨_, rfl⟩
  rw [hd] at hsome
  have hkL : dp ∈ insert dp (∅ : Finset IRef) := Finset.mem_insert_self _ _
  have hmem : dp ∈ (dp ::ₘ ip ::ₘ 0) + v₁.refs := by simp
  have hip₁ : ip ∈ (dp ::ₘ ip ::ₘ 0) + v₁.refs := by simp
  refine Wp.bind (h₁.ilock hmem hlock) ?_
  intro _ s₂ hpost
  obtain ⟨-, hlive, h₂, hkeep₂⟩ := hpost
  have hs₂ := hs₁.next hkeep₂.toStay
  have hd₂ : ((v₁.ilock dp).slot dp).inum = d := (hkeep₂.inum dp hmem).trans hd
  have hi₂ : ((v₁.ilock dp).slot ip).inum = i := (hkeep₂.inum ip hip₁).trans hi₁
  have hv₂ := (hkeep₂.valid ip hip₁ hv₁).1
  rw [hT₁] at h₂
  have hdir : (T₁ d).type = .dir := by
    have hat := h₂.tree_at hkL
    rw [hd₂] at hat
    rw [← hat, hkeep₂.inodeAt hmem]
    exact (hdp rfl).2
  have hinum : (s₂.icache ip).inum = i := (h₂.st.toAt.inum ip).trans hi₂
  have hlt : i < (v₁.ilock dp).sb.ninodes := hi₂ ▸ h₂.st.toHeld.inum ip (by simp)
  simp only [Fs.inode, wp_bind, wp_look, hinum]
  refine (h₂.dirlink hkL hd₂ hdir hlt ?_).imp ?_
  · intro j k hk hfound
    rw [Finset.mem_singleton.mp hk, hd₂, (hsame d).2] at hfound
    exact hself d name j (fun hZ => hres hZ ▸ hsome hZ) hfound
  intro r s₃ hpost
  rw [(hsame d).2] at hpost
  rcases hpost with ⟨rfl, hold, v₃, h₃, hkeep₃⟩ | ⟨rfl, hnew, v₃, h₃, hslot₃, hstay₃⟩
  · rw [if_pos (by decide)]
    refine Wp.bind (h₃.iunlockput hkL) ?_
    intro _ s₄ hpost
    obtain ⟨h₄, hkeep₄⟩ := hpost
    rw [erase_insert_empty, ← hT₁] at h₄
    have hi₃ : (v₃.slot ip).inum = i := (hkeep₃.inum ip (by simp)).trans hi₂
    have hv₃ := (hkeep₃.valid ip (by simp) hv₂).1
    refine (h₄.linkBad ((hs₂.next hkeep₃.toStay).next hkeep₄.toStay) ((hkeep₄.inum ip (by simp)).trans hi₃)
      (hkeep₄.valid ip (by simp) hv₃).1).imp ?_
    intro r s₅ hpost
    obtain ⟨hr, T, hdone, hT⟩ := hpost
    refine ⟨T, hdone, .inl ⟨hr, hT, fun hZ y hy => ?_⟩⟩
    rw [← hres hZ, hsome hZ] at hy
    cases hy
    exact hold
  · rw [if_neg (by decide)]
    refine Wp.bind (h₃.iunlockput hkL) ?_
    intro _ s₄ hpost
    obtain ⟨h₄, hkeep₄⟩ := hpost
    rw [erase_insert_empty] at h₄
    have hs₄ := (hs₂.next hstay₃).next hkeep₄.toStay
    -- the file has been locked before, so its entry is valid
    have hv₄ := (hkeep₄.valid ip (by simp) (hslot₃ ▸ hv₂)).1
    refine Wp.bind (h₄.iput (.inl hv₄) fun hk => absurd hk (Finset.notMem_empty ip)) ?_
    intro _ s₅ hpost
    obtain ⟨h₅, hkeep₅⟩ := hpost
    refine (h₅.endDone (hs₄.next hkeep₅.toStay) 0).imp ?_
    intro r s₆ hpost
    refine ⟨_, hpost.2, .inr ⟨d, name, hpost.1, ?_, fun hZ => hres hZ ▸ hsome hZ, hnew⟩⟩
    rw [← hT₁]
    rfl

/-- Every inode that a path leads to has links, and the counts are values of a `short`. -/
structure Sound (B : Stop → Prop) (p : PIdx) (v : View) : Prop where
  reach : Reach B p v
  low : ∀ i, Named v.node i → (v.node i).nlink < 1 → B (.panic "ilock: no type") ∧ B (.panic "unlink: nlink < 1")
  short : ∀ i, ¬ IsShort (v.node i).nlink → B (.panic "ilock: no type")

theorem Sound.linked (h : Sound B p v) {T : Nat → Node} (hT : Freed (Function.update v.node i ((v.node i).addNlink 1)) T)
    (hw : w.node = T) (hproc : w.proc = v.proc) : Reach B p w := by
  subst hw
  refine ⟨fun m hn hz => ?_, fun hc => h.reach.cwd (hproc ▸ hc)⟩
  have hsame : ∀ m, w.node m ≠ .none → (w.node m).type = (v.node m).type ∧ (w.node m).contents = (v.node m).contents := by
    intro m hne
    rcases hT m with heq | ⟨hnone, -⟩
    · rw [heq]
      by_cases hm : m = i
      · rw [hm, Function.update_self]
        exact ⟨rfl, rfl⟩
      · rw [Function.update_of_ne hm]
        exact ⟨rfl, rfl⟩
    · exact absurd hnone hne
  have hn' : Named v.node m := by
    refine hn.imp_right ?_
    intro hent
    obtain ⟨d, hd, de, hde, hi⟩ := hent
    obtain ⟨ht, hc⟩ := hsame d (fun hnone => by rw [hnone] at hd; cases hd)
    exact ⟨d, ht ▸ hd, de, hc ▸ hde, hi⟩
  by_cases hm : m = i
  · -- the count is 0 after the link only if it was -1 before
    by_cases hshort : IsShort (v.node m).nlink
    · refine (h.low m hn' ?_).1
      have hzero : ((Function.update v.node i ((v.node i).addNlink 1)) m).nlink = 0 := by
        rcases hT m with heq | ⟨-, hzero⟩
        · rw [← heq]
          exact hz
        · exact hzero
      rw [hm, Function.update_self] at hzero
      obtain ⟨-, q, hq⟩ := short_spec ((v.node i).nlink + 1)
      rw [hm] at hshort ⊢
      change Fs.short ((v.node i).nlink + 1) = 0 at hzero
      unfold IsShort at hshort
      omega
    · exact h.short m hshort
  · refine h.reach.named m hn' ?_
    rcases hT m with heq | ⟨-, hzero⟩
    · rw [heq, Function.update_of_ne hm] at hz
      exact hz
    · rw [Function.update_of_ne hm] at hzero
      exact hzero

theorem sysLink_rest (h : Rest Z v s) (hB : Sound B p v) (old new : List UInt8)
    (hself : ∀ d name j, (Z.lost = ∅ → v.resolve p new true = some (d, name)) →
      lookup name (entries (v.node d).contents) = some (j, d) → B .deadlock) :
    Wp (sysLink p old new) s (fun r s' => ∃ T, Done Z v T s' ∧ (Z.lost = ∅ → (∀ i, IsShort (v.node i).nlink) →
      (r = 0 ∧ v.link p old new = some T) ∨ (r = -1 ∧ T = v.node ∧ v.link p old new = none))) (Halt B) := by
  unfold sysLink
  refine Wp.bind (Mid.beginOp h) ?_
  intro _ s₁ h₁
  refine Wp.bind (h₁.namei hB.reach.beginOp old) ?_
  intro r s₂ hpost
  obtain ⟨v₂, hkeep₂, hr⟩ := hpost
  have hk₂ : Keep v.refs v.beginOp v₂ := hkeep₂.mono (Multiset.le_add_left _ _)
  have hres : ∀ path parent, v.beginOp.resolve p path parent = v.resolve p path parent := fun _ _ => rfl
  rw [hres] at hr
  rcases hr with ⟨rfl, h₂, hno⟩ | ⟨ip, nm, rfl, h₂, hlock, hsome⟩
  · refine (h₂.endDone hk₂.toStay (-1)).imp ?_
    intro r s₃ hpost
    refine ⟨_, hpost.2, fun hZ _ => .inr ⟨hpost.1, rfl, ?_⟩⟩
    unfold View.link
    rw [hno hZ]
    rfl
  obtain ⟨i, hi⟩ : ∃ i, (v₂.slot ip).inum = i := ⟨_, rfl⟩
  rw [hi] at hsome
  have hkL : ip ∈ insert ip (∅ : Finset IRef) := Finset.mem_insert_self _ _
  have hmem : ip ∈ (ip ::ₘ 0) + v₂.refs := by simp
  refine Wp.bind (h₂.ilock hmem hlock) ?_
  intro _ s₃ hpost
  obtain ⟨-, -, h₃, hkeep₃⟩ := hpost
  have hk₃ := hk₂.next hkeep₃
  have hi₃ : ((v₂.ilock ip).slot ip).inum = i := (hkeep₃.inum ip hmem).trans hi
  have hat := h₃.tree_at hkL
  rw [hi₃] at hat
  simp only [Fs.inode, wp_bind, wp_look, h₃.st.type (h₃.st.toHeld.loaded hkL), hat]
  refine Wp.ite (fun hdir => ?_) fun hdir => ?_
  · refine Wp.bind (h₃.iunlockput hkL) ?_
    intro _ s₄ hpost
    obtain ⟨h₄, hkeep₄⟩ := hpost
    rw [erase_insert_empty] at h₄
    refine (h₄.endDone (hk₃.next hkeep₄).toStay (-1)).imp ?_
    intro r s₅ hpost
    refine ⟨_, hpost.2, fun hZ _ => .inr ⟨hpost.1, rfl, ?_⟩⟩
    unfold View.link
    rw [hsome hZ, Option.bind_some, if_pos hdir]
  · refine Wp.bind (h₃.addNlink hkL 1) ?_
    intro _ s₄ hpost
    obtain ⟨h₄, hstay₄⟩ := hpost
    rw [hi₃] at h₄ hstay₄
    refine Wp.bind (h₄.iunlock hkL) ?_
    intro _ s₅ hpost
    obtain ⟨h₅, hkeep₅⟩ := hpost
    rw [erase_insert_empty] at h₅
    have hs₅ := (hk₃.toStay.next hstay₄).next hkeep₅.toStay
    have hi₅ := (hkeep₅.inum ip (by simp)).trans hi₃
    refine (h₅.linkNew (hB.linked h₅.tree rfl hs₅.proc) hs₅ hi₅ (hkeep₅.valid ip (by simp) (h₄.st.locked ip hkL).2).1
      ?_ new hself).imp ?_
    · intro hZ
      show Function.update (v₂.ilock ip).node i _ = _
      rw [h.node_eq hZ hk₃, hat]
    · intro r s₆ hpost
      obtain ⟨T, hdone, hcase⟩ := hpost
      refine ⟨T, hdone, fun hZ hshort => ?_⟩
      unfold View.link
      rw [hsome hZ, Option.bind_some, if_neg hdir]
      rcases hcase with ⟨hr, hT, hno⟩ | ⟨d, name, hr, hT, hnew, hnone⟩
      · refine .inr ⟨hr, hT (hshort i), ?_⟩
        cases hy : v.resolve p new true with
        | none => rfl
        | some y => rw [Option.bind_some, if_neg (hno hZ y hy)]
      · refine .inl ⟨hr, ?_⟩
        rw [hnew hZ, Option.bind_some, if_pos hnone, hT]

/-! ## unlink -/

theorem isdiremptyLoop_st {R : Multiset IRef} (h : St R L v s) (hk : dp ∈ L) (hd : (v.inodeAt dp).type = .dir) (fuel : Nat)
    {E : Stop → Prop} : ∀ j, j + fuel = (v.dirents dp).length ∨ fuel = 0 ∧ (v.dirents dp).length ≤ j →
      Wp (isdiremptyLoop dp fuel (DESIZE * j)) s (fun r s' => s' = s ∧ (r = true ↔ EmptyFrom j (v.dirents dp))) E := by
  induction fuel with
  | zero =>
    intro j hj
    refine ⟨rfl, iff_of_true rfl ?_⟩
    unfold EmptyFrom
    rw [List.drop_eq_nil_of_le (by omega)]
    exact fun _ hde => absurd hde List.not_mem_nil
  | succ fuel ih =>
    intro j hj
    have hlt : j < (v.dirents dp).length := by omega
    obtain ⟨de, hget, -, hdrop⟩ := drop_dirents hlt
    have hiff : EmptyFrom j (v.dirents dp) ↔ de.inum = 0 ∧ EmptyFrom (j + 1) (v.dirents dp) := by
      unfold EmptyFrom
      rw [hdrop, List.forall_mem_cons]
    unfold isdiremptyLoop
    refine Wp.bind (readDirent_st h hk hd (by omega) "isdirempty: readi") ?_
    intro de' s₁ hpost
    obtain ⟨rfl, hde⟩ := hpost
    obtain rfl : de' = de := Option.some.inj (hde.symm.trans hget)
    rw [hiff]
    refine Wp.ite (fun hne => ?_) fun hz => ?_
    · exact ⟨rfl, iff_of_false Bool.false_ne_true fun hand => hne hand.1⟩
    · refine (ih (j + 1) (by omega)).imp ?_
      intro r s₂ hpost
      rw [hpost.2]
      exact ⟨hpost.1, by rw [and_iff_right (not_not.mp hz)]⟩

theorem nonEmptyDir_st {R : Multiset IRef} (h : St R L v s) (hk : ip ∈ L) {E : Stop → Prop} :
    Wp (nonEmptyDir ip) s (fun r s' => s' = s ∧
      (r = true ↔ (v.inodeAt ip).type = .dir ∧ ¬ EmptyFrom 2 (v.dirents ip))) E := by
  unfold nonEmptyDir
  simp only [Fs.inode, wp_bind, wp_look, h.type (h.toHeld.loaded hk)]
  refine Wp.ite (fun hd => ?_) fun hd => ?_
  · unfold isdirempty
    simp only [Fs.inode, wp_bind, wp_look, h.size (h.toHeld.loaded hk), direntsIn_eq h hd]
    refine (isdiremptyLoop_st h hk hd _ 2 (by omega)).imp ?_
    intro r s₁ hpost
    refine ⟨hpost.1, ?_⟩
    rw [and_iff_right hd, ← hpost.2]
    simp
  · exact ⟨rfl, iff_of_false Bool.false_ne_true fun hand => hd hand.1⟩

theorem Mid.unlinkBad (h : Mid Z T v.fds 0 (dp ::ₘ 0) (insert dp ∅) 1 w s) (hs : Stay v.refs v.beginOp w) :
    Wp (Fs.unlinkBad dp) s (fun r s' => r = -1 ∧ Done Z v T s') (Halt B) := by
  unfold Fs.unlinkBad
  refine Wp.bind (h.iunlockput (Finset.mem_insert_self _ _)) ?_
  intro _ s₁ hpost
  obtain ⟨h₁, hkeep₁⟩ := hpost
  rw [erase_insert_empty] at h₁
  exact h₁.endDone (hs.next hkeep₁.toStay) (-1)

theorem Mid.dropParent (h : Mid Z T D N H L n v s) (hdp : dp ∈ L) (hip : ip ∈ L) (hi : (v.slot ip).inum = i)
    (hd : (v.slot dp).inum = d) {E : Stop → Prop} :
    Wp (Fs.dropParent dp ip) s (fun _ s' => ∃ v',
      Mid Z (if (T i).type = .dir then Function.update T d ((T d).addNlink (-1)) else T) D N H L n v' s' ∧
        v'.slot = v.slot ∧ Stay (H + v.refs) v v') E := by
  have hat := h.tree_at hip
  rw [hi] at hat
  unfold Fs.dropParent
  simp only [Fs.inode, wp_bind, wp_look, h.st.type (h.st.toHeld.loaded hip), hat]
  refine Wp.ite (fun hdir => ?_) fun hdir => ?_
  · refine (h.addNlink hdp (-1)).imp ?_
    intro _ s' hpost
    rw [if_pos hdir, ← hd]
    exact ⟨_, hpost.1, rfl, hpost.2⟩
  · rw [if_neg hdir]
    exact ⟨v, h, rfl, .refl _ v⟩

theorem Mid.unlinkEntry (h : Mid Z v.node v.fds 0 (ip ::ₘ dp ::ₘ 0) (insert dp ∅) 1 w s) (hs : Stay v.refs v.beginOp w)
    (hB : Lockable B (insert dp ∅) w ip) (hlow : (v.node i).nlink < 1 → B (.panic "unlink: nlink < 1"))
    (hi : (w.slot ip).inum = i) (hd : (w.slot dp).inum = d) (ht : (v.node d).type = .dir)
    (hj : j < (entries (v.node d).contents).length) :
    Wp (Fs.unlinkEntry dp ip (DESIZE * j)) s (fun r s' =>
      (r = -1 ∧ Done Z v v.node s' ∧ (v.node i).type = .dir ∧ ¬ EmptyFrom 2 (entries (v.node i).contents)) ∨
      (r = 0 ∧ Done Z v (unlinked v.node i d j) s' ∧ 1 ≤ (v.node i).nlink ∧
        ¬ ((v.node i).type = .dir ∧ ¬ EmptyFrom 2 (entries (v.node i).contents)))) (Halt B) := by
  have hmem : dp ∈ (ip ::ₘ dp ::ₘ 0) + w.refs := by simp
  have hmemi : ip ∈ (ip ::ₘ dp ::ₘ 0) + w.refs := by simp
  unfold Fs.unlinkEntry
  refine Wp.bind (h.ilock hmemi hB) ?_
  intro _ s₁ hpost
  obtain ⟨hne, -, h₁, hkeep₁⟩ := hpost
  have hne : ip ≠ dp := by simpa using hne
  have hs₁ := hs.next hkeep₁.toStay
  have hip : ip ∈ insert ip (insert dp (∅ : Finset IRef)) := Finset.mem_insert_self _ _
  have hdp : dp ∈ insert ip (insert dp (∅ : Finset IRef)) := Finset.mem_insert_of_mem (Finset.mem_insert_self _ _)
  have herase_ip : (insert ip (insert dp (∅ : Finset IRef))).erase ip = insert dp ∅ := by simp [hne]
  have hi₁ : ((w.ilock ip).slot ip).inum = i := (hkeep₁.inum ip hmemi).trans hi
  have hd₁ : ((w.ilock ip).slot dp).inum = d := (hkeep₁.inum dp hmem).trans hd
  have hati := h₁.tree_at hip
  have hatd := h₁.tree_at hdp
  rw [hi₁] at hati
  rw [hd₁] at hatd
  have hdirents : (w.ilock ip).dirents ip = entries (v.node i).contents := h₁.dirents_eq hip hi₁
  simp only [Fs.inode, wp_bind, wp_look, h₁.st.nlink (h₁.st.toHeld.loaded hip), hati]
  refine Wp.ite (fun hlt => .fault (hlow hlt)) fun hge => ?_
  refine Wp.bind (nonEmptyDir_st h₁.st hip) ?_
  intro r s₂ hpost
  obtain ⟨rfl, hr⟩ := hpost
  rw [hati, hdirents] at hr
  refine Wp.ite (fun hfull => ?_) fun hempty => ?_
  · refine Wp.bind (h₁.iunlockput hip) ?_
    intro _ s₃ hpost
    obtain ⟨h₃, hkeep₃⟩ := hpost
    rw [herase_ip] at h₃
    refine (h₃.unlinkBad (hs₁.next hkeep₃.toStay)).imp ?_
    intro r s₄ hpost
    exact .inl ⟨hpost.1, hpost.2, hr.mp hfull⟩
  · have hd₂ : ((w.ilock ip).inodeAt dp).type = .dir := by rw [hatd]; exact ht
    have hj₁ : j < (entries ((w.ilock ip).inodeAt dp).contents).length := by rw [hatd]; exact hj
    have hdir := h₁.st.dirs _ hd₂
    have hwrite := write_zero hd₂ (h₁.st.length_le _) hj₁
    refine Wp.bind (h₁.writei hdp (DESIZE * j) Dirent.zero.encode fun _ => ?_) ?_
    · rw [hwrite]
      exact hdir.unlink hj₁ (Nat.zero_lt_of_lt h₁.st.root)
    intro r s₃ hpost
    obtain ⟨rfl, h₃, hstay₃⟩ := hpost
    have hwrite' : (v.node d).write (DESIZE * j) Dirent.zero.encode = (some DESIZE, (v.node d).unlink j) := hatd ▸ hwrite
    rw [hwrite] at h₃ hstay₃ ⊢
    rw [hd₁, hwrite'] at h₃
    rw [hd₁] at hstay₃
    rw [if_neg (by simp)]
    have hs₃ := hs₁.next hstay₃
    refine Wp.bind (h₃.dropParent hdp hip hi₁ hd₁) ?_
    intro _ s₄ hpost
    obtain ⟨v₄, h₄, hslot₄, hstay₄⟩ := hpost
    have hs₄ := hs₃.next hstay₄
    rw [Multiset.cons_swap] at h₄
    refine Wp.bind (h₄.iunlockput hdp) ?_
    intro _ s₅ hpost
    obtain ⟨h₅, hkeep₅⟩ := hpost
    rw [erase_insert_pair hne] at h₅
    have hs₅ := hs₄.next hkeep₅.toStay
    have hi₅ : (((v₄.unlock dp).put dp).slot ip).inum = i := by
      rw [hkeep₅.inum ip (by simp), hslot₄]
      exact hi₁
    refine Wp.bind (h₅.addNlink (Finset.mem_insert_self _ _) (-1)) ?_
    intro _ s₆ hpost
    obtain ⟨h₆, hstay₆⟩ := hpost
    rw [hi₅] at h₆ hstay₆
    refine Wp.bind (h₆.iunlockput (Finset.mem_insert_self _ _)) ?_
    intro _ s₇ hpost
    obtain ⟨h₇, hkeep₇⟩ := hpost
    rw [erase_insert_empty] at h₇
    refine (h₇.endDone ((hs₅.next hstay₆).next hkeep₇.toStay) 0).imp ?_
    intro r s₈ hpost
    exact .inr ⟨hpost.1, hpost.2, by omega, fun hno => hempty (hr.mpr hno)⟩

theorem sysUnlink_rest (h : Rest Z v s) (hB : Sound B p v) (path : List UInt8)
    (hself : ∀ d name j, (Z.lost = ∅ → v.resolve p path true = some (d, name)) → namecmp name dot ≠ 0 →
      namecmp name dotdot ≠ 0 →
      lookup name (entries (v.node d).contents) = some (j, d) → B .deadlock) :
    Wp (sysUnlink p path) s (fun r s' => ∃ T, Done Z v T s' ∧ (Z.lost = ∅ →
      (r = 0 ∧ v.unlink p path = some T) ∨ (r = -1 ∧ T = v.node ∧ v.unlink p path = none))) (Halt B) := by
  unfold sysUnlink nameiparent
  refine Wp.bind (Mid.beginOp h) ?_
  intro _ s₁ h₁
  refine Wp.bind (h₁.namex hB.reach.beginOp path true) ?_
  intro r s₂ hpost
  obtain ⟨v₂, hkeep₂, hr⟩ := hpost
  have hk₂ : Keep v.refs v.beginOp v₂ := hkeep₂.mono (Multiset.le_add_left _ _)
  have hres : ∀ path parent, v.beginOp.resolve p path parent = v.resolve p path parent := fun _ _ => rfl
  rw [hres] at hr
  rcases hr with ⟨rfl, h₂, hno⟩ | ⟨dp, name, rfl, h₂, hlock, hsome, hdp⟩
  · refine (h₂.endDone hk₂.toStay (-1)).imp ?_
    intro r s₃ hpost
    refine ⟨_, hpost.2, fun hZ => .inr ⟨hpost.1, rfl, ?_⟩⟩
    unfold View.unlink
    rw [hno hZ]
    rfl
  obtain ⟨hvd, hdir⟩ := hdp rfl
  obtain ⟨d, hd⟩ : ∃ d, (v₂.slot dp).inum = d := ⟨_, rfl⟩
  rw [hd] at hsome
  have hkL : dp ∈ insert dp (∅ : Finset IRef) := Finset.mem_insert_self _ _
  have hmem : dp ∈ (dp ::ₘ 0) + v₂.refs := by simp
  refine Wp.bind (h₂.ilock hmem hlock) ?_
  intro _ s₃ hpost
  obtain ⟨-, -, h₃, hkeep₃⟩ := hpost
  have hk₃ := hk₂.next hkeep₃
  have hd₃ : ((v₂.ilock dp).slot dp).inum = d := (hkeep₃.inum dp hmem).trans hd
  have hat := h₃.tree_at hkL
  rw [hd₃] at hat
  have ht : (v.node d).type = .dir := by
    rw [← hat, hkeep₃.inodeAt hmem]
    exact hdir
  -- the ways in which nothing changes
  have hfail : ∀ {m : M Int}, (Z.lost = ∅ → v.unlink p path = none) → Wp m s₃ (fun r s' => r = -1 ∧ Done Z v v.node s')
    (Halt B) →
      Wp m s₃ (fun r s' => ∃ T, Done Z v T s' ∧ (Z.lost = ∅ → (r = 0 ∧ v.unlink p path = some T) ∨
        (r = -1 ∧ T = v.node ∧ v.unlink p path = none))) (Halt B) := by
    intro m hnone hm
    refine hm.imp ?_
    intro r s' hpost
    exact ⟨_, hpost.2, fun hZ => .inr ⟨hpost.1, rfl, hnone hZ⟩⟩
  refine Wp.ite (fun hdots => ?_) fun hdots => ?_
  · refine hfail (fun hZ => ?_) (h₃.unlinkBad hk₃.toStay)
    unfold View.unlink
    rw [hsome hZ, Option.bind_some, if_pos hdots]
  rw [not_or] at hdots
  refine Wp.bind (h₃.dirlookup hkL hd₃ ht name) ?_
  intro r s₄ hpost
  rcases hpost with ⟨rfl, rfl, hnone⟩ | ⟨ip, v₄, j, rfl, hfound, h₄, hkeep₄, hnode₄⟩
  · refine hfail (fun hZ => ?_) (h₃.unlinkBad hk₃.toStay)
    unfold View.unlink
    rw [hsome hZ, Option.bind_some, if_neg (not_or.mpr hdots), hnone]
    rfl
  · have hd₄ : (v₄.slot dp).inum = d := (hkeep₄.inum dp (by simp)).trans hd₃
    obtain ⟨i, hi⟩ : ∃ i, (v₄.slot ip).inum = i := ⟨_, rfl⟩
    rw [hi] at hfound
    have hnamed : Named v.node i := by
      obtain ⟨de, hget, hde, hn⟩ := lookup_some hfound
      exact .inr ⟨d, ht, de, List.mem_of_getElem? hget, hde, hde ▸ hn.1⟩
    have hk₄ := hk₃.next hkeep₄
    have hlock₄ : Lockable B (insert dp ∅) v₄ ip := by
      refine ⟨fun hk => ?_, fun _ hdead => hB.reach.named i hnamed ?_⟩
      · rw [Finset.mem_singleton.mp hk, hd₄] at hi
        rw [← hi] at hfound
        exact hself d name j hsome hdots.1 hdots.2 hfound
      · rw [hi] at hdead
        rcases h₄.tree i with heq | ⟨-, hz⟩
        · rw [← heq, h₄.st.node_dead hdead]
          rfl
        · exact hz
    refine (h₄.unlinkEntry hk₄.toStay hlock₄ (fun hlow => (hB.low i hnamed hlow).2) hi hd₄ ht (lookup_lt hfound)).imp ?_
    intro r s₅ hpost
    have hspec : Z.lost = ∅ → v.unlink p path = if (v.node i).type = .dir ∧
      ¬ EmptyFrom 2 (entries (v.node i).contents) then none
        else some (unlinked v.node i d j) := by
      intro hZ
      unfold View.unlink
      rw [hsome hZ, Option.bind_some, if_neg (not_or.mpr hdots), hfound]
      rfl
    rcases hpost with ⟨hr, hdone, hfull⟩ | ⟨hr, hdone, -, hempty⟩
    · exact ⟨_, hdone, fun hZ => .inr ⟨hr, rfl, (hspec hZ).trans (if_pos hfull)⟩⟩
    · exact ⟨_, hdone, fun hZ => .inl ⟨hr, (hspec hZ).trans (if_neg hempty)⟩⟩

end calls

end Xv6Mlfq.Fs
