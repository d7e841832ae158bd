import Xv6Mlfq.Fs.Cache
import Xv6Mlfq.Fs.DirMap

/-!
# References and locks during a system call

`St R L v s`: the state is good and `v` is its view, `R` are the references to entries of the inode cache (those of
open files, of current directories and of the system call itself) and `L` the locks that the call has taken. So a
function of the inode layer is a move of references and locks: `iget` adds a reference to `R`, `iput` takes one away.

`Stay R v v'` says what a call leaves to the owners of the references in `R`: the entry is still for the same inode,
and the inode has the same type. `Keep R v v'` says in addition that no inode has changed; one without links that
nobody refers to may have been freed. `Halt B` are the reasons for which a system call may not return: `B` are those
that a sound tree of directories excludes.
-/

namespace Xv6Mlfq.Fs

open Lib

/-- Why a system call may not return: something is used up, or a reason in `B`. The other panics of fs.c, file.c and
sysfile.c are never reached. -/
inductive Halt (B : Stop → Prop) : Stop → Prop
  | iget : Halt B (.panic "iget: no inodes")
  | ialloc : Halt B (.panic "ialloc: no inodes")
  | balloc : Halt B (.panic "balloc: out of blocks")
  /-- The directory has `MAXFILE` blocks. -/
  | dirlink : Halt B (.panic "dirlink")
  | init : Halt B (.panic "init exiting")
  | fault {e : Stop} (h : B e) : Halt B e

theorem Halt.of_panic {B : Stop → Prop} {msg : String} (h : Halt B (.panic msg))
    (hmsg : msg ∉ ["iget: no inodes", "ialloc: no inodes", "balloc: out of blocks", "dirlink", "init exiting"]) :
    B (.panic msg) := by
  cases h with
  | iget => exact absurd (by decide) hmsg
  | ialloc => exact absurd (by decide) hmsg
  | balloc => exact absurd (by decide) hmsg
  | dirlink => exact absurd (by decide) hmsg
  | init => exact absurd (by decide) hmsg
  | fault hB => exact hB

/-- The contents of a directory: whole entries, with numbers of inodes and different keys. -/
structure DirOk (sb : Superblock) (bs : List UInt8) : Prop where
  whole : DESIZE ∣ bs.length
  inum : ∀ de ∈ entries bs, de.inum < sb.ninodes
  distinct : Distinct (entries bs)

theorem DirOk.nil (sb : Superblock) : DirOk sb [] :=
  ⟨Nat.dvd_zero _, fun _ hde => absurd hde List.not_mem_nil, Distinct.nil⟩

theorem At.node_dead {v : View} {s : FS} {i : Nat} (h : At v s) (hi : ¬ v.Live i) : v.node i = .none := by
  rw [← h.live] at hi
  rw [← h.node]
  exact if_neg hi

/-- `R` are the references to inodes, `L` the locks taken. -/
structure Held (R : Multiset IRef) (L : Finset IRef) (v : View) : Prop where
  ref : ∀ k, (v.slot k).ref = R.count k
  lock : ∀ k, (v.slot k).lock = true ↔ k ∈ L
  locked : ∀ k ∈ L, k ∈ R ∧ (v.slot k).valid = true
  inum : ∀ k ∈ R, (v.slot k).inum < v.sb.ninodes
  root : ROOTINO < v.sb.ninodes
  dirs : ∀ i, (v.node i).type = .dir → DirOk v.sb (v.node i).contents

/-- A good state with its view, the references and the locks. -/
structure St (R : Multiset IRef) (L : Finset IRef) (v : View) (s : FS) : Prop extends At v s, Held R L v

/-- The inode in entry `k` has been read, or it has links; so `iput` does not lose it. -/
def View.Known (v : View) (k : IRef) : Prop := (v.slot k).valid = true ∨ (v.inodeAt k).nlink ≠ 0

/-- What is left to the owners of the references in `R`. -/
structure Stay (R : Multiset IRef) (v v' : View) : Prop where
  sb : v'.sb = v.sb
  ftable : v'.ftable = v.ftable
  proc : v'.proc = v.proc
  ops : v'.outstanding = v.outstanding
  inum : ∀ k ∈ R, (v'.slot k).inum = (v.slot k).inum
  valid : ∀ k ∈ R, (v.slot k).valid = true → (v'.slot k).valid = true ∧ (v'.inodeAt k).type = (v.inodeAt k).type
  known : ∀ k ∈ R, v.Known k → v'.Known k

/-- No inode has changed, apart from those that are no longer used. -/
structure Keep (R : Multiset IRef) (v v' : View) : Prop extends Stay R v v' where
  node : ∀ i, v'.node i = v.node i ∨
    (v'.node i = .none ∧ (v.node i).nlink = 0 ∧ ∀ k ∈ R, (v.slot k).inum ≠ i)

/-- The inodes are those of the tree `T`, apart from some without links that have been freed. -/
def Freed (T node : Nat → Node) : Prop := ∀ i, node i = T i ∨ (node i = .none ∧ (T i).nlink = 0)

namespace Stay

variable {R R' : Multiset IRef} {v v' v'' : View}

theorem refl (R : Multiset IRef) (v : View) : Stay R v v :=
  ⟨rfl, rfl, rfl, rfl, fun _ _ => rfl, fun _ _ h => ⟨h, rfl⟩, fun _ _ h => h⟩

theorem trans (h : Stay R v v') (h' : Stay R v' v'') : Stay R v v'' := by
  refine ⟨h'.sb.trans h.sb, h'.ftable.trans h.ftable, h'.proc.trans h.proc, h'.ops.trans h.ops, ?_, ?_,
    fun k hk hkn => h'.known k hk (h.known k hk hkn)⟩
  · intro k hk
    exact (h'.inum k hk).trans (h.inum k hk)
  · intro k hk hv
    obtain ⟨hv₁, ht₁⟩ := h.valid k hk hv
    obtain ⟨hv₂, ht₂⟩ := h'.valid k hk hv₁
    exact ⟨hv₂, ht₂.trans ht₁⟩

theorem mono (h : Stay R v v') (hR : R' ≤ R) : Stay R' v v' :=
  ⟨h.sb, h.ftable, h.proc, h.ops, fun k hk => h.inum k (Multiset.mem_of_le hR hk),
    fun k hk => h.valid k (Multiset.mem_of_le hR hk), fun k hk => h.known k (Multiset.mem_of_le hR hk)⟩

end Stay

namespace Keep

variable {R R' : Multiset IRef} {v v' v'' : View}

theorem refl (R : Multiset IRef) (v : View) : Keep R v v := ⟨.refl R v, fun _ => .inl rfl⟩

theorem trans (h : Keep R v v') (h' : Keep R v' v'') : Keep R v v'' := by
  refine ⟨h.toStay.trans h'.toStay, fun i => ?_⟩
  rcases h.node i with hi | ⟨hi, hn, hr⟩
  · rcases h'.node i with hi' | ⟨hi', hn', hr'⟩
    · exact .inl (hi'.trans hi)
    · refine .inr ⟨hi', hi ▸ hn', fun k hk => ?_⟩
      rw [← h.inum k hk]
      exact hr' k hk
  · refine .inr ⟨?_, hn, hr⟩
    rcases h'.node i with hi' | ⟨hi', -, -⟩
    · exact hi'.trans hi
    · exact hi'

theorem mono (h : Keep R v v') (hR : R' ≤ R) : Keep R' v v' := by
  refine ⟨h.toStay.mono hR, fun i => (h.node i).imp_right ?_⟩
  rintro ⟨hi, hn, hr⟩
  exact ⟨hi, hn, fun k hk => hr k (Multiset.mem_of_le hR hk)⟩

theorem inodeAt (h : Keep R v v') {k : IRef} (hk : k ∈ R) : v'.inodeAt k = v.inodeAt k := by
  unfold View.inodeAt
  rw [h.inum k hk]
  rcases h.node (v.slot k).inum with hi | ⟨-, -, hr⟩
  · exact hi
  · exact absurd rfl (hr k hk)

theorem of_slot (hsb : v'.sb = v.sb) (hf : v'.ftable = v.ftable) (hp : v'.proc = v.proc)
    (ho : v'.outstanding = v.outstanding) (hn : v'.node = v.node)
    (hs : ∀ k ∈ R, (v'.slot k).inum = (v.slot k).inum ∧ ((v.slot k).valid = true → (v'.slot k).valid = true)) :
    Keep R v v' := by
  have hat : ∀ k ∈ R, v'.inodeAt k = v.inodeAt k := by
    intro k hk
    unfold View.inodeAt
    rw [hn, (hs k hk).1]
  refine ⟨⟨hsb, hf, hp, ho, fun k hk => (hs k hk).1, fun k hk hv => ⟨(hs k hk).2 hv, by rw [hat k hk]⟩, ?_⟩,
    fun i => .inl (by rw [hn])⟩
  intro k hk hkn
  exact hkn.imp (hs k hk).2 fun hne => by rwa [hat k hk]

end Keep

namespace Freed

variable {R : Multiset IRef} {T T' node : Nat → Node} {v v' : View} {i : Nat}

theorem refl (T : Nat → Node) : Freed T T := fun _ => .inl rfl

theorem keep (h : Freed T v.node) (hk : Keep R v v') : Freed T v'.node := by
  intro i
  rcases hk.node i with hi | ⟨hi, hn, -⟩
  · rw [hi]
    exact h i
  · refine .inr ⟨hi, ?_⟩
    rcases h i with hT | ⟨-, hz⟩
    · exact hT ▸ hn
    · exact hz

theorem update (h : Freed T node) (i : Nat) (d : Node) : Freed (Function.update T i d) (Function.update node i d) := by
  intro j
  by_cases hj : j = i
  · rw [hj, Function.update_self, Function.update_self]
    exact .inl rfl
  · rw [Function.update_of_ne hj, Function.update_of_ne hj]
    exact h j

theorem of_live (h : Freed T node) (hl : (node i).type ≠ .free) : node i = T i := by
  rcases h i with hi | ⟨hi, -⟩
  · exact hi
  · rw [hi] at hl
    exact absurd rfl hl

end Freed

section held

variable {B : Stop → Prop} {R : Multiset IRef} {L : Finset IRef} {v v' : View} {s s' : FS} {k : IRef} {i : Nat}

namespace Held

theorem pos (h : Held R L v) (hk : k ∈ R) : 0 < (v.slot k).ref := by
  rw [h.ref]
  exact Multiset.count_pos.mpr hk

theorem loaded (h : Held R L v) (hk : k ∈ L) : v.Loaded k := ⟨h.pos (h.locked k hk).1, (h.locked k hk).2⟩

theorem congr (h : Held R L v) (hsb : v'.sb = v.sb) (hslot : v'.slot = v.slot) (hnode : v'.node = v.node) : Held R L v' := by
  refine ⟨?_, ?_, ?_, ?_, ?_, ?_⟩
  · rw [hslot]
    exact h.ref
  · rw [hslot]
    exact h.lock
  · rw [hslot]
    exact h.locked
  · rw [hslot, hsb]
    exact h.inum
  · rw [hsb]
    exact h.root
  · rw [hnode, hsb]
    exact h.dirs

theorem setSlot (h : Held R L v) {R' : Multiset IRef} {L' : Finset IRef} {f : Slot → Slot} {y : Slot}
    (hy : f (v.slot k) = y) (href : y.ref = R'.count k) (href' : ∀ j, j ≠ k → R'.count j = R.count j)
    (hlock : y.lock = true ↔ k ∈ L') (hlock' : ∀ j, j ≠ k → (j ∈ L' ↔ j ∈ L))
    (hlocked : k ∈ L' → k ∈ R' ∧ y.valid = true) (hinum : k ∈ R' → y.inum < v.sb.ninodes) :
    Held R' L' (v.setSlot k f) := by
  have hslot : ∀ j, (v.setSlot k f).slot j = if j = k then y else v.slot j := by
    intro j
    rw [← hy]
    exact Function.update_apply ..
  have hmem : ∀ j, j ≠ k → (j ∈ R' ↔ j ∈ R) := by
    intro j hj
    rw [← Multiset.count_pos, ← Multiset.count_pos, href' j hj]
  refine ⟨fun j => ?_, fun j => ?_, fun j hj => ?_, fun j hj => ?_, h.root, h.dirs⟩
  · rw [hslot]
    split_ifs with hjk
    · rw [hjk]
      exact href
    · rw [href' j hjk]
      exact h.ref j
  · rw [hslot]
    split_ifs with hjk
    · rw [hjk]
      exact hlock
    · rw [hlock' j hjk]
      exact h.lock j
  · rw [hslot]
    by_cases hjk : j = k
    · rw [if_pos hjk]
      rw [hjk] at hj ⊢
      exact hlocked hj
    · rw [if_neg hjk, hmem j hjk]
      exact h.locked j ((hlock' j hjk).mp hj)
  · rw [hslot]
    by_cases hjk : j = k
    · rw [if_pos hjk]
      exact hinum (hjk ▸ hj)
    · rw [if_neg hjk]
      exact h.inum j ((hmem j hjk).mp hj)

theorem setNode (h : Held R L v) {d : Node} (hd : d.type = .dir → DirOk v.sb d.contents) :
    Held R L (v.setNode i d) := by
  refine ⟨h.ref, h.lock, h.locked, h.inum, h.root, fun j hj => ?_⟩
  simp only [View.setNode, Function.update_apply] at hj ⊢
  split_ifs at hj ⊢
  · exact hd hj
  · exact h.dirs j hj

end Held

theorem Keep.setSlot {f : Slot → Slot}
    (hf : k ∈ R → (f (v.slot k)).inum = (v.slot k).inum ∧ ((v.slot k).valid = true → (f (v.slot k)).valid = true)) :
    Keep R v (v.setSlot k f) := by
  refine .of_slot rfl rfl rfl rfl rfl fun j hj => ?_
  simp only [View.setSlot, Function.update_apply]
  split_ifs with hjk
  · rw [hjk] at hj ⊢
    exact hf hj
  · exact ⟨rfl, id⟩

@[simp] theorem inodeAt_setNode (v : View) (k : IRef) (d : Node) : (v.setNode (v.slot k).inum d).inodeAt k = d :=
  Function.update_self ..

theorem Stay.setNode (h : St R L v s) (hk : k ∈ L) {d : Node} (hd : d.type = (v.inodeAt k).type) :
    Stay R v (v.setNode (v.slot k).inum d) := by
  obtain ⟨hkR, hkv⟩ := h.locked k hk
  refine ⟨rfl, rfl, rfl, rfl, fun _ _ => rfl, fun j _ hv => ⟨hv, ?_⟩, fun j hj hkn => ?_⟩
  · simp only [View.setNode, View.inodeAt, Function.update_apply]
    split_ifs with hj
    · rw [hj, hd]
      rfl
    · rfl
  · by_cases hinum : (v.slot j).inum = (v.slot k).inum
    · -- the entry is the locked one
      obtain rfl := h.unique (h.pos hj) (h.pos hkR) hinum
      exact .inl hkv
    · refine hkn.imp id fun hne => ?_
      simp only [View.setNode, View.inodeAt, Function.update_of_ne hinum]
      exact hne

/-! ## Locks -/

/-- What excludes that `ilock` stops: the call has not locked the entry yet, and the inode is allocated. -/
structure Lockable (B : Stop → Prop) (L : Finset IRef) (v : View) (k : IRef) : Prop where
  free : k ∈ L → B .deadlock
  live : (v.slot k).valid = false → ¬ v.Live (v.slot k).inum → B (.panic "ilock: no type")

theorem Lockable.of_valid (hk : k ∉ L) (hv : (v.slot k).valid = true) : Lockable B L v k := by
  refine ⟨fun hkL => absurd hkL hk, fun hf => ?_⟩
  rw [hv] at hf
  cases hf

theorem Lockable.of_live (hk : k ∉ L) (hl : v.Live (v.slot k).inum) : Lockable B L v k :=
  ⟨fun hkL => absurd hkL hk, fun _ hd => absurd hl hd⟩

theorem Lockable.keep {L' : Finset IRef} (h : Lockable B L v k) (hkeep : Keep R v v') (hk : k ∈ R) (hL : k ∉ L') :
    Lockable B L' v' k := by
  refine ⟨fun hkL => absurd hkL hL, fun hf hd => h.live ?_ fun hl => hd ?_⟩
  · by_contra hv
    rw [(hkeep.valid k hk (Bool.not_eq_false _ ▸ hv)).1] at hf
    cases hf
  · have hat := hkeep.inodeAt hk
    unfold View.inodeAt at hat
    unfold View.Live at hl ⊢
    rw [hat]
    exact hl

theorem ilock_st (h : St R L v s) (hk : k ∈ R) (hB : Lockable B L v k) :
    Wp (ilock k) s (fun _ s' => k ∉ L ∧ v.Live (v.slot k).inum ∧ St R (insert k L) (v.ilock k) s' ∧ Keep R v (v.ilock k))
      (Halt B) := by
  refine (ilock_spec h.toAt (h.pos hk)).mono ?_ ?_
  · intro _ s' hpost
    obtain ⟨hl, hlive, hat⟩ := hpost
    have hkL : k ∉ L := by
      rw [← h.lock, hl]
      exact Bool.false_ne_true
    refine ⟨hkL, hlive, ⟨hat, ?_⟩, Keep.setSlot fun _ => ⟨rfl, fun _ => rfl⟩⟩
    refine h.toHeld.setSlot rfl (h.ref k) (fun _ _ => rfl) ?_ ?_ (fun _ => ⟨hk, rfl⟩) fun _ => h.inum k hk
    · simp
    · intro j hj
      simp [hj]
  · intro e he
    cases he with
    | held hl => exact .fault (hB.free ((h.lock k).mp hl))
    | beyond hb hv => exact absurd (h.inum k hk) (by omega)
    | noType hd hv => exact .fault (hB.live hv hd)

theorem unlock_st (h : St R L v s) (hs' : At (v.unlock k) s') : St R (L.erase k) (v.unlock k) s' := by
  refine ⟨hs', h.toHeld.setSlot rfl (h.ref k) (fun _ _ => rfl) ?_ ?_ ?_ (h.inum k)⟩
  · simp
  · intro j hj
    simp [hj]
  · intro hk
    exact absurd hk (Finset.notMem_erase k L)

theorem keep_unlock : Keep R v (v.unlock k) := Keep.setSlot fun _ => ⟨rfl, id⟩

theorem iunlock_st (h : St R L v s) (hk : k ∈ L) {E : Stop → Prop} :
    Wp (iunlock k) s (fun _ s' => St R (L.erase k) (v.unlock k) s' ∧ Keep R v (v.unlock k)) E :=
  (iunlock_spec h.toAt (h.pos (h.locked k hk).1) ((h.lock k).mpr hk)).imp fun _ _ hat => ⟨unlock_st h hat, keep_unlock⟩

/-! ## References -/

theorem idup_st (h : St R L v s) (hk : k ∈ R) {E : Stop → Prop} :
    Wp (idup k) s (fun k' s' => k' = k ∧ St (k ::ₘ R) L (v.dup k) s' ∧ Keep R v (v.dup k)) E := by
  refine (idup_spec h.toAt (h.pos hk)).imp ?_
  intro k' s' hpost
  refine ⟨hpost.1, ⟨hpost.2, ?_⟩, Keep.setSlot fun _ => ⟨rfl, id⟩⟩
  refine h.toHeld.setSlot rfl ?_ ?_ (h.lock k) (fun _ _ => Iff.rfl) ?_ fun _ => h.inum k hk
  · rw [h.ref, Multiset.count_cons_self]
  · intro j hj
    exact Multiset.count_cons_of_ne hj R
  · intro hkL
    exact ⟨Multiset.mem_cons_self k R, (h.locked k hkL).2⟩

theorem Got.held (h : Held R L v) (hi : i < v.sb.ninodes) (hg : Got v i k v') :
    Held (k ::ₘ R) L v' ∧ Keep R v v' ∧ (v'.slot k).inum = i ∧ v'.node = v.node := by
  cases hg with
  | old hr hik =>
    have hk : k ∈ R := by
      rw [h.ref] at hr
      exact Multiset.count_pos.mp hr
    refine ⟨h.setSlot rfl ?_ ?_ (h.lock k) (fun _ _ => Iff.rfl) ?_ fun _ => h.inum k hk,
      Keep.setSlot fun _ => ⟨rfl, id⟩, ?_, rfl⟩
    · rw [h.ref, Multiset.count_cons_self]
    · intro j hj
      exact Multiset.count_cons_of_ne hj R
    · intro hkL
      exact ⟨Multiset.mem_cons_self k R, (h.locked k hkL).2⟩
    · simp only [View.dup, View.setSlot, Function.update_self]
      exact hik
  | new hr hno =>
    -- an unused entry is not locked
    have hk : k ∉ R := by
      rw [h.ref] at hr
      exact Multiset.count_eq_zero.mp hr
    have hkL : k ∉ L := fun hkL => hk (h.locked k hkL).1
    refine ⟨h.setSlot rfl ?_ ?_ (h.lock k) (fun _ _ => Iff.rfl) (fun hkL' => absurd hkL' hkL) fun _ => hi,
      Keep.setSlot fun hk' => absurd hk' hk, ?_, rfl⟩
    · rw [Multiset.count_cons_self, Multiset.count_eq_zero.mpr hk]
    · intro j hj
      exact Multiset.count_cons_of_ne hj R
    · simp only [View.fill, View.setSlot, Function.update_self]

theorem iget_st (h : St R L v s) (hi : i < v.sb.ninodes) :
    Wp (iget i) s (fun k s' => ∃ v', St (k ::ₘ R) L v' s' ∧ Keep R v v' ∧ (v'.slot k).inum = i ∧ v'.node = v.node)
      (Halt B) := by
  refine (iget_spec h.toAt i).mono ?_ ?_
  · intro k s' hpost
    obtain ⟨v', hg, hat⟩ := hpost
    obtain ⟨hheld, hkeep, hinum, hnode⟩ := hg.held h.toHeld hi
    exact ⟨v', ⟨hat, hheld⟩, hkeep, hinum, hnode⟩
  · intro e he
    rw [he]
    exact .iget

theorem ialloc_st (h : St R L v s) {type : FType} (htype : type ≠ .free) :
    Wp (ialloc type) s (fun k s' => ∃ v', St (k ::ₘ R) L v' s' ∧ Stay R v v' ∧ ¬ v.Live (v'.slot k).inum ∧
        0 < (v'.slot k).inum ∧ v'.node = Function.update v.node (v'.slot k).inum ⟨type, 0, 0, 0, []⟩) (Halt B) := by
  refine (ialloc_spec h.toAt htype).mono ?_ ?_
  · intro k s' hpost
    obtain ⟨i, v', hpos, hlt, hdead, hg, hat⟩ := hpost
    have hset : Held R L (v.setNode i ⟨type, 0, 0, 0, []⟩) := h.toHeld.setNode fun _ => DirOk.nil v.sb
    obtain ⟨hheld, hkeep, hinum, hnode⟩ := hg.held hset hlt
    refine ⟨v', ⟨hat, hheld⟩, Stay.trans ?_ hkeep.toStay, hinum ▸ hdead, hinum ▸ hpos, ?_⟩
    · -- an entry that holds a copy is for an allocated inode
      refine ⟨rfl, rfl, rfl, rfl, fun _ _ => rfl, fun j hj hv => ⟨hv, ?_⟩, fun j hj hkn => hkn.imp id fun hlinks => ?_⟩
      · have hne : (v.slot j).inum ≠ i := by
          intro heq
          exact hdead (heq ▸ h.live_of_loaded ⟨h.pos hj, hv⟩)
        simp only [View.setNode, View.inodeAt, Function.update_of_ne hne]
      · have hne : (v.slot j).inum ≠ i := by
          intro heq
          unfold View.inodeAt at hlinks
          rw [heq, h.node_dead hdead] at hlinks
          exact hlinks rfl
        simp only [View.setNode, View.inodeAt, Function.update_of_ne hne]
        exact hlinks
    · rw [hnode, hinum]
      rfl
  · intro e he
    rcases he with rfl | rfl
    · exact .ialloc
    · exact .iget

theorem put_held (h : St (k ::ₘ R) L v s) (hl : (v.slot k).lock = false) : Held R L (v.put k) ∧ Keep R v (v.put k) := by
  have hkL : k ∉ L := by
    rw [← h.lock, hl]
    exact Bool.false_ne_true
  have hcount : ∀ j, j ≠ k → R.count j = (k ::ₘ R).count j := fun j hj => (Multiset.count_cons_of_ne hj R).symm
  have hk := Multiset.mem_cons_self k R
  unfold View.put
  split_ifs with hlast
  · obtain ⟨hv, hn, hr⟩ := hlast
    have hkR : k ∉ R := by
      rw [h.ref, Multiset.count_cons_self] at hr
      exact Multiset.count_eq_zero.mp (Nat.succ_injective hr)
    have hset : Held (k ::ₘ R) L (v.setNode (v.slot k).inum .none) := h.toHeld.setNode fun ht => by cases ht
    refine ⟨hset.setSlot rfl (Multiset.count_eq_zero.mpr hkR).symm hcount (h.lock k) (fun _ _ => Iff.rfl)
      (fun hkL' => absurd hkL' hkL) fun hkR' => absurd hkR' hkR, ?_⟩
    have hother : ∀ j ∈ R, j ≠ k ∧ (v.slot j).inum ≠ (v.slot k).inum := by
      intro j hj
      have hjk : j ≠ k := fun heq => hkR (heq ▸ hj)
      exact ⟨hjk, fun heq => hjk (h.unique (h.pos (Multiset.mem_cons_of_mem hj)) (h.pos hk) heq)⟩
    have hslot : ∀ j ∈ R, ((v.setNode (v.slot k).inum .none).setSlot k
        fun x => { x with ref := 0, valid := false }).slot j = v.slot j := fun j hj =>
      Function.update_of_ne (hother j hj).1 _ _
    have hat : ∀ j ∈ R, ((v.setNode (v.slot k).inum .none).setSlot k
        fun x => { x with ref := 0, valid := false }).inodeAt j = v.inodeAt j := by
      intro j hj
      unfold View.inodeAt
      rw [hslot j hj]
      exact Function.update_of_ne (hother j hj).2 _ _
    refine ⟨⟨rfl, rfl, rfl, rfl, fun j hj => by rw [hslot j hj], fun j hj hvj => ⟨?_, by rw [hat j hj]⟩, ?_⟩, fun i => ?_⟩
    · rw [hslot j hj]
      exact hvj
    · intro j hj hkn
      unfold View.Known
      rw [hslot j hj, hat j hj]
      exact hkn
    · by_cases hi : i = (v.slot k).inum
      · refine .inr ⟨?_, hi ▸ hn, fun j hj => hi ▸ (hother j hj).2⟩
        rw [hi]
        exact Function.update_self ..
      · exact .inl (Function.update_of_ne hi _ _)
  · refine ⟨h.toHeld.setSlot rfl ?_ hcount (h.lock k) (fun _ _ => Iff.rfl) (fun hkL' => absurd hkL' hkL)
      fun _ => h.inum k hk, Keep.setSlot fun _ => ⟨rfl, id⟩⟩
    rw [h.ref, Multiset.count_cons_self, Nat.add_sub_cancel]

theorem iput_st (h : St (k ::ₘ R) L v s) (hB : k ∈ L → B .deadlock) :
    Wp (iput k) s (fun _ s' => k ∉ L ∧ St R L (v.put k) s' ∧ Keep R v (v.put k)) (Halt B) := by
  refine (iput_spec h.toAt (h.pos (Multiset.mem_cons_self k R))).mono ?_ ?_
  · intro _ s' hpost
    obtain ⟨hl, hat⟩ := hpost
    obtain ⟨hheld, hkeep⟩ := put_held h hl
    refine ⟨?_, ⟨hat, hheld⟩, hkeep⟩
    rw [← h.lock, hl]
    exact Bool.false_ne_true
  · intro e he
    rw [he.1]
    exact .fault (hB ((h.lock k).mp he.2))

theorem iunlockput_st (h : St (k ::ₘ R) L v s) (hk : k ∈ L) :
    Wp (iunlockput k) s (fun _ s' => St R (L.erase k) ((v.unlock k).put k) s' ∧ Keep R v ((v.unlock k).put k)) (Halt B) := by
  refine Wp.bind (iunlock_st h hk) ?_
  intro _ s₁ hpost
  obtain ⟨h₁, hkeep₁⟩ := hpost
  refine (iput_st h₁ fun hkL => absurd hkL (Finset.notMem_erase k L)).imp ?_
  intro _ s₂ hpost
  exact ⟨hpost.2.1, (hkeep₁.mono (Multiset.le_cons_self R k)).trans hpost.2.2⟩

/-! ## Contents -/

theorem readi_st (h : St R L v s) (hk : k ∈ L) (off n : Nat) (dev : Option (List UInt8)) {E : Stop → Prop} :
    Wp (readi k off n dev) s (fun r s' => s' = s ∧ r = readiResult (v.inodeAt k) off n dev) E :=
  readi_view h.toAt (h.toHeld.loaded hk) off n dev

theorem write_type (d : Node) (off : Nat) (src : List UInt8) : (d.write off src).2.type = d.type := by
  unfold Node.write
  split_ifs <;> rfl

theorem writei_st (h : St R L v s) (hk : k ∈ L) (off : Nat) (src : List UInt8)
    (hd : (v.inodeAt k).type = .dir → DirOk v.sb ((v.inodeAt k).write off src).2.contents) :
    Wp (writei k src off) s (fun r s' => r = ((v.inodeAt k).write off src).1 ∧
        St R L (v.setNode (v.slot k).inum ((v.inodeAt k).write off src).2) s' ∧
        Stay R v (v.setNode (v.slot k).inum ((v.inodeAt k).write off src).2))
      fun e => Halt B e ∧ s.free + blocksFor (blocksIn (v.inodeAt k).contents.length) <
        blocksFor (blocksIn ((v.inodeAt k).write off src).2.contents.length) := by
  refine (writei_view h.toAt (h.toHeld.loaded hk) off src).mono ?_ ?_
  · intro r s' hpost
    obtain ⟨hr, hat, -⟩ := hpost
    refine ⟨hr, ⟨hat, h.toHeld.setNode fun ht => hd ?_⟩, Stay.setNode h hk (write_type ..)⟩
    rwa [write_type] at ht
  · intro e he
    refine ⟨?_, he.2⟩
    rw [show e = _ from he.1]
    exact .balloc

theorem iwrite_st (h : St R L v s) (hk : k ∈ L) {f : Dinode → Dinode} {g : Node → Node}
    (hf : ∀ d, (f d).type = d.type ∧ (f d).size = d.size ∧ (f d).addrs = d.addrs)
    (hg : ∀ d bs, g ⟨d.type, d.major, d.minor, d.nlink, bs⟩ = ⟨(f d).type, (f d).major, (f d).minor, (f d).nlink, bs⟩)
    (hg' : ∀ d, (g d).type = d.type ∧ (g d).contents = d.contents) {E : Stop → Prop} :
    Wp (iwrite k f) s (fun _ s' => St R L (v.setNode (v.slot k).inum (g (v.inodeAt k))) s' ∧
      Stay R v (v.setNode (v.slot k).inum (g (v.inodeAt k)))) E := by
  refine (iwrite_spec h.toAt (h.toHeld.loaded hk) hf hg).imp ?_
  intro _ s' hat
  refine ⟨⟨hat, h.toHeld.setNode fun ht => ?_⟩, Stay.setNode h hk (hg' _).1⟩
  rw [(hg' _).1] at ht
  rw [(hg' _).2]
  exact h.dirs _ ht

def Node.addNlink (d : Node) (x : Int) : Node := { d with nlink := short (d.nlink + x) }

theorem addNlink_st (h : St R L v s) (hk : k ∈ L) (x : Int) {E : Stop → Prop} :
    Wp (addNlink k x) s (fun _ s' => St R L (v.setNode (v.slot k).inum ((v.inodeAt k).addNlink x)) s' ∧
      Stay R v (v.setNode (v.slot k).inum ((v.inodeAt k).addNlink x))) E :=
  iwrite_st h hk (f := fun d => { d with nlink := short (d.nlink + x) }) (g := fun d => d.addNlink x)
    (fun _ => ⟨rfl, rfl, rfl⟩) (fun _ _ => rfl) fun _ => ⟨rfl, rfl⟩

end held

end Xv6Mlfq.Fs
