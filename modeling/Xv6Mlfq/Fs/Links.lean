import Xv6Mlfq.Fs.Tree

/-!
# The directories form a tree

`Entry T d j κ i`: entry `j` of directory `d` has the key `κ` and names inode `i`. In a `Tree` the first two entries of
a directory are `.` and `..`, every other directory than the root is named by exactly one further entry, and its `..`
leads back there; every directory is below the root; every entry names an inode that is allocated; and the link count
of an inode is the number of entries that name it, its own `.` apart.

The relation changes in four ways: a new entry for an inode that is not a directory (`Tree.grow`), a new directory
(`Tree.leaf`), an entry cleared (`Tree.shrink`), and an empty directory removed (`Tree.prune`).
-/

namespace Xv6Mlfq.Fs

/-- Entry `j` of directory `d` has the key `κ` and names inode `i`. -/
def Entry (T : Nat → Node) (d j : Nat) (κ : List UInt8) (i : Nat) : Prop :=
  (T d).type = .dir ∧ ∃ de, (entries (T d).contents)[j]? = some de ∧ de.Has κ ∧ de.inum = i

/-- The entries that name inode `i`, apart from its own `.`. -/
def links (T : Nat → Node) (i : Nat) : Set (Nat × Nat) :=
  { x | (∃ κ, Entry T x.1 x.2 κ i) ∧ ¬ (x.1 = i ∧ x.2 = 0) }

/-- The root directory, and the directories that an entry behind `.` and `..` of such a directory names. -/
inductive Below (T : Nat → Node) : Nat → Prop
  | root : Below T ROOTINO
  | sub {d j i : Nat} {κ : List UInt8} (up : Below T d) (hj : 2 ≤ j) (he : Entry T d j κ i) (hi : (T i).type = .dir) :
      Below T i

structure Tree (n : Nat) (T : Nat → Node) : Prop where
  bound : ∀ i, (T i).type ≠ .free → 0 < i ∧ i < n
  self : ∀ d, (T d).type = .dir → Entry T d 0 (key dot) d
  root : (T ROOTINO).type = .dir ∧ Entry T ROOTINO 1 (key dotdot) ROOTINO
  live : ∀ d j κ i, Entry T d j κ i → (T i).type ≠ .free
  child : ∀ d j κ i, Entry T d j κ i → 2 ≤ j → (T i).type = .dir → i ≠ ROOTINO ∧ Entry T i 1 (key dotdot) d
  single : ∀ d j j' κ κ' i, Entry T d j κ i → Entry T d j' κ' i → 2 ≤ j → 2 ≤ j' → (T i).type = .dir → j = j'
  below : ∀ d, (T d).type = .dir → Below T d
  count : ∀ i, (T i).type ≠ .free → (T i).nlink = (links T i).ncard

section tree

variable {n : Nat} {T T' : Nat → Node} {d d' i j j' f m : Nat} {κ κ' κ₀ : List UInt8}

theorem ne_free_of_dir {x : Node} (h : x.type = .dir) : x.type ≠ .free := by
  rw [h]
  decide

theorem Entry.fn (h : Entry T d j κ i) (h' : Entry T d j κ' m) : κ = κ' ∧ i = m := by
  obtain ⟨-, de, hde, hκ, rfl⟩ := h
  obtain ⟨-, de', hde', hκ', rfl⟩ := h'
  obtain rfl := Option.some.inj (hde.symm.trans hde')
  exact ⟨hκ.2.symm.trans hκ'.2, rfl⟩

theorem Below.mono (he : ∀ d j κ i, Entry T d j κ i → Entry T' d j κ i)
    (hd : ∀ i, (T i).type = .dir → (T' i).type = .dir) (h : Below T i) : Below T' i := by
  induction h with
  | root => exact .root
  | sub _ hj hent hi ih => exact .sub ih hj (he _ _ _ _ hent) (hd _ hi)

theorem ncard_links_eq (h : ∀ d j κ, ¬ (d = m ∧ j = 0) → (Entry T' d j κ m ↔ Entry T d j κ m)) :
    (links T' m).ncard = (links T m).ncard := by
  congr 1
  ext x
  refine and_congr_left fun hx => exists_congr fun κ => ?_
  exact h x.1 x.2 κ hx

theorem ncard_links_insert (d j : Nat) (κ₀ : List UInt8) (hfin : (links T m).Finite) (hself : ¬ (d = m ∧ j = 0))
    (hfree : ∀ κ, ¬ Entry T d j κ m)
    (h : ∀ d' j' κ, ¬ (d' = m ∧ j' = 0) → (Entry T' d' j' κ m ↔ Entry T d' j' κ m ∨ (d' = d ∧ j' = j ∧ κ = κ₀))) :
    (links T' m).ncard = (links T m).ncard + 1 := by
  have hset : links T' m = insert (d, j) (links T m) := by
    ext x
    constructor
    · rintro ⟨⟨κ, he⟩, hx⟩
      rcases (h _ _ _ hx).mp he with he | ⟨h₁, h₂, -⟩
      · exact .inr ⟨⟨κ, he⟩, hx⟩
      · exact .inl (Prod.ext h₁ h₂)
    · rintro (rfl | ⟨⟨κ, he⟩, hx⟩)
      · exact ⟨⟨κ₀, (h _ _ _ hself).mpr (.inr ⟨rfl, rfl, rfl⟩)⟩, hself⟩
      · exact ⟨⟨κ, (h _ _ _ hx).mpr (.inl he)⟩, hx⟩
  have hnot : (d, j) ∉ links T m := by
    rintro ⟨⟨κ, he⟩, -⟩
    exact hfree κ he
  rw [hset, Set.ncard_insert_of_notMem hnot hfin]

namespace Tree

theorem finite (h : Tree n T) (i : Nat) : (links T i).Finite := by
  refine Set.Finite.subset (s := ⋃ d ∈ Set.Iio n, ({d} : Set Nat) ×ˢ Set.Iio (entries (T d).contents).length) ?_ ?_
  · exact (Set.finite_Iio n).biUnion fun d _ => (Set.finite_singleton d).prod (Set.finite_Iio _)
  · intro x hx
    obtain ⟨⟨κ, hd, de, hde, -⟩, -⟩ := hx
    refine Set.mem_biUnion (Set.mem_Iio.mpr (h.bound _ (ne_free_of_dir hd)).2) ⟨rfl, ?_⟩
    exact (List.getElem?_eq_some_iff.mp hde).1

theorem parent (h : Tree n T) (hd : (T d).type = .dir) : ∃ q, Entry T d 1 (key dotdot) q ∧
    (d = ROOTINO ∧ q = ROOTINO ∨ d ≠ ROOTINO ∧ ∃ j κ, 2 ≤ j ∧ Entry T q j κ d) := by
  cases h.below d hd with
  | root => exact ⟨ROOTINO, h.root.2, .inl ⟨rfl, rfl⟩⟩
  | sub _ hj he hi =>
    obtain ⟨hne, hup⟩ := h.child _ _ _ _ he hj hi
    exact ⟨_, hup, .inr ⟨hne, _, _, hj, he⟩⟩

theorem not_self (h : Tree n T) (he : Entry T d j κ d) : j < 2 := by
  by_contra hj
  have hj : 2 ≤ j := Nat.le_of_not_lt hj
  have hd := he.1
  obtain ⟨hne, hup⟩ := h.child _ _ _ _ he hj hd
  -- the way down from the root would have to come through `d` itself
  have hno : ∀ x, Below T x → x ≠ d := by
    intro x hx
    induction hx with
    | root => exact hne.symm
    | sub _ hj' he' hi' ih =>
      rintro rfl
      have hup' := (h.child _ _ _ _ he' hj' hi').2
      exact ih (hup'.fn hup).2
  exact hno d (h.below d hd) rfl

theorem dir_links (h : Tree n T) (hd : (T d).type = .dir) : (links T d).Nonempty := by
  obtain ⟨q, hup, ⟨rfl, rfl⟩ | ⟨-, j, κ, hj, he⟩⟩ := h.parent hd
  · exact ⟨(ROOTINO, 1), ⟨_, hup⟩, fun hx => absurd hx.2 (by decide)⟩
  · exact ⟨(q, j), ⟨κ, he⟩, fun hx => by have := hx.2; simp only at this; omega⟩

theorem named_links (h : Tree n T) (he : Entry T d j κ i) : (links T i).Nonempty := by
  by_cases hself : d = i ∧ j = 0
  · rw [← hself.1]
    exact h.dir_links he.1
  · exact ⟨(d, j), ⟨κ, he⟩, hself⟩

theorem nlink_pos (h : Tree n T) (hi : (T i).type ≠ .free) (hl : (links T i).Nonempty) : 1 ≤ (T i).nlink := by
  rw [h.count i hi]
  have := (Set.ncard_pos (h.finite i)).mpr hl
  omega

/-! ## A new entry -/

theorem grow (h : Tree n T) (κ₀ : List UInt8) (hf : 2 ≤ f) (hfree : ∀ κ m, ¬ Entry T d f κ m)
    (hsame : ∀ m, m ≠ i → (T' m).type = (T m).type ∧ (T' m).nlink = (T m).nlink)
    (hold : (T i).type ≠ .dir) (hnew : (T' i).type ≠ .free ∧ (T' i).type ≠ .dir) (hin : 0 < i ∧ i < n)
    (hent : ∀ d' j κ m, Entry T' d' j κ m ↔ Entry T d' j κ m ∨ (d' = d ∧ j = f ∧ κ = κ₀ ∧ m = i))
    (hcount : (T' i).nlink = (links T i).ncard + 1) : Tree n T' := by
  have hdir : ∀ m, (T' m).type = .dir ↔ (T m).type = .dir := by
    intro m
    by_cases hm : m = i
    · rw [hm]
      exact iff_of_false hnew.2 hold
    · rw [(hsame m hm).1]
  have hkeep : ∀ d j κ m, Entry T d j κ m → Entry T' d j κ m := fun d j κ m he => (hent d j κ m).mpr (.inl he)
  -- an entry that names a directory is an old one
  have hback : ∀ d j κ m, Entry T' d j κ m → (T' m).type = .dir → Entry T d j κ m := by
    intro d' j κ m he hm
    rcases (hent d' j κ m).mp he with he | ⟨-, -, -, rfl⟩
    · exact he
    · exact absurd hm hnew.2
  refine ⟨?_, ?_, ?_, ?_, ?_, ?_, ?_, ?_⟩
  · intro m hm
    by_cases hmi : m = i
    · rwa [hmi]
    · rw [(hsame m hmi).1] at hm
      exact h.bound m hm
  · intro x hx
    exact hkeep _ _ _ _ (h.self x ((hdir x).mp hx))
  · exact ⟨(hdir _).mpr h.root.1, hkeep _ _ _ _ h.root.2⟩
  · intro d' j κ m he
    by_cases hmi : m = i
    · rw [hmi]
      exact hnew.1
    · rw [(hsame m hmi).1]
      rcases (hent d' j κ m).mp he with he | ⟨-, -, -, hm⟩
      · exact h.live _ _ _ _ he
      · exact absurd hm hmi
  · intro d' j κ m he hj hm
    obtain ⟨hne, hup⟩ := h.child _ _ _ _ (hback _ _ _ _ he hm) hj ((hdir m).mp hm)
    exact ⟨hne, hkeep _ _ _ _ hup⟩
  · intro d' j j' κ κ' m he he' hj hj' hm
    exact h.single _ _ _ _ _ _ (hback _ _ _ _ he hm) (hback _ _ _ _ he' hm) hj hj' ((hdir m).mp hm)
  · intro x hx
    exact (h.below x ((hdir x).mp hx)).mono hkeep fun m hm => (hdir m).mpr hm
  · intro m hm
    by_cases hmi : m = i
    · subst hmi
      have hcard : (links T' m).ncard = (links T m).ncard + 1 := by
        refine ncard_links_insert d f κ₀ (h.finite m) (by omega) (fun κ => hfree κ m) ?_
        intro d' j κ _
        rw [hent]
        simp only [and_true]
      rw [hcount, hcard]
      push_cast
      rfl
    · have hcard : (links T' m).ncard = (links T m).ncard := by
        refine ncard_links_eq fun d' j κ _ => ?_
        rw [hent]
        exact or_iff_left fun hx => hmi hx.2.2.2
      rw [(hsame m hmi).1] at hm
      rw [(hsame m hmi).2, hcard]
      exact h.count m hm

theorem leaf (h : Tree n T) (κ₀ : List UInt8) (hd : (T d).type = .dir) (hf : 2 ≤ f) (hfree : ∀ κ m, ¬ Entry T d f κ m)
    (hold : (T i).type = .free) (hnew : (T' i).type = .dir) (hin : 0 < i ∧ i < n)
    (htype : ∀ m, m ≠ i → (T' m).type = (T m).type)
    (hent : ∀ d' j κ m, Entry T' d' j κ m ↔ Entry T d' j κ m ∨ (d' = d ∧ j = f ∧ κ = κ₀ ∧ m = i) ∨
      (d' = i ∧ j = 0 ∧ κ = key dot ∧ m = i) ∨ (d' = i ∧ j = 1 ∧ κ = key dotdot ∧ m = d))
    (hsame : ∀ m, m ≠ i → m ≠ d → (T' m).nlink = (T m).nlink) (hone : (T' i).nlink = 1)
    (hcount : (T' d).nlink = (links T d).ncard + 1) : Tree n T' := by
  have hnone : ∀ d j κ, ¬ Entry T d j κ i := fun d j κ he => h.live _ _ _ _ he hold
  have hnodir : (T i).type ≠ .dir := fun hdir => by rw [hold] at hdir; cases hdir
  have hne : i ≠ d := fun heq => hnodir (heq ▸ hd)
  have hkeep : ∀ d j κ m, Entry T d j κ m → Entry T' d j κ m := fun d j κ m he => (hent d j κ m).mpr (.inl he)
  have hdir : ∀ m, m ≠ i → ((T' m).type = .dir ↔ (T m).type = .dir) := fun m hm => by rw [htype m hm]
  have hup : Entry T' i 1 (key dotdot) d := (hent _ _ _ _).mpr (.inr (.inr (.inr ⟨rfl, rfl, rfl, rfl⟩)))
  have hdown : Entry T' d f κ₀ i := (hent _ _ _ _).mpr (.inr (.inl ⟨rfl, rfl, rfl, rfl⟩))
  -- behind `.` and `..` there is one new entry
  have hback : ∀ d' j κ m, Entry T' d' j κ m → 2 ≤ j → Entry T d' j κ m ∨ (d' = d ∧ j = f ∧ m = i) := by
    intro d' j κ m he hj
    rcases (hent d' j κ m).mp he with he | ⟨h₁, h₂, -, h₃⟩ | ⟨-, h₂, -⟩ | ⟨-, h₂, -⟩
    · exact .inl he
    · exact .inr ⟨h₁, h₂, h₃⟩
    · omega
    · omega
  have hbelow : ∀ x, (T x).type = .dir → Below T' x := by
    intro x hx
    refine (h.below x hx).mono hkeep fun m hm => ?_
    rw [htype m fun heq => hnodir (heq ▸ hm)]
    exact hm
  refine ⟨?_, ?_, ?_, ?_, ?_, ?_, ?_, ?_⟩
  · intro m hm
    by_cases hmi : m = i
    · rwa [hmi]
    · rw [htype m hmi] at hm
      exact h.bound m hm
  · intro x hx
    by_cases hxi : x = i
    · rw [hxi]
      exact (hent _ _ _ _).mpr (.inr (.inr (.inl ⟨rfl, rfl, rfl, rfl⟩)))
    · exact hkeep _ _ _ _ (h.self x ((hdir x hxi).mp hx))
  · have hri : ROOTINO ≠ i := fun heq => hnodir (heq ▸ h.root.1)
    exact ⟨(hdir _ hri).mpr h.root.1, hkeep _ _ _ _ h.root.2⟩
  · intro d' j κ m he
    by_cases hmi : m = i
    · rw [hmi]
      exact ne_free_of_dir hnew
    · rw [htype m hmi]
      rcases (hent d' j κ m).mp he with he | ⟨-, -, -, hm⟩ | ⟨-, -, -, hm⟩ | ⟨-, -, -, rfl⟩
      · exact h.live _ _ _ _ he
      · exact absurd hm hmi
      · exact absurd hm hmi
      · exact ne_free_of_dir hd
  · intro d' j κ m he hj hm
    rcases hback _ _ _ _ he hj with he | ⟨rfl, -, rfl⟩
    · have hmi : m ≠ i := fun heq => hnone _ _ _ (heq ▸ he)
      obtain ⟨hroot, hup⟩ := h.child _ _ _ _ he hj ((hdir m hmi).mp hm)
      exact ⟨hroot, hkeep _ _ _ _ hup⟩
    · exact ⟨fun heq => hnodir (heq ▸ h.root.1), hup⟩
  · intro d' j j' κ κ' m he he' hj hj' hm
    rcases hback _ _ _ _ he hj with he | ⟨-, rfl, rfl⟩
    · rcases hback _ _ _ _ he' hj' with he' | ⟨-, -, rfl⟩
      · have hmi : m ≠ i := fun heq => hnone _ _ _ (heq ▸ he)
        exact h.single _ _ _ _ _ _ he he' hj hj' ((hdir m hmi).mp hm)
      · exact absurd he (hnone _ _ _)
    · rcases hback _ _ _ _ he' hj' with he' | ⟨-, rfl, -⟩
      · exact absurd he' (hnone _ _ _)
      · rfl
  · intro x hx
    by_cases hxi : x = i
    · rw [hxi]
      exact .sub (hbelow d hd) hf hdown hnew
    · exact hbelow x ((hdir x hxi).mp hx)
  · intro m hm
    by_cases hmi : m = i
    · subst hmi
      have hempty : links T m = ∅ := by
        refine Set.eq_empty_iff_forall_notMem.mpr fun x hx => ?_
        obtain ⟨⟨κ, he⟩, -⟩ := hx
        exact hnone _ _ _ he
      have hcard : (links T' m).ncard = (links T m).ncard + 1 := by
        refine ncard_links_insert d f κ₀ (h.finite m) (by omega) (fun κ => hnone d f κ) ?_
        intro d' j κ hx
        rw [hent]
        simp only [and_true]
        refine or_congr_right (or_iff_left ?_)
        rintro (⟨h₁, h₂, -⟩ | ⟨-, -, -, h₄⟩)
        · exact hx ⟨h₁, h₂⟩
        · exact hne h₄
      rw [hone, hcard, hempty, Set.ncard_empty]
      rfl
    · rw [htype m hmi] at hm
      by_cases hmd : m = d
      · subst hmd
        have hcard : (links T' m).ncard = (links T m).ncard + 1 := by
          refine ncard_links_insert i 1 (key dotdot) (h.finite m) (by omega) (fun κ he => hnodir he.1) ?_
          intro d' j κ _
          rw [hent]
          simp [hmi]
        rw [hcount, hcard]
        push_cast
        rfl
      · have hcard : (links T' m).ncard = (links T m).ncard := by
          refine ncard_links_eq fun d' j κ _ => ?_
          rw [hent]
          simp [hmi, hmd]
        rw [hsame m hmi hmd, hcard]
        exact h.count m hm

/-! ## An entry less -/

theorem shrink (h : Tree n T) (he : Entry T d f κ₀ i) (hf : 2 ≤ f) (hi : (T i).type ≠ .dir)
    (htype : ∀ m, (T' m).type = (T m).type)
    (hent : ∀ d' j κ m, Entry T' d' j κ m ↔ Entry T d' j κ m ∧ ¬ (d' = d ∧ j = f))
    (hsame : ∀ m, m ≠ i → (T' m).nlink = (T m).nlink) (hcount : (T' i).nlink = (T i).nlink - 1) : Tree n T' := by
  have hback : ∀ d j κ m, Entry T' d j κ m → Entry T d j κ m := fun d j κ m he => ((hent d j κ m).mp he).1
  -- the entries that name a directory stay
  have hkeep : ∀ d j κ m, Entry T d j κ m → (T m).type = .dir → Entry T' d j κ m := by
    intro d' j κ m he' hm
    refine (hent _ _ _ _).mpr ⟨he', ?_⟩
    rintro ⟨rfl, rfl⟩
    rw [(he.fn he').2] at hi
    exact hi hm
  refine ⟨?_, ?_, ?_, ?_, ?_, ?_, ?_, ?_⟩
  · intro m hm
    rw [htype] at hm
    exact h.bound m hm
  · intro x hx
    rw [htype] at hx
    exact hkeep _ _ _ _ (h.self x hx) hx
  · exact ⟨(htype _).trans h.root.1, hkeep _ _ _ _ h.root.2 h.root.1⟩
  · intro d' j κ m he'
    rw [htype]
    exact h.live _ _ _ _ (hback _ _ _ _ he')
  · intro d' j κ m he' hj hm
    rw [htype] at hm
    obtain ⟨hne, hup⟩ := h.child _ _ _ _ (hback _ _ _ _ he') hj hm
    exact ⟨hne, hkeep _ _ _ _ hup (hback _ _ _ _ he').1⟩
  · intro d' j j' κ κ' m he' he'' hj hj' hm
    rw [htype] at hm
    exact h.single _ _ _ _ _ _ (hback _ _ _ _ he') (hback _ _ _ _ he'') hj hj' hm
  · intro x hx
    rw [htype] at hx
    have hb := h.below x hx
    induction hb with
    | root => exact .root
    | sub _ hj he' hm ih => exact .sub (ih he'.1) hj (hkeep _ _ _ _ he' hm) ((htype _).trans hm)
  · intro m hm
    rw [htype] at hm
    by_cases hmi : m = i
    · subst hmi
      have hcard : (links T m).ncard = (links T' m).ncard + 1 := by
        refine ncard_links_insert d f κ₀ ?_ (by omega) ?_ ?_
        · refine (h.finite m).subset ?_
          rintro x ⟨⟨κ, he'⟩, hx⟩
          exact ⟨⟨κ, hback _ _ _ _ he'⟩, hx⟩
        · intro κ he'
          exact ((hent _ _ _ _).mp he').2 ⟨rfl, rfl⟩
        · intro d' j κ _
          rw [hent]
          constructor
          · intro he'
            by_cases hx : d' = d ∧ j = f
            · obtain ⟨rfl, rfl⟩ := hx
              exact .inr ⟨rfl, rfl, (he'.fn he).1⟩
            · exact .inl ⟨he', hx⟩
          · rintro (⟨he', -⟩ | ⟨rfl, rfl, rfl⟩)
            · exact he'
            · exact he
      rw [hcount, h.count m hm, hcard]
      push_cast
      ring
    · have hcard : (links T' m).ncard = (links T m).ncard := by
        refine ncard_links_eq fun d' j κ _ => ?_
        rw [hent]
        refine and_iff_left_of_imp ?_
        rintro he' ⟨rfl, rfl⟩
        exact hmi (he'.fn he).2
      rw [hsame m hmi, hcard]
      exact h.count m hm

/-- What names an empty directory: the entry of its parent and its own `.`. -/
theorem names_leaf (h : Tree n T) (he : Entry T d f κ₀ i) (hf : 2 ≤ f) (hi : (T i).type = .dir)
    (hempty : ∀ j κ m, 2 ≤ j → ¬ Entry T i j κ m) (he' : Entry T d' j κ i) : (d' = d ∧ j = f) ∨ (d' = i ∧ j = 0) := by
  obtain ⟨hroot, hup⟩ := h.child _ _ _ _ he hf hi
  rcases Nat.lt_or_ge j 2 with hj | hj
  · obtain rfl | rfl : j = 0 ∨ j = 1 := by omega
    · exact .inr ⟨((h.self d' he'.1).fn he').2, rfl⟩
    · -- a directory whose `..` is `i` would have an entry there
      obtain ⟨q, hq, ⟨-, rfl⟩ | ⟨-, j', κ', hj', hc⟩⟩ := h.parent he'.1
      · exact absurd (he'.fn hq).2 hroot
      · rw [(hq.fn he').2] at hc
        exact absurd hc (hempty _ _ _ hj')
  · obtain rfl : d' = d := ((h.child _ _ _ _ he' hj hi).2.fn hup).2
    exact .inl ⟨rfl, h.single _ _ _ _ _ _ he' he hj hf hi⟩

theorem nlink_leaf (h : Tree n T) (he : Entry T d f κ₀ i) (hf : 2 ≤ f) (hi : (T i).type = .dir)
    (hempty : ∀ j κ m, 2 ≤ j → ¬ Entry T i j κ m) : (T i).nlink = 1 := by
  have hset : links T i = {(d, f)} := by
    ext x
    constructor
    · rintro ⟨⟨κ, he'⟩, hx⟩
      rcases h.names_leaf he hf hi hempty he' with ⟨h₁, h₂⟩ | hself
      · exact Prod.ext h₁ h₂
      · exact absurd hself hx
    · rintro rfl
      exact ⟨⟨κ₀, he⟩, fun hx => by have := hx.2; simp only at this; omega⟩
  rw [h.count i (ne_free_of_dir hi), hset, Set.ncard_singleton]
  rfl

theorem prune (h : Tree n T) (he : Entry T d f κ₀ i) (hf : 2 ≤ f) (hi : (T i).type = .dir)
    (hempty : ∀ j κ m, 2 ≤ j → ¬ Entry T i j κ m) (hdead : (T' i).type = .free)
    (htype : ∀ m, m ≠ i → (T' m).type = (T m).type)
    (hent : ∀ d' j κ m, Entry T' d' j κ m ↔ Entry T d' j κ m ∧ ¬ (d' = d ∧ j = f) ∧ d' ≠ i)
    (hsame : ∀ m, m ≠ i → m ≠ d → (T' m).nlink = (T m).nlink) (hcount : (T' d).nlink = (T d).nlink - 1) : Tree n T' := by
  obtain ⟨hroot, hup⟩ := h.child _ _ _ _ he hf hi
  have hne : d ≠ i := by
    rintro rfl
    have := h.not_self he
    omega
  have hback : ∀ d j κ m, Entry T' d j κ m → Entry T d j κ m := fun d j κ m he => ((hent d j κ m).mp he).1
  have hnot : ∀ d' j κ, ¬ Entry T' d' j κ i := by
    intro d' j κ he'
    obtain ⟨he', hx, hd'⟩ := (hent _ _ _ _).mp he'
    rcases h.names_leaf he hf hi hempty he' with hcase | hcase
    · exact hx hcase
    · exact hd' hcase.1
  have hkeep : ∀ d j κ m, Entry T d j κ m → d ≠ i → m ≠ i → Entry T' d j κ m := by
    intro d' j κ m he' hd' hm
    refine (hent _ _ _ _).mpr ⟨he', ?_, hd'⟩
    rintro ⟨rfl, rfl⟩
    exact hm (he'.fn he).2
  -- the way down from the root does not lead through an empty directory
  have hbelow : ∀ x, Below T x → x ≠ i → Below T' x := by
    intro x hx hxi
    induction hx with
    | root => exact .root
    | @sub d' j m κ _ hj he' hm ih =>
      have hd' : d' ≠ i := by
        rintro rfl
        exact hempty _ _ _ hj he'
      exact .sub (ih hd') hj (hkeep _ _ _ _ he' hd' hxi) ((htype _ hxi).trans hm)
  have hlive : ∀ m, (T' m).type ≠ .free → m ≠ i := by
    rintro m hm rfl
    exact hm hdead
  have hdir : ∀ m, (T' m).type = .dir → m ≠ i ∧ (T m).type = .dir := by
    intro m hm
    have hmi := hlive m (ne_free_of_dir hm)
    rw [htype m hmi] at hm
    exact ⟨hmi, hm⟩
  refine ⟨?_, ?_, ?_, ?_, ?_, ?_, ?_, ?_⟩
  · intro m hm
    rw [htype m (hlive m hm)] at hm
    exact h.bound m hm
  · intro x hx
    obtain ⟨hxi, hx⟩ := hdir x hx
    exact hkeep _ _ _ _ (h.self x hx) hxi hxi
  · exact ⟨(htype _ hroot.symm).trans h.root.1, hkeep _ _ _ _ h.root.2 hroot.symm hroot.symm⟩
  · intro d' j κ m he'
    have hmi : m ≠ i := by
      rintro rfl
      exact hnot _ _ _ he'
    rw [htype m hmi]
    exact h.live _ _ _ _ (hback _ _ _ _ he')
  · intro d' j κ m he' hj hm
    obtain ⟨hmi, hm⟩ := hdir m hm
    obtain ⟨hmr, hmup⟩ := h.child _ _ _ _ (hback _ _ _ _ he') hj hm
    exact ⟨hmr, hkeep _ _ _ _ hmup hmi ((hent _ _ _ _).mp he').2.2⟩
  · intro d' j j' κ κ' m he' he'' hj hj' hm
    exact h.single _ _ _ _ _ _ (hback _ _ _ _ he') (hback _ _ _ _ he'') hj hj' (hdir m hm).2
  · intro x hx
    obtain ⟨hxi, hx⟩ := hdir x hx
    exact hbelow x (h.below x hx) hxi
  · intro m hm
    have hmi := hlive m hm
    rw [htype m hmi] at hm
    by_cases hmd : m = d
    · subst hmd
      have hcard : (links T m).ncard = (links T' m).ncard + 1 := by
        refine ncard_links_insert i 1 (key dotdot) ?_ (by omega) ?_ ?_
        · refine (h.finite m).subset ?_
          rintro x ⟨⟨κ, he'⟩, hx⟩
          exact ⟨⟨κ, hback _ _ _ _ he'⟩, hx⟩
        · intro κ he'
          exact ((hent _ _ _ _).mp he').2.2 rfl
        · intro d' j κ _
          constructor
          · intro he'
            by_cases hd' : d' = i
            · subst hd'
              rcases Nat.lt_or_ge j 2 with hj | hj
              · obtain rfl | rfl : j = 0 ∨ j = 1 := by omega
                · exact absurd (he'.fn (h.self _ hi)).2 hmi
                · exact .inr ⟨rfl, rfl, (he'.fn hup).1⟩
              · exact absurd he' (hempty _ _ _ hj)
            · exact .inl (hkeep _ _ _ _ he' hd' hmi)
          · rintro (he' | ⟨rfl, rfl, rfl⟩)
            · exact hback _ _ _ _ he'
            · exact hup
      rw [hcount, h.count m hm, hcard]
      push_cast
      ring
    · have hcard : (links T' m).ncard = (links T m).ncard := by
        refine ncard_links_eq fun d' j κ _ => ⟨hback _ _ _ _, fun he' => ?_⟩
        refine hkeep _ _ _ _ he' ?_ hmi
        -- the entries of `i` name `i` and `d`
        rintro rfl
        rcases Nat.lt_or_ge j 2 with hj | hj
        · obtain rfl | rfl : j = 0 ∨ j = 1 := by omega
          · exact hmi (he'.fn (h.self _ hi)).2
          · exact hmd (he'.fn hup).2
        · exact hempty _ _ _ hj he'
      rw [hsame m hmi hmd, hcard]
      exact h.count m hm

/-! ## The same entries -/

/-- Another tree with the same entries, in which inodes without links may be missing. -/
theorem transfer (h : Tree n T) (hent : ∀ d j κ m, Entry T' d j κ m ↔ Entry T d j κ m)
    (hsame : ∀ m, (T' m).type ≠ .free → (T' m).type = (T m).type ∧ (T' m).nlink = (T m).nlink)
    (hlive : ∀ m, (T m).type ≠ .free → (links T m).Nonempty → (T' m).type ≠ .free) : Tree n T' := by
  have hdir : ∀ m, (T m).type = .dir → (T' m).type = .dir := by
    intro m hm
    rw [(hsame m (hlive m (ne_free_of_dir hm) (h.dir_links hm))).1]
    exact hm
  have hdir' : ∀ m, (T' m).type = .dir → (T m).type = .dir := by
    intro m hm
    rw [← (hsame m (ne_free_of_dir hm)).1]
    exact hm
  refine ⟨?_, ?_, ?_, ?_, ?_, ?_, ?_, ?_⟩
  · intro m hm
    rw [(hsame m hm).1] at hm
    exact h.bound m hm
  · intro x hx
    exact (hent _ _ _ _).mpr (h.self x (hdir' x hx))
  · exact ⟨hdir _ h.root.1, (hent _ _ _ _).mpr h.root.2⟩
  · intro d j κ m he
    have he := (hent _ _ _ _).mp he
    exact hlive m (h.live _ _ _ _ he) (h.named_links he)
  · intro d j κ m he hj hm
    obtain ⟨hne, hup⟩ := h.child _ _ _ _ ((hent _ _ _ _).mp he) hj (hdir' m hm)
    exact ⟨hne, (hent _ _ _ _).mpr hup⟩
  · intro d j j' κ κ' m he he' hj hj' hm
    exact h.single _ _ _ _ _ _ ((hent _ _ _ _).mp he) ((hent _ _ _ _).mp he') hj hj' (hdir' m hm)
  · intro x hx
    exact (h.below x (hdir' x hx)).mono (fun d j κ m => (hent d j κ m).mpr) hdir
  · intro m hm
    obtain ⟨ht, hn⟩ := hsame m hm
    rw [ht] at hm
    rw [hn, h.count m hm, ncard_links_eq fun d j κ _ => hent d j κ m]

theorem freed (h : Tree n T) (hT : Freed T T') : Tree n T' := by
  have hkept : ∀ m, (T m).type ≠ .free → (links T m).Nonempty → T' m = T m := by
    intro m hm hl
    rcases hT m with heq | ⟨-, hz⟩
    · exact heq
    · have := h.nlink_pos hm hl
      omega
  have hsame : ∀ m, (T' m).type ≠ .free → T' m = T m := by
    intro m hm
    rcases hT m with heq | ⟨hnone, -⟩
    · exact heq
    · rw [hnone] at hm
      exact absurd rfl hm
  refine h.transfer ?_ ?_ ?_
  · intro d j κ m
    constructor
    · intro he
      have hd := hsame d (ne_free_of_dir he.1)
      unfold Entry at he ⊢
      rwa [hd] at he
    · intro he
      unfold Entry at he ⊢
      rwa [hkept d (ne_free_of_dir he.1) (h.dir_links he.1)]
  · intro m hm
    rw [hsame m hm]
    exact ⟨rfl, rfl⟩
  · intro m hm hl
    rw [hkept m hm hl]
    exact hm

end Tree

end tree

end Xv6Mlfq.Fs
