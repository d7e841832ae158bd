import Xv6Mlfq.Fs.Dirent

/-!
# Directories as finite maps

Names are compared up to their first zero byte and `DIRSIZ` bytes at most: `key`. A directory without two live entries
of one key (`Distinct`) is a finite map from keys to inode numbers (`dirMap`), and `dirlookup` evaluates it. Putting an
entry into the first free place adds a key to the map, clearing an entry removes one.
-/

namespace Xv6Mlfq.Fs

def key (name : List UInt8) : List UInt8 := (name.take DIRSIZ).takeWhile fun c => decide (c ≠ 0)

theorem takeWhile_take_succ (n : Nat) (p : List UInt8) : (p.take (n + 1)).takeWhile (fun c => decide (c ≠ 0)) =
    if p.headD 0 = 0 then [] else p.headD 0 :: (p.tail.take n).takeWhile fun c => decide (c ≠ 0) := by
  cases p with
  | nil => simp
  | cons a p =>
    by_cases ha : a = 0
    · simp [ha]
    · simp [ha]

theorem strncmp_eq_zero (n : Nat) : ∀ p q : List UInt8, strncmp n p q = 0 ↔
    (p.take n).takeWhile (fun c => decide (c ≠ 0)) = (q.take n).takeWhile fun c => decide (c ≠ 0) := by
  have hcast : ∀ a b : UInt8, (a.toNat : Int) - b.toNat = 0 ↔ a = b := by
    intro a b
    rw [sub_eq_zero, Nat.cast_inj, UInt8.toNat_inj]
  induction n with
  | zero =>
    intro p q
    simp [strncmp]
  | succ n ih =>
    intro p q
    rw [takeWhile_take_succ, takeWhile_take_succ]
    unfold strncmp
    generalize p.headD 0 = a
    generalize q.headD 0 = b
    by_cases ha : a = 0
    · rw [if_neg fun h => h.1 ha, hcast, if_pos ha]
      by_cases hb : b = 0
      · simp [ha, hb]
      · rw [if_neg hb]
        exact iff_of_false (fun hab => hb (hab ▸ ha)) (List.cons_ne_nil _ _).symm
    · rw [if_neg (c := a = 0) ha]
      by_cases hab : a = b
      · subst hab
        rw [if_pos ⟨ha, rfl⟩, ih, if_neg ha, List.cons_inj_right]
      · rw [if_neg fun h => hab h.2, hcast]
        refine iff_of_false hab ?_
        by_cases hb : b = 0
        · rw [if_pos hb]
          exact List.cons_ne_nil _ _
        · rw [if_neg hb]
          intro heq
          exact hab (List.cons.inj heq).1

theorem namecmp_eq_zero {s t : Name} : namecmp s t = 0 ↔ key s = key t := strncmp_eq_zero DIRSIZ s t

theorem key_takeWhile (t : List UInt8) : key (t.takeWhile fun c => decide (c ≠ 0)) = key t := by
  have htake : ∀ (n : Nat) (l : List UInt8), (l.takeWhile fun c => decide (c ≠ 0)).take n =
      (l.take n).takeWhile fun c => decide (c ≠ 0) := by
    intro n l
    induction l generalizing n with
    | nil => simp
    | cons a l ih =>
      cases n with
      | zero => simp
      | succ n =>
        rw [List.take_succ_cons, List.takeWhile_cons, List.takeWhile_cons, ← ih]
        split_ifs
        · exact List.take_succ_cons
        · exact List.take_nil
  unfold key
  rw [htake, List.takeWhile_idem]

theorem key_append (s : List UInt8) (rest : List UInt8) : key (s ++ 0 :: rest) = key s := by
  unfold key
  rw [List.take_append, List.takeWhile_append]
  split_ifs with hall
  · rw [(List.takeWhile_prefix _).eq_of_length hall]
    cases DIRSIZ - s.length <;> simp
  · rfl

theorem key_take (s : List UInt8) : key (s.take DIRSIZ) = key s := by
  unfold key
  rw [List.take_take, Nat.min_self]

theorem key_putElem (name : Name) (s : List UInt8) : key (putElem name s) = key s := by
  unfold putElem
  split_ifs
  · exact key_take s
  · exact key_append s _

theorem key_pad (s : List UInt8) : key (pad s) = key s := by
  unfold pad
  cases hn : DIRSIZ - s.length with
  | zero => rw [List.replicate_zero, List.append_nil, key_take]
  | succ n => rw [List.replicate_succ, key_append, key_take]

theorem key_strncpy (t : List UInt8) : key (strncpy t) = key t := (key_pad _).trans (key_takeWhile t)

def Dirent.Has (κ : List UInt8) (de : Dirent) : Prop := de.inum ≠ 0 ∧ key de.name = κ

instance (κ : List UInt8) (de : Dirent) : Decidable (de.Has κ) := inferInstanceAs (Decidable (_ ∧ _))

theorem named_iff {name : Name} {de : Dirent} : de.Named name ↔ de.Has (key name) := by
  unfold Dirent.Named Dirent.Has
  rw [namecmp_eq_zero, eq_comm (a := key name)]

def Distinct (es : List Dirent) : Prop :=
  ∀ κ (j j' : Nat) (de de' : Dirent), es[j]? = some de → es[j']? = some de' → de.Has κ → de'.Has κ → j = j'

def dirMap (es : List Dirent) (κ : List UInt8) : Option Nat := (es.find? fun de => decide (de.Has κ)).map Dirent.inum

section maps

variable {es : List Dirent} {name : Name} {κ : List UInt8} {de : Dirent} {i j : Nat}

theorem lookupFrom_map (es : List Dirent) (j : Nat) : (lookupFrom name es j).map Prod.snd = dirMap es (key name) := by
  induction es generalizing j with
  | nil => rfl
  | cons de es ih =>
    unfold lookupFrom dirMap
    rw [List.find?_cons]
    by_cases hd : de.Named name
    · rw [if_pos hd, decide_eq_true (named_iff.mp hd)]
      rfl
    · rw [if_neg hd, decide_eq_false (fun hh => hd (named_iff.mpr hh))]
      exact ih (j + 1)

theorem lookup_map (name : Name) (es : List Dirent) : (lookup name es).map Prod.snd = dirMap es (key name) :=
  lookupFrom_map es 0

theorem lookup_eq_none_iff : lookup name es = none ↔ dirMap es (key name) = none := by
  rw [← lookup_map, Option.map_eq_none_iff]

theorem dirMap_eq_none_iff : dirMap es κ = none ↔ ∀ de ∈ es, ¬ de.Has κ := by
  unfold dirMap
  rw [Option.map_eq_none_iff, List.find?_eq_none]
  simp

theorem Distinct.dirMap_eq_some (h : Distinct es) : dirMap es κ = some i ↔
    ∃ (j : Nat) (de : Dirent), es[j]? = some de ∧ de.Has κ ∧ de.inum = i := by
  constructor
  · intro hm
    obtain ⟨de, hfind, hi⟩ := Option.map_eq_some_iff.mp hm
    obtain ⟨j, hj⟩ := List.mem_iff_getElem?.mp (List.mem_of_find?_eq_some hfind)
    exact ⟨j, de, hj, by simpa using List.find?_some hfind, hi⟩
  · rintro ⟨j, de, hj, hhas, hi⟩
    cases hfind : es.find? fun de => decide (de.Has κ) with
    | none =>
      have := List.find?_eq_none.mp hfind de (List.mem_of_getElem? hj)
      exact absurd hhas (by simpa using this)
    | some de' =>
      obtain ⟨j', hj'⟩ := List.mem_iff_getElem?.mp (List.mem_of_find?_eq_some hfind)
      obtain rfl := h κ j j' de de' hj hj' hhas (by simpa using List.find?_some hfind)
      unfold dirMap
      rw [hfind, ← hi, Option.some.inj (hj.symm.trans hj')]
      rfl

theorem Distinct.nil : Distinct [] := by
  intro κ j j' de de' hj
  simp at hj

/-! ## Adding and removing an entry -/

/-- A new entry goes to the first free place. -/
def place (es : List Dirent) (de : Dirent) : List Dirent :=
  if freeSlot es < es.length then es.set (freeSlot es) de else es ++ [de]

theorem freeSlot_le (es : List Dirent) : freeSlot es ≤ es.length := by
  rcases freeSlot_cases es with heq | ⟨de, hget, -⟩
  · exact heq.le
  · exact (List.getElem?_eq_some_iff.mp hget).1.le

theorem place_getElem? (es : List Dirent) (de : Dirent) (j : Nat) :
    (place es de)[j]? = if j = freeSlot es then some de else es[j]? := by
  unfold place
  split_ifs with hlt hj hj
  · rw [hj, List.getElem?_set_self hlt]
  · exact List.getElem?_set_ne (Ne.symm hj)
  · have heq : freeSlot es = es.length := le_antisymm (freeSlot_le es) (Nat.le_of_not_lt hlt)
    rw [hj, heq, List.getElem?_append_right le_rfl]
    simp
  · have heq : freeSlot es = es.length := le_antisymm (freeSlot_le es) (Nat.le_of_not_lt hlt)
    by_cases hin : j < es.length
    · exact List.getElem?_append_left hin
    · rw [List.getElem?_eq_none (by simp; omega), List.getElem?_eq_none (by omega)]

theorem freeSlot_free {de : Dirent} (h : es[freeSlot es]? = some de) : de.inum = 0 := by
  rcases freeSlot_cases es with heq | ⟨de', hget, hz⟩
  · rw [heq, List.getElem?_eq_none le_rfl] at h
    cases h
  · rw [Option.some.inj (h.symm.trans hget)]
    exact hz

theorem Distinct.place (h : Distinct es) (hnew : ∀ x ∈ es, ¬ x.Has (key de.name)) : Distinct (place es de) := by
  intro κ j j' x x' hj hj' hx hx'
  rw [place_getElem?] at hj hj'
  split_ifs at hj hj' with h₁ h₂ h₂
  · rw [h₁, h₂]
  · cases hj
    have hκ : key de.name = κ := hx.2
    exact absurd (hκ ▸ hx') (hnew x' (List.mem_of_getElem? hj'))
  · cases hj'
    have hκ : key de.name = κ := hx'.2
    exact absurd (hκ ▸ hx) (hnew x (List.mem_of_getElem? hj))
  · exact h κ j j' x x' hj hj' hx hx'

theorem dirMap_place (h : Distinct es) (hnew : dirMap es (key de.name) = none) (hi : de.inum ≠ 0) :
    dirMap (place es de) = Function.update (dirMap es) (key de.name) (some de.inum) := by
  have hno := dirMap_eq_none_iff.mp hnew
  have hd := h.place hno
  funext κ
  refine Option.ext fun i => ?_
  rw [Function.update_apply, hd.dirMap_eq_some]
  constructor
  · rintro ⟨j, x, hj, hx, rfl⟩
    rw [place_getElem?] at hj
    split_ifs at hj with hfree
    · cases hj
      rw [if_pos hx.2.symm]
    · rw [if_neg]
      · exact h.dirMap_eq_some.mpr ⟨j, x, hj, hx, rfl⟩
      · intro hκ
        exact hno x (List.mem_of_getElem? hj) (hκ ▸ hx)
  · intro hm
    split_ifs at hm with hκ
    · refine ⟨freeSlot es, de, ?_, ⟨hi, hκ.symm⟩, Option.some.inj hm⟩
      rw [place_getElem?, if_pos rfl]
    · obtain ⟨j, x, hj, hx, hxi⟩ := h.dirMap_eq_some.mp hm
      refine ⟨j, x, ?_, hx, hxi⟩
      rw [place_getElem?, if_neg]
      · exact hj
      · -- an entry in use is not where the new one went
        rintro rfl
        exact hx.1 (freeSlot_free hj)

theorem Distinct.clear (h : Distinct es) (hz : de.inum = 0) (j : Nat) : Distinct (es.set j de) := by
  intro κ m m' x x' hm hm' hx hx'
  have hkeep : ∀ {m : Nat} {x : Dirent}, (es.set j de)[m]? = some x → x.Has κ → es[m]? = some x := by
    intro m x hm hx
    rw [List.getElem?_set] at hm
    split_ifs at hm
    · cases hm
      exact absurd hz hx.1
    · exact hm
  exact h κ m m' x x' (hkeep hm hx) (hkeep hm' hx') hx hx'

theorem dirMap_clear (h : Distinct es) {x : Dirent} (hj : es[j]? = some x) (hx : x.inum ≠ 0) (hz : de.inum = 0) :
    dirMap (es.set j de) = Function.update (dirMap es) (key x.name) none := by
  have hd := h.clear hz j
  have hlt : j < es.length := (List.getElem?_eq_some_iff.mp hj).1
  funext κ
  refine Option.ext fun i => ?_
  rw [Function.update_apply, hd.dirMap_eq_some]
  constructor
  · rintro ⟨m, y, hm, hy, rfl⟩
    rw [List.getElem?_set] at hm
    split_ifs at hm with hjm
    · cases hm
      exact absurd hz hy.1
    · rw [if_neg]
      · exact h.dirMap_eq_some.mpr ⟨m, y, hm, hy, rfl⟩
      · intro hκ
        exact hjm (h κ j m x y hj hm ⟨hx, hκ.symm⟩ hy)
  · intro hm
    split_ifs at hm with hκ
    obtain ⟨m, y, hmy, hy, hyi⟩ := h.dirMap_eq_some.mp hm
    refine ⟨m, y, ?_, hy, hyi⟩
    rw [List.getElem?_set, if_neg]
    · exact hmy
    · rintro rfl
      rw [Option.some.inj (hj.symm.trans hmy)] at hκ
      exact hκ hy.2.symm

end maps

end Xv6Mlfq.Fs
