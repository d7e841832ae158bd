import Xv6Mlfq.Fs.Paths

/-!
# Paths as lists of names

The names of a path are its maximal segments without a slash. `skipelem` takes them off one after the other, cut to
`DIRSIZ` bytes, and `namex` follows them through the maps of the directories: `follow`.
-/

namespace Xv6Mlfq.Fs

def names (path : List UInt8) : List (List UInt8) :=
  (path.splitOnP fun c => decide (c = slash)).filter fun s => decide (s ≠ [])

/-- The inode that a list of names leads to from inode `i`. -/
def follow (T : Nat → Node) : Nat → List (List UInt8) → Option Nat
  | i, [] => some i
  | i, name :: rest =>
    if (T i).type = .dir then (dirMap (entries (T i).contents) (key name)).bind fun i' => follow T i' rest else none

section paths

variable {path path' s : List UInt8} {name : Name} {T : Nat → Node} {i : Nat}

theorem names_slash (path : List UInt8) : names (slash :: path) = names path := by
  unfold names
  rw [List.splitOnP_cons_eq_if_modifyHead, if_pos (decide_eq_true rfl), List.filter_cons_of_neg (by simp)]

theorem names_dropWhile (path : List UInt8) : names (path.dropWhile fun c => decide (c = slash)) = names path := by
  induction path with
  | nil => rfl
  | cons c path ih =>
    by_cases hc : c = slash
    · rw [List.dropWhile_cons, if_pos (decide_eq_true hc), ih, hc, names_slash]
    · rw [List.dropWhile_cons, if_neg (by simpa using hc)]

theorem names_word (hs : s ≠ []) (hno : ∀ c ∈ s, c ≠ slash) (hrest : path = [] ∨ path.head? = some slash) :
    names (s ++ path) = s :: names path := by
  have hword : ∀ c ∈ s, decide (c = slash) = false := fun c hc => decide_eq_false (hno c hc)
  rcases hrest with rfl | hslash
  · unfold names
    rw [List.append_nil, List.splitOnP_eq_singleton hword, List.filter_cons_of_pos (by simpa using hs)]
    rfl
  · obtain ⟨rest, rfl⟩ : ∃ rest, path = slash :: rest := by
      cases path with
      | nil => cases hslash
      | cons c rest => exact ⟨rest, by rw [Option.some.inj hslash]⟩
    rw [names_slash]
    unfold names
    rw [List.splitOnP_append_cons_of_forall_mem hword slash (decide_eq_true rfl),
      List.filter_cons_of_pos (by simpa using hs)]

theorem skipelem_names (path : List UInt8) (name : Name) :
    (skipelem path name = none ∧ names path = []) ∨
    ∃ s rest, skipelem path name = some (putElem name s, rest) ∧ names path = s :: names rest := by
  have hskip : names path = names (path.dropWhile fun c => decide (c = slash)) := (names_dropWhile path).symm
  have hhead : ∀ c, (path.dropWhile fun c => decide (c = slash)).head? = some c → c ≠ slash := by
    intro c hc
    have := List.head?_dropWhile_not (fun c => decide (c = slash)) path
    rw [hc] at this
    simpa using this
  unfold skipelem
  rw [hskip]
  generalize path.dropWhile (fun c => decide (c = slash)) = p at hhead
  by_cases hp : p = []
  · rw [hp]
    exact .inl ⟨rfl, rfl⟩
  · have hsplit : p = p.takeWhile (fun c => decide (c ≠ slash)) ++ p.dropWhile (fun c => decide (c ≠ slash)) :=
      (List.takeWhile_append_dropWhile).symm
    have hdrop : p.drop (p.takeWhile fun c => decide (c ≠ slash)).length = p.dropWhile fun c => decide (c ≠ slash) := by
      have hleft : (p.takeWhile (fun c => decide (c ≠ slash)) ++ p.dropWhile fun c => decide (c ≠ slash)).drop
          (p.takeWhile fun c => decide (c ≠ slash)).length = p.dropWhile fun c => decide (c ≠ slash) := List.drop_left
      rwa [List.takeWhile_append_dropWhile] at hleft
    refine .inr ⟨p.takeWhile fun c => decide (c ≠ slash), _, if_neg hp, ?_⟩
    rw [hdrop, names_dropWhile]
    conv_lhs => rw [hsplit]
    refine names_word ?_ ?_ ?_
    · cases p with
      | nil => exact absurd rfl hp
      | cons c p =>
        rw [List.takeWhile_cons, if_pos (decide_eq_true (hhead c rfl))]
        exact List.cons_ne_nil _ _
    · intro c hc
      simpa using List.mem_takeWhile_imp hc
    · cases hd : p.dropWhile fun c => decide (c ≠ slash) with
      | nil => exact .inl rfl
      | cons c rest =>
        have := List.head?_dropWhile_not (fun c => decide (c ≠ slash)) p
        rw [hd] at this
        exact .inr (by simpa using this)

theorem skipelem_rest {name₀ : Name} (h : skipelem path name₀ = some (name, path')) : path' = [] ↔ names path' = [] := by
  constructor
  · rintro rfl
    rfl
  · intro hn
    rcases skipelem_names path' name with ⟨hnone, -⟩ | ⟨s, rest, -, hcons⟩
    · unfold skipelem at h hnone
      simp only at h hnone
      split_ifs at h hnone with hp hp'
      cases h
      rwa [List.dropWhile_idempotent] at hp'
    · rw [hn] at hcons
      cases hcons

theorem lookup_putElem (es : List Dirent) (name : Name) (s : List UInt8) :
    (lookup (putElem name s) es).map Prod.snd = dirMap es (key s) := by
  rw [lookup_map, key_putElem]

theorem walk_false (fuel : Nat) : ∀ (i : Nat) (name : Name) (path : List UInt8), path.length < fuel →
    (walk T false fuel i name path).map Prod.fst = follow T i (names path) := by
  induction fuel with
  | zero =>
    intro i name path h
    omega
  | succ fuel ih =>
    intro i name path h
    unfold walk
    rcases skipelem_names path name with ⟨hs, hn⟩ | ⟨s, rest, hs, hn⟩
    · rw [hs, hn]
      rfl
    · rw [hs, hn]
      have hlt := skipelem_lt hs
      unfold follow
      simp only [Bool.false_eq_true, false_and, if_false]
      by_cases hd : (T i).type = .dir
      · rw [if_neg (not_not.mpr hd), if_pos hd, ← lookup_putElem _ name]
        cases lookup (putElem name s) (entries (T i).contents) with
        | none => rfl
        | some y => exact ih y.2 (putElem name s) rest (by omega)
      · rw [if_pos hd, if_neg hd]
        rfl

theorem walk_true (fuel : Nat) : ∀ (i : Nat) (name : Name) (path : List UInt8), path.length < fuel →
    (walk T true fuel i name path).map (Prod.map id key) = (names path).getLast?.bind fun last =>
      (follow T i (names path).dropLast).bind fun d => if (T d).type = .dir then some (d, key last) else none := by
  induction fuel with
  | zero =>
    intro i name path h
    omega
  | succ fuel ih =>
    intro i name path h
    unfold walk
    rcases skipelem_names path name with ⟨hs, hn⟩ | ⟨s, rest, hs, hn⟩
    · rw [hs, hn]
      rfl
    · rw [hs, hn]
      have hlt := skipelem_lt hs
      have hend := skipelem_rest hs
      simp only [true_and]
      by_cases hnil : names rest = []
      · rw [if_pos (hend.mpr hnil), hnil, ite_not]
        show _ = if (T i).type = .dir then some (i, key s) else none
        rw [← key_putElem name s]
        split_ifs <;> rfl
      · rw [if_neg fun he => hnil (hend.mp he), List.getLast?_cons_of_ne_nil hnil, List.dropLast_cons_of_ne_nil hnil]
        unfold follow
        by_cases hd : (T i).type = .dir
        · rw [if_neg (not_not.mpr hd), if_pos hd, ← lookup_putElem _ name]
          cases lookup (putElem name s) (entries (T i).contents) with
          | none =>
            show none = _
            cases (names rest).getLast? <;> rfl
          | some y => exact ih y.2 (putElem name s) rest (by omega)
        · rw [if_pos hd, if_neg hd]
          cases (names rest).getLast? <;> rfl

theorem resolve_false (v : View) (p : PIdx) (path : List UInt8) : (v.resolve p path false).map Prod.fst =
    (v.startInum p path).bind fun i => follow v.node i (names path) := by
  unfold View.resolve
  rw [Option.map_bind]
  congr 1
  funext i
  exact walk_false _ i _ path (Nat.lt_succ_self _)

theorem resolve_true (v : View) (p : PIdx) (path : List UInt8) : (v.resolve p path true).map (Prod.map id key) =
    (v.startInum p path).bind fun i => (names path).getLast?.bind fun last =>
      (follow v.node i (names path).dropLast).bind fun d => if (v.node d).type = .dir then some (d, key last) else none := by
  unfold View.resolve
  rw [Option.map_bind]
  congr 1
  funext i
  exact walk_true _ i _ path (Nat.lt_succ_self _)

end paths

end Xv6Mlfq.Fs
