import Xv6Mlfq.Lib.Ring
import Xv6Mlfq.Lib.Run
import Xv6Mlfq.Console.Input

/-!
# The line discipline of the console

`Line` says what the console is for: the characters of a line can be edited until the line is committed, and readers get the
committed characters in order. It has lists where `struct input` has a ring with three wrapping indices. `Shows`: the ring
holds the committed characters that are unread and then the line being edited. Every character that comes in and every pass
of the loop of `consoleread` keeps this (`shows_intrChar`, `shows_readChar`), and so does every run of them.
-/

namespace Xv6Mlfq.Tty

open Lib
open Console (INPUT_BUF Input Read slot ctrl newline killLine intrChar readLoop)

/-! ## Readers -/

/-- One pass of the loop of `consoleread` with `n` bytes still wanted, when there is something to read: the byte stored at
`dst`, and whether the call ends. -/
def readChar (i : Input) (n target : Nat) : Input × Option UInt8 × Bool :=
  let c := i.buf (slot i.r)
  if c = ctrl 'D' then (if n < target then i else { i with r := i.r + 1 }, none, true)
  else ({ i with r := i.r + 1 }, some c, c = newline ∨ n = 1)

/-- The console, with the calls of `consoleread` under way. -/
structure State (ι : Type) where
  input : Input
  reader : ι → Option Read

/-- A character comes in, a process calls `consoleread`, or a process under way makes a pass of its loop; `killed` is its
flag then. -/
inductive Act (ι : Type) where
  | char (c : UInt8)
  | call (p : ι) (n : Int)
  | pass (p : ι) (killed : Bool)

variable {ι : Type} [DecidableEq ι]

/-- The step of one action. A pass that finds nothing to read sleeps, or leaves if the process has been killed. -/
def step (s : State ι) : Act ι → Except Unit (State ι)
  | .char c => .ok { s with input := (intrChar s.input c).1 }
  | .call p n =>
    if s.reader p = none then
      .ok (if 0 < n then { s with reader := Function.update s.reader p (some ⟨n.toNat, n.toNat, []⟩) } else s)
    else .error ()
  | .pass p killed =>
    match s.reader p with
    | none => .error ()
    | some rd =>
      if s.input.r = s.input.w then .ok (if killed then { s with reader := Function.update s.reader p none } else s)
      else
        let (i, c, done) := readChar s.input rd.n rd.target
        .ok ⟨i, Function.update s.reader p (if done then none else some ⟨rd.n - 1, rd.target, rd.got ++ c.toList⟩)⟩

def start : State ι := ⟨Input.zero, fun _ => none⟩

def deliveredBy (s : State ι) : Act ι → List UInt8
  | .pass p _ =>
    match s.reader p with
    | some rd => if s.input.r = s.input.w then [] else (readChar s.input rd.n rd.target).2.1.toList
    | none => []
  | _ => []

/-- The bytes delivered to readers, in order. -/
def delivered : List (State ι × Act ι) → List UInt8
  | [] => []
  | (s, a) :: h => delivered h ++ deliveredBy s a

/-! ## The abstract console -/

/-- All characters committed so far, how many of them have been read, and the line being edited. -/
structure Line where
  committed : List UInt8
  taken : Nat
  edit : List UInt8

namespace Line

/-- The committed characters that nobody has read. -/
def unread (l : Line) : List UInt8 := l.committed.drop l.taken

/-- A character is typed. Control-U kills the line, control-H and delete take its last character back; a newline, a
control-D and the 128th character commit it. There is no room for more than 128 characters, and they are dropped. -/
def type (l : Line) (c : UInt8) : Line :=
  if c = ctrl 'P' then l
  else if c = ctrl 'U' then { l with edit := [] }
  else if c = ctrl 'H' ∨ c = 0x7f then { l with edit := l.edit.dropLast }
  else if c ≠ 0 ∧ l.unread.length + l.edit.length < INPUT_BUF then
    let c := if c = 13 then newline else c
    if c = newline ∨ c = ctrl 'D' ∨ l.unread.length + l.edit.length + 1 = INPUT_BUF then
      { l with committed := l.committed ++ (l.edit ++ [c]), edit := [] }
    else { l with edit := l.edit ++ [c] }
  else l

/-- A reader that wants `n` more of `target` bytes takes a character. A control-D stays for a reader that has got nothing. -/
def take (l : Line) (n target : Nat) : Line :=
  match l.unread with
  | [] => l
  | c :: _ => if c = ctrl 'D' ∧ n < target then l else { l with taken := l.taken + 1 }

end Line

def lineBy (s : State ι) (l : Line) : Act ι → Line
  | .char c => l.type c
  | .call _ _ => l
  | .pass p _ =>
    match s.reader p with
    | some rd => l.take rd.n rd.target
    | none => l

def line : List (State ι × Act ι) → Line
  | [] => ⟨[], 0, []⟩
  | (s, a) :: h => lineBy s (line h) a

/-! ## The ring shows the line -/

/-- The ring of the characters that are unread or being edited. -/
def cells (i : Input) : Ring INPUT_BUF UInt8 := ⟨i.buf, i.r, i.e⟩

/-- The ring holds the unread characters and then the line being edited. -/
structure Shows (i : Input) (l : Line) : Prop where
  contents : (cells i).contents = l.unread ++ l.edit
  size : (cells i).size ≤ INPUT_BUF
  unread : (i.w - i.r).toNat = l.unread.length
  taken : l.taken ≤ l.committed.length
  line : newline ∉ l.edit

theorem INPUT_BUF_dvd : INPUT_BUF ∣ 2 ^ 32 := ⟨2 ^ 25, by norm_num⟩

namespace Shows

variable {i : Input} {l : Line}

theorem length (h : Shows i l) : (i.e - i.r).toNat = l.unread.length + l.edit.length := by
  have := congrArg List.length h.contents
  rwa [Ring.length_contents, List.length_append] at this

theorem e_eq_w (h : Shows i l) : i.e = i.w ↔ l.edit = [] := by
  have he := h.length
  have hw := h.unread
  have hsub : i.e = i.w ↔ i.e - i.r = i.w - i.r := ⟨fun heq => by rw [heq], fun heq => by simpa using heq⟩
  rw [hsub, ← UInt32.toNat_inj, he, hw, ← List.length_eq_zero_iff]
  omega

theorem r_eq_w (h : Shows i l) : i.r = i.w ↔ l.unread = [] := by
  have hw := h.unread
  have hsub : i.r = i.w ↔ i.w - i.r = 0 := by
    rw [sub_eq_zero]
    exact eq_comm
  rw [hsub, ← UInt32.toNat_inj, hw, ← List.length_eq_zero_iff]
  rfl

theorem erase (h : Shows i l) (hne : l.edit ≠ []) : Shows { i with e := i.e - 1 } { l with edit := l.edit.dropLast } := by
  have hpos : 0 < (cells i).size := by
    show 0 < (i.e - i.r).toNat
    have := List.length_pos_of_ne_nil hne
    rw [h.length]
    omega
  have hring : cells { i with e := i.e - 1 } = (cells i).unpush := rfl
  refine ⟨?_, ?_, h.unread, h.taken, fun hmem => h.line (List.mem_of_mem_dropLast hmem)⟩
  · rw [hring, Ring.contents_unpush hpos, h.contents, List.dropLast_append_of_ne_nil hne]
    rfl
  · have := Ring.size_unpush hpos
    have := h.size
    rw [hring]
    omega

theorem last (h : Shows i l) (hne : l.edit ≠ []) : i.buf (slot (i.e - 1)) = l.edit.getLast hne := by
  have hpos := List.length_pos_of_ne_nil hne
  have hlen := h.length
  have hsize : (cells i).size = l.unread.length + l.edit.length := hlen
  have hlt : l.unread.length + (l.edit.length - 1) < (cells i).size := by omega
  have hidx : i.r + UInt32.ofNat (l.unread.length + (l.edit.length - 1)) = i.e - 1 := by
    have hle := h.size
    have hr := i.r.toNat_lt
    have he := i.e.toNat_lt
    have hof : (UInt32.ofNat (l.unread.length + (l.edit.length - 1))).toNat = l.unread.length + (l.edit.length - 1) :=
      UInt32.toNat_ofNat_of_lt' (show _ < 4294967296 by rw [hsize] at hle; simp only [INPUT_BUF] at hle; omega)
    rw [UInt32.toNat_sub] at hlen
    rw [← UInt32.toNat_inj, UInt32.toNat_add, UInt32.toNat_sub, UInt32.toNat_one, hof]
    omega
  have hget := Ring.contents_getElem? hlt
  rw [h.contents, List.getElem?_append_right (Nat.le_add_right _ _), Nat.add_sub_cancel_left, ← List.getLast?_eq_getElem?,
    List.getLast?_eq_some_getLast hne] at hget
  have hcell := Option.some.inj hget
  rw [hcell]
  show _ = i.buf (slot (i.r + UInt32.ofNat (l.unread.length + (l.edit.length - 1))))
  rw [hidx]

theorem kill (h : Shows i l) : Shows (killLine l.edit.length i) { l with edit := [] } := by
  generalize hn : l.edit.length = n
  induction n generalizing i l with
  | zero =>
    rw [List.length_eq_zero_iff] at hn
    rw [← hn]
    exact h
  | succ n ih =>
    have hne : l.edit ≠ [] := List.length_pos_iff.mp (by omega)
    unfold killLine
    rw [if_pos]
    · refine ih (l := { l with edit := l.edit.dropLast }) (h.erase hne) ?_
      rw [List.length_dropLast, hn]
      rfl
    · refine ⟨fun heq => hne (h.e_eq_w.mp heq), ?_⟩
      rw [h.last hne]
      exact fun heq => h.line (heq ▸ List.getLast_mem hne)

theorem push {c : UInt8} (h : Shows i l) (hlt : (i.e - i.r).toNat < INPUT_BUF) :
    (cells { i with buf := Function.update i.buf (slot i.e) c, e := i.e + 1 }).contents = l.unread ++ (l.edit ++ [c]) ∧
      (i.e + 1 - i.r).toNat = l.unread.length + l.edit.length + 1 := by
  have hring : cells { i with buf := Function.update i.buf (slot i.e) c, e := i.e + 1 } = (cells i).push c := rfl
  refine ⟨?_, ?_⟩
  · rw [hring, Ring.contents_push INPUT_BUF_dvd (by decide) (show (cells i).size < INPUT_BUF from hlt), h.contents,
      List.append_assoc]
  · rw [← h.length]
    refine Ring.size_push (r := cells i) (a := c) ?_
    have : (cells i).size < INPUT_BUF := hlt
    simp only [INPUT_BUF] at this
    omega

theorem intr (h : Shows i l) (c : UInt8) : Shows (intrChar i c).1 (l.type c) := by
  have hlen := h.length
  unfold intrChar Line.type
  by_cases hP : c = ctrl 'P'
  · simp only [if_pos hP]
    exact h
  by_cases hU : c = ctrl 'U'
  · simp only [if_neg hP, if_pos hU]
    have hcount : (i.e - i.w).toNat = l.edit.length := by
      have hw := h.unread
      have hr := i.r.toNat_lt
      have hw' := i.w.toNat_lt
      have he := i.e.toNat_lt
      rw [UInt32.toNat_sub] at hlen hw ⊢
      have := h.size
      omega
    rw [hcount]
    exact h.kill
  by_cases hH : c = ctrl 'H' ∨ c = 0x7f
  · simp only [if_neg hP, if_neg hU, if_pos hH]
    by_cases hne : l.edit = []
    · rw [if_neg (not_not.mpr (h.e_eq_w.mpr hne)), hne]
      rw [List.dropLast_nil, ← hne]
      exact h
    · rw [if_pos fun heq => hne (h.e_eq_w.mp heq)]
      exact h.erase hne
  simp only [if_neg hP, if_neg hU, if_neg hH]
  have hroom : i.e - i.r < 128 ↔ l.unread.length + l.edit.length < INPUT_BUF := by
    rw [UInt32.lt_iff_toNat_lt, hlen]
    rfl
  by_cases hc : c ≠ 0 ∧ l.unread.length + l.edit.length < INPUT_BUF
  · rw [if_pos ⟨hc.1, hroom.mpr hc.2⟩, if_pos hc]
    generalize (if c = 13 then newline else c) = c'
    obtain ⟨hcontents, hsize⟩ := h.push (c := c') (by rw [hlen]; exact hc.2)
    have hle : (i.e + 1 - i.r).toNat ≤ INPUT_BUF := by
      rw [hsize]
      exact hc.2
    have hfull : i.e + 1 = i.r + 128 ↔ l.unread.length + l.edit.length + 1 = INPUT_BUF := by
      rw [← hsize]
      exact Ring.full_iff (r := cells { i with e := i.e + 1 }) (by decide)
    simp only [hfull]
    split_ifs with hcommit
    · -- the line is committed
      have hunread : (l.committed ++ (l.edit ++ [c'])).drop l.taken = l.unread ++ (l.edit ++ [c']) :=
        List.drop_append_of_le_length h.taken
      refine ⟨?_, hle, ?_, ?_, List.not_mem_nil⟩
      · rw [List.append_nil]
        exact hcontents.trans hunread.symm
      · refine hsize.trans ?_
        show _ = ((l.committed ++ (l.edit ++ [c'])).drop l.taken).length
        rw [hunread, List.length_append, List.length_append]
        rfl
      · exact h.taken.trans (by rw [List.length_append]; exact Nat.le_add_right _ _)
    · refine ⟨hcontents, hle, h.unread, h.taken, fun hmem => ?_⟩
      rcases List.mem_append.mp hmem with hmem | hmem
      · exact h.line hmem
      · exact hcommit (.inl (List.mem_singleton.mp hmem).symm)
  · rw [if_neg fun h => hc ⟨h.1, hroom.mp h.2⟩, if_neg hc]
    exact h

theorem pop (h : Shows i l) {c : UInt8} {q : List UInt8} (hq : l.unread = c :: q) :
    i.buf (slot i.r) = c ∧ Shows { i with r := i.r + 1 } { l with taken := l.taken + 1 } := by
  have hlen := h.length
  have hw := h.unread
  rw [hq, List.length_cons] at hlen hw
  have hpos : 0 < (cells i).size := by
    show 0 < (i.e - i.r).toNat
    omega
  have hpop := Ring.contents_pop hpos
  rw [h.contents, hq, List.cons_append] at hpop
  obtain ⟨hfront, hrest⟩ := List.cons.inj hpop
  have hnext : l.committed.drop (l.taken + 1) = q := by
    rw [← List.drop_drop]
    show (l.unread).drop 1 = q
    rw [hq, List.drop_one, List.tail_cons]
  refine ⟨hfront.symm, ?_, ?_, ?_, ?_, h.line⟩
  · show (cells i).pop.contents = l.committed.drop (l.taken + 1) ++ l.edit
    rw [hnext, hrest]
  · have hsize := Ring.size_pop hpos
    have hle := h.size
    show (cells i).pop.size ≤ INPUT_BUF
    omega
  · show (i.w - (i.r + 1)).toNat = (l.committed.drop (l.taken + 1)).length
    rw [hnext]
    have hr := i.r.toNat_lt
    have hw' := i.w.toNat_lt
    rw [UInt32.toNat_sub] at hw ⊢
    rw [UInt32.toNat_add, UInt32.toNat_one]
    omega
  · show l.taken + 1 ≤ l.committed.length
    have := congrArg List.length hq
    rw [Line.unread, List.length_drop, List.length_cons] at this
    omega

theorem read (h : Shows i l) (n target : Nat) {c : UInt8} {q : List UInt8} (hq : l.unread = c :: q) :
    Shows (readChar i n target).1 (l.take n target) ∧ (readChar i n target).2.1 = if c = ctrl 'D' then none else some c := by
  obtain ⟨hc, hpop⟩ := h.pop hq
  unfold readChar Line.take
  rw [hq, hc]
  by_cases hD : c = ctrl 'D'
  · by_cases hn : n < target
    · simp only [hD, hn, and_self, if_true]
      exact ⟨h, trivial⟩
    · simp only [hD, hn, and_false, if_false, if_true]
      exact ⟨hpop, trivial⟩
  · simp only [hD, false_and, if_false]
    exact ⟨hpop, trivial⟩

theorem byte (h : Shows i l) {j : Nat} (hj : j < l.unread.length) :
    l.unread[j]? = some (i.buf (slot (i.r + UInt32.ofNat j))) := by
  have hlt : j < (cells i).size := by
    show j < (i.e - i.r).toNat
    rw [h.length]
    omega
  have hget := Ring.contents_getElem? hlt
  rwa [h.contents, List.getElem?_append_left hj] at hget

end Shows

/-! ## Committed characters stay -/

theorem killLine_r (n : Nat) (i : Input) : (killLine n i).r = i.r := by
  induction n generalizing i with
  | zero => rfl
  | succ n ih =>
    unfold killLine
    split_ifs
    · exact ih _
    · rfl

theorem intrChar_r (i : Input) (c : UInt8) : (intrChar i c).1.r = i.r := by
  unfold intrChar
  simp only
  split_ifs
  all_goals first | rfl | exact killLine_r _ i

theorem Line.type_committed (l : Line) (c : UInt8) : (l.type c).taken = l.taken ∧
    ∃ t, (l.type c).committed = l.committed ++ t := by
  unfold Line.type
  simp only
  split_ifs
  all_goals first | exact ⟨rfl, [], (List.append_nil _).symm⟩ | exact ⟨rfl, _, rfl⟩

theorem readChar_keeps (i : Input) (n target : Nat) : (readChar i n target).1.buf = i.buf ∧
    (readChar i n target).1.w = i.w := by
  unfold readChar
  simp only
  split_ifs
  all_goals exact ⟨rfl, rfl⟩

theorem Line.take_taken (l : Line) {c : UInt8} {q : List UInt8} (hq : l.unread = c :: q) {n target : Nat} :
    (l.take n target).committed.take (l.take n target).taken =
      if c = ctrl 'D' ∧ n < target then l.committed.take l.taken else l.committed.take l.taken ++ [c] := by
  have hc : l.committed[l.taken]? = some c := by
    have := congrArg (fun t => t[0]?) hq
    simpa [Line.unread] using this
  unfold Line.take
  rw [hq]
  simp only
  split_ifs
  · rfl
  · rw [List.take_add_one, hc]
    rfl

/-- Every index from the read index afterwards to the write index before is still committed, and its character is
the same. -/
def Kept (i i' : Input) : Prop :=
  ∀ x : UInt32, x - i'.r < i.w - i'.r → x - i'.r < i'.w - i'.r ∧ i'.buf (slot x) = i.buf (slot x)

theorem kept_intr {i : Input} {l : Line} (h : Shows i l) (c : UInt8) : Kept i (intrChar i c).1 := by
  have h' := h.intr c
  intro x hx
  rw [intrChar_r] at hx ⊢
  rw [UInt32.lt_iff_toNat_lt, h.unread] at hx
  obtain ⟨htaken, t, ht⟩ := l.type_committed c
  have hunread : (l.type c).unread = l.unread ++ t := by
    rw [Line.unread, htaken, ht, List.drop_append_of_le_length h.taken]
    rfl
  have hw := h'.unread
  rw [intrChar_r, hunread, List.length_append] at hw
  have hidx : i.r + UInt32.ofNat (x - i.r).toNat = x := by
    rw [UInt32.ofNat_toNat]
    abel_nf
  refine ⟨?_, ?_⟩
  · rw [UInt32.lt_iff_toNat_lt, hw]
    omega
  · have hold := h.byte hx
    have hnew := h'.byte (j := (x - i.r).toNat) (by rw [hunread, List.length_append]; omega)
    rw [hunread, List.getElem?_append_left hx, hold, intrChar_r, hidx] at hnew
    exact (Option.some.inj hnew).symm

theorem shows_zero : Shows Input.zero ⟨[], 0, []⟩ := ⟨by decide, by decide, by decide, by decide, List.not_mem_nil⟩

section run

variable {s s' : State ι} {h : List (State ι × Act ι)} {a : Act ι}

theorem shows_step {l : Line} (hs : Shows s.input l) (hstep : step s a = .ok s') : Shows s'.input (lineBy s l a) ∧
    Kept s.input s'.input ∧
    ((lineBy s l a).committed.take (lineBy s l a).taken).filter (· ≠ ctrl 'D') =
      (l.committed.take l.taken).filter (· ≠ ctrl 'D') ++ deliveredBy s a := by
  have hsame : Kept s.input s.input := fun x hx => ⟨hx, rfl⟩
  cases a with
  | char c =>
    cases hstep
    refine ⟨hs.intr c, kept_intr hs c, ?_⟩
    obtain ⟨htaken, t, ht⟩ := l.type_committed c
    show ((l.type c).committed.take (l.type c).taken).filter _ = _ ++ []
    rw [htaken, ht, List.take_append_of_le_length hs.taken, List.append_nil]
  | call p n =>
    simp only [step] at hstep
    split_ifs at hstep
    all_goals
      cases hstep
      exact ⟨hs, hsame, (List.append_nil _).symm⟩
  | pass p killed =>
    simp only [step] at hstep
    simp only [lineBy, deliveredBy]
    cases hrd : s.reader p with
    | none =>
      rw [hrd] at hstep
      cases hstep
    | some rd =>
      simp only [hrd] at hstep ⊢
      by_cases hempty : s.input.r = s.input.w
      · -- nothing to read
        rw [if_pos hempty] at hstep
        have hnil := hs.r_eq_w.mp hempty
        have htake : l.take rd.n rd.target = l := by
          unfold Line.take
          rw [hnil]
        rw [htake, if_pos hempty, List.append_nil]
        split_ifs at hstep
        all_goals
          cases hstep
          exact ⟨hs, hsame, rfl⟩
      · rw [if_neg hempty] at hstep ⊢
        cases hstep
        obtain ⟨c, q, hq⟩ := List.exists_cons_of_ne_nil fun hnil => hempty (hs.r_eq_w.mpr hnil)
        obtain ⟨hshow, hbyte⟩ := hs.read rd.n rd.target hq
        refine ⟨hshow, ?_, ?_⟩
        · have hkeep := readChar_keeps s.input rd.n rd.target
          intro x hx
          rw [← hkeep.2] at hx
          exact ⟨hx, congrFun hkeep.1 _⟩
        · rw [hbyte, l.take_taken hq]
          by_cases hD : c = ctrl 'D'
          · rw [if_pos hD]
            split_ifs
            · exact (List.append_nil _).symm
            · rw [List.filter_append, List.filter_cons_of_neg (by simpa using hD)]
              rfl
          · rw [if_neg hD, if_neg fun h => hD h.1, List.filter_append, List.filter_cons_of_pos (by simpa using hD)]
            rfl

/-- **Every run.** -/
theorem shows_run (hrun : Run step start h s) :
    Shows s.input (line h) ∧ delivered h = ((line h).committed.take (line h).taken).filter (· ≠ ctrl 'D') := by
  induction hrun with
  | start => exact ⟨shows_zero, rfl⟩
  | next _ hstep ih =>
    obtain ⟨hs, hd⟩ := ih
    obtain ⟨hs', -, hd'⟩ := shows_step hs hstep
    exact ⟨hs', (congrArg (· ++ _) hd).trans hd'.symm⟩

theorem pass_eof {p : ι} {killed : Bool} {rd : Read} (hrd : s.reader p = some rd) (hne : s.input.r ≠ s.input.w)
    (hD : s.input.buf (slot s.input.r) = ctrl 'D') :
    deliveredBy s (.pass p killed) = [] ∧ ∃ s', step s (.pass p killed) = .ok s' ∧ s'.reader p = none := by
  have hread : (readChar s.input rd.n rd.target).2 = (none, true) := by
    unfold readChar
    simp only [if_pos hD]
  refine ⟨?_, ⟨(readChar s.input rd.n rd.target).1, Function.update s.reader p none⟩, ?_, ?_⟩
  · simp only [deliveredBy, hrd, if_neg hne, hread, Option.toList_none]
  · simp only [step, hrd, if_neg hne, hread, if_true]
  · exact Function.update_self _ _ _

end run

/-- In every run, of any length and so with any wrap of the indices: `r ≤ w ≤ e ≤ r + INPUT_BUF` as distances; no character
from `w` to `e` is a newline; whatever happens next, the characters committed so far and not read by it are neither altered
nor erased; what was delivered are the characters that were committed and read, without the control-Ds; and a control-D ends
the call that finds it without being delivered. -/
theorem line_discipline {s : State ι} {h : List (State ι × Act ι)} (hrun : Run step start h s) :
    (s.input.w - s.input.r ≤ s.input.e - s.input.r ∧ s.input.e - s.input.r ≤ 128) ∧
    (∀ x : UInt32, s.input.w - s.input.r ≤ x - s.input.r → x - s.input.r < s.input.e - s.input.r →
      s.input.buf (slot x) ≠ newline) ∧
    (∀ a s', step s a = .ok s' → Kept s.input s'.input) ∧
    delivered h = ((line h).committed.take (line h).taken).filter (· ≠ ctrl 'D') ∧
    ∀ p killed rd, s.reader p = some rd → s.input.r ≠ s.input.w → s.input.buf (slot s.input.r) = ctrl 'D' →
      deliveredBy s (.pass p killed) = [] ∧ ∃ s', step s (.pass p killed) = .ok s' ∧ s'.reader p = none := by
  obtain ⟨hs, hd⟩ := shows_run hrun
  refine ⟨⟨?_, ?_⟩, fun x hw he => ?_, fun a s' hstep => (shows_step hs hstep).2.1, hd, fun p killed rd => pass_eof⟩
  · rw [UInt32.le_iff_toNat_le, hs.unread, hs.length]
    exact Nat.le_add_right _ _
  · rw [UInt32.le_iff_toNat_le]
    exact hs.size
  · -- the character is one of the line being edited
    rw [UInt32.le_iff_toNat_le, hs.unread] at hw
    rw [UInt32.lt_iff_toNat_lt] at he
    have hget := Ring.contents_getElem? (r := cells s.input) he
    have hidx : s.input.r + UInt32.ofNat (x - s.input.r).toNat = x := by
      rw [UInt32.ofNat_toNat]
      abel_nf
    rw [hs.contents, List.getElem?_append_right hw] at hget
    intro hnl
    refine hs.line (List.mem_of_getElem? (hget.trans ?_))
    show some (s.input.buf (slot (s.input.r + UInt32.ofNat (x - s.input.r).toNat))) = some newline
    rw [hidx, hnl]

/-- `ab`, backspace, `c`, return, control-D; a read of ten bytes, and a read that ends at the control-D. -/
theorem line_discipline_edit : ∃ h s, Run step (start : State Nat) h s ∧ delivered h = [97, 99, 10] ∧ s.reader 0 = none ∧
    delivered h = ((line h).committed.take (line h).taken).filter (· ≠ ctrl 'D') := by
  obtain ⟨h, s, hrun, hd, hr⟩ := exists_run_of_exec step (start : State Nat)
    (P := fun h s => delivered h = [97, 99, 10] ∧ s.reader 0 = none)
    [.char 97, .char 98, .char 8, .char 99, .call 0 10, .char 13, .char 4, .pass 0 false, .pass 0 false, .pass 0 false,
      .call 0 10, .pass 0 false] (by decide +kernel)
  exact ⟨h, s, hrun, hd, hr, (line_discipline hrun).2.2.2.1⟩

end Xv6Mlfq.Tty
