import Xv6Mlfq.Pipe.Fifo

/-!
# Sleepers on a pipe

A process sleeps on `&p->nread` for an empty pipe and on `&p->nwrite` for a full one, with the other end open
(`Waits`). Whoever ends this condition holds `p->lock` and is on its way to a `wakeup` of the channel
(`Pc.owes`), with one exception: a writer that fills the pipe and then finds itself killed returns at once.
In a run without that, a sleeper finds its condition true whenever the lock is free (`sleepers_wait`); with
it, a reader sleeps on at a full pipe (`sleeps_at_full`).

`fstep` takes the calls that file.c makes: a call runs on a descriptor of its end, so that the last one is
closed after it.
-/

namespace Xv6Mlfq.Pipe

open Lib

variable {ι : Type} [DecidableEq ι] {w w' : World ι} {a : PAct ι} {h : List (PEvent ι)} {t s : ι} {x y : Pc}
  {ch : Chan} {data : Fin PIPESIZE → UInt8}

/-! ## Sleeping and waking -/

def Waits (p : Pipe) : Chan → Prop
  | .nread => p.Empty ∧ p.writeopen = true
  | .nwrite => p.Full ∧ p.readopen = true

instance (p : Pipe) (ch : Chan) : Decidable (Waits p ch) :=
  match ch with
  | .nread => inferInstanceAs (Decidable (_ ∧ _))
  | .nwrite => inferInstanceAs (Decidable (_ ∧ _))

/-- The process has released `p->lock` in `sleep`, and nobody has woken it up. -/
def Sleeper (x : Proc) (ch : Chan) : Prop :=
  ∃ c, c.chan = some ch ∧ (x.pc = .at c .down ∨ x.pc = .at c .asleep ∧ x.state = .sleeping)

/-- A process here calls `wakeup` of the channel before it releases `p->lock`, unless it gives up. -/
def Pc.owes : Pc → Chan → Prop
  | .out, _ => False
  | .at c l, ch =>
    match l with
    | .test =>
      match c with
      | .write _ _ => ch = .nread
      | _ => False
    | .copy => ch = .nwrite
    | .wakeFull => ch = .nread
    | .wakeEnd => ch = c.wakes
    | _ => False

def Pc.About (p : Pipe) : Pc → Prop
  | .at c .wakeFull => ∀ ch, c.chan = some ch → Waits p ch
  | .at c .sleep => ∀ ch, c.chan = some ch → Waits p ch
  | .at c .hand => ∀ ch, c.chan = some ch → Waits p ch
  | _ => True

theorem Pc.owes_holds (hx : x.owes ch) : x.holdsLock = true := by
  cases x with
  | out => exact hx.elim
  | «at» c l => cases l <;> first | rfl | exact hx.elim

theorem Pc.about_of_not {p : Pipe} (hx : x.holdsLock = false) : x.About p := by
  cases x with
  | out => trivial
  | «at» c l => cases l <;> trivial

theorem not_full_of_empty {p : Pipe} (he : p.Empty) : ¬ p.Full := by
  rw [Full_iff, Ring.empty_iff.mp he]
  decide

/-- A sleeping process is in `sched`, with the channel of its call. -/
def Abed (x : Proc) : Prop := x.state = .sleeping → ∃ c, x.pc = .at c .asleep ∧ x.chan = c.chan

/-- What a step does to the sleepers and to what they wait for. -/
structure Serves (w w' : World ι) (t : ι) : Prop where
  pipe : (w.proc t).pc.holdsLock = false → w'.pipe = w.pipe
  killed : ∀ s, s ≠ t → (w'.proc s).killed = (w.proc s).killed
  /-- Who goes to sleep has reason to. -/
  sleepers : ∀ s ch, Sleeper (w'.proc s) ch → Sleeper (w.proc s) ch ∨ Waits w'.pipe ch
  /-- Who ends the reason owes a `wakeup`. -/
  waits : ∀ ch, Waits w.pipe ch → Waits w'.pipe ch ∨ (w'.proc t).pc.owes ch
  /-- Who owes one calls it. -/
  owes : ∀ ch, (w.proc t).pc.owes ch → (w'.proc t).pc.owes ch ∨ ∀ s, ¬ Sleeper (w'.proc s) ch
  about : (w.proc t).pc.About w.pipe → (w'.proc t).pc.About w'.pipe
  abed : ∀ s, Abed (w.proc s) → Abed (w'.proc s)

theorem serves_update {z : Proc} (hx : (w.proc t).pc = x) (hproc : w'.proc = Function.update w.proc t z)
    (hsleep : ∀ ch, Sleeper z ch → Sleeper (w.proc t) ch ∨ Waits w'.pipe ch)
    (hpipe : x.holdsLock = false → w'.pipe = w.pipe)
    (hwaits : ∀ ch, Waits w.pipe ch → Waits w'.pipe ch ∨ z.pc.owes ch)
    (howes : ∀ ch, x.owes ch → z.pc.owes ch ∨ ∀ s, ¬ Sleeper (w'.proc s) ch)
    (habout : x.About w.pipe → z.pc.About w'.pipe) (habed : Abed (w.proc t) → Abed z) : Serves w w' t := by
  have hself : w'.proc t = z := by rw [hproc, Function.update_self]
  have hother : ∀ s, s ≠ t → w'.proc s = w.proc s := fun s hs => by rw [hproc, Function.update_of_ne hs]
  subst hx
  rw [← hself] at hsleep hwaits howes habout habed
  refine ⟨hpipe, fun s hs => by rw [hother s hs], fun s ch hsl => ?_, hwaits, howes, habout, fun s ha => ?_⟩
  · by_cases hs : s = t
    · subst hs
      exact hsleep ch hsl
    · rw [hother s hs] at hsl
      exact .inl hsl
  · by_cases hs : s = t
    · subst hs
      exact habed ha
    · rwa [hother s hs]

theorem Abed.goto {z : Proc} (ha : Abed z) (hz : z.pc = x) (hx : ∀ c, x ≠ .at c .asleep) :
    Abed { z with pc := y } := by
  intro hs
  obtain ⟨c, hc, _⟩ := ha hs
  exact absurd (hz.symm.trans hc) (hx c)

def Place.up (l : Place) : Prop := l ≠ .down ∧ l ≠ .asleep

instance (l : Place) : Decidable l.up := inferInstanceAs (Decidable (_ ∧ _))

theorem not_sleeper_at {z : Proc} {c : Call} {l : Place} (hz : z.pc = .at c l) (hl : l.up) : ¬ Sleeper z ch := by
  rintro ⟨c', _, h | ⟨h, _⟩⟩
  · exact hl.1 (Pc.at.inj (hz.symm.trans h)).2
  · exact hl.2 (Pc.at.inj (hz.symm.trans h)).2

theorem sleeper_goto {c : Call} {l : Place} (hl : l.up) (h : Sleeper ((w.goto t c l).proc s) ch) :
    Sleeper (w.proc s) ch := by
  by_cases hs : s = t
  · subst hs
    exact absurd h (not_sleeper_at (by rw [World.goto_pc, if_pos rfl]) hl)
  · rwa [World.goto_proc, if_neg hs] at h

theorem serves_goto_pipe {c : Call} {l : Place} {p : Pipe} (hx : (w.proc t).pc = x)
    (hxa : ∀ c, x ≠ .at c .asleep) (hl : l.up) (hlock : x.holdsLock = true)
    (hwaits : ∀ ch, Waits w.pipe ch → Waits p ch ∨ (Pc.at c l).owes ch)
    (howes : ∀ ch, x.owes ch → (Pc.at c l).owes ch) (habout : (Pc.at c l).About p) :
    Serves w ({ w with pipe := p }.goto t c l) t := by
  refine serves_update hx rfl (fun ch hsl => absurd hsl (not_sleeper_at rfl hl)) (fun h => ?_) hwaits
    (fun ch ho => .inl (howes ch ho)) (fun _ => habout) fun ha => ha.goto hx hxa
  rw [hlock] at h
  cases h

theorem serves_goto {c : Call} {l : Place} {w₁ : World ι} (hx : (w.proc t).pc = x)
    (hxa : ∀ c, x ≠ .at c .asleep) (hproc : w₁.proc = w.proc) (hpipe : w₁.pipe = w.pipe) (hl : l.up)
    (howes : ∀ ch, x.owes ch → (Pc.at c l).owes ch ∨ ∀ s, ¬ Sleeper ((w₁.goto t c l).proc s) ch)
    (habout : x.About w.pipe → (Pc.at c l).About w.pipe) : Serves w (w₁.goto t c l) t := by
  have hgoto : (w₁.goto t c l).proc = Function.update w.proc t { w.proc t with pc := .at c l } := by
    rw [← hproc]
    rfl
  have hsame : (w₁.goto t c l).pipe = w.pipe := hpipe
  refine serves_update hx hgoto (fun ch hsl => absurd hsl (not_sleeper_at rfl hl)) (fun _ => hsame)
    (fun ch hw => .inl ?_) howes (fun h => ?_) fun ha => ha.goto hx hxa
  · rwa [hsame]
  · rw [hsame]
    exact habout h

/-- A writer here finds itself killed on a full pipe, and returns without a `wakeup`. -/
def Stranding (w : World ι) (t : ι) : Prop :=
  ∃ addr i b, (w.proc t).pc = .at (.write addr i) .test ∧ addr[i]? = some b ∧ w.pipe.Full ∧
    (w.proc t).killed = true

structure Attended (w : World ι) : Prop where
  abed : ∀ t, Abed (w.proc t)
  about : ∀ t, (w.proc t).pc.About w.pipe
  awaited : ∀ s ch, Sleeper (w.proc s) ch → Waits w.pipe ch ∨ ∃ t, (w.proc t).pc.owes ch
  stranding : ∀ t, Stranding w t → ∀ s, ¬ Sleeper (w.proc s) .nread

omit [DecidableEq ι] in
theorem wakeup1_sleeper (hl : Locked w) (hi : Attended w) (hptable : w.ptable = none) (s : ι) :
    ¬ Sleeper ((w.wakeup1 ch).proc s) ch := by
  rintro ⟨c, hc, hdown | ⟨hpc, hstate⟩⟩
  · -- before it is asleep, a sleeper holds `ptable.lock`
    rw [World.wakeup1_pc] at hdown
    have := (hl.ptable s).mpr (by rw [hdown]; rfl)
    rw [hptable] at this
    cases this
  · rw [World.wakeup1_pc] at hpc
    unfold World.wakeup1 at hstate
    dsimp only at hstate
    split_ifs at hstate with hcond
    obtain ⟨c', hpc', hchan⟩ := hi.abed s hstate
    obtain rfl : c = c' := (Pc.at.inj (hpc.symm.trans hpc')).1
    exact hcond ⟨hstate, hchan.trans hc⟩

omit [DecidableEq ι] in
theorem sleeper_wakeup1 {ch' : Chan} (h : Sleeper ((w.wakeup1 ch').proc s) ch) : Sleeper (w.proc s) ch := by
  obtain ⟨c, hc, hdown | ⟨hpc, hstate⟩⟩ := h
  · rw [World.wakeup1_pc] at hdown
    exact ⟨c, hc, .inl hdown⟩
  · rw [World.wakeup1_pc] at hpc
    refine ⟨c, hc, .inr ⟨hpc, ?_⟩⟩
    unfold World.wakeup1 at hstate
    dsimp only at hstate
    split_ifs at hstate
    exact hstate

theorem serves_wakeup {c : Call} {l : Place} (hl : Locked w) (hi : Attended w) (hptable : w.ptable = none)
    (hx : (w.proc t).pc = x) (hxa : ∀ c, x ≠ .at c .asleep) (hup : l.up) (howes : ∀ ch', x.owes ch' → ch' = ch)
    (habout : x.About w.pipe → (Pc.at c l).About w.pipe) : Serves w ((w.wakeup1 ch).goto t c l) t := by
  subst hx
  refine ⟨fun _ => rfl, fun s hs => ?_, fun s ch' hsl => .inl (sleeper_wakeup1 (sleeper_goto hup hsl)),
    fun ch' hw => .inl hw, fun ch' ho => .inr fun s hsl => ?_, fun h => ?_, fun s ha => ?_⟩
  · rw [World.goto_proc, if_neg hs]
    unfold World.wakeup1
    dsimp only
    split_ifs <;> rfl
  · obtain rfl := howes ch' ho
    exact wakeup1_sleeper hl hi hptable s (sleeper_goto hup hsl)
  · rw [World.goto_pc, if_pos rfl]
    exact habout h
  · have hwoken : Abed ((w.wakeup1 ch).proc s) := by
      unfold World.wakeup1
      dsimp only
      split_ifs
      · exact nofun
      · exact ha
    rw [World.goto_proc]
    split_ifs with hs
    · subst hs
      exact hwoken.goto World.wakeup1_pc hxa
    · exact hwoken

/-- **What one step does**, if the readers of a pipe have their end open. -/
theorem Step.serves (h : Step w a w') (hl : Locked w) (hi : Attended w)
    (hread : w.pipe.readopen = false → ∀ s, ¬ Sleeper (w.proc s) .nread) : Serves w w' a.proc := by
  cases h with
  | write hpc => exact serves_goto hpc nofun rfl rfl (by decide) (fun _ h => h.elim) id
  | read hpc => exact serves_goto hpc nofun rfl rfl (by decide) (fun _ h => h.elim) id
  | close hpc => exact serves_goto hpc nofun rfl rfl (by decide) (fun _ h => h.elim) id
  | enter hpc => exact serves_goto hpc nofun rfl rfl (by decide) (fun _ h => h.elim) id
  | stored hpc => exact serves_goto hpc nofun rfl rfl (by decide) (fun _ h => .inl h) id
  | @giveUp t addr i b hpc hb hfull hwhy =>
    have hno : ∀ s, ¬ Sleeper (w.proc s) .nread := by
      rcases hwhy with hclosed | hkilled
      · exact hread hclosed
      · exact hi.stranding t ⟨addr, i, b, hpc, hb, hfull, hkilled⟩
    refine serves_goto hpc nofun rfl rfl (by decide) (fun ch ho => .inr fun s hsl => ?_) id
    obtain rfl : ch = .nread := ho
    exact hno s (sleeper_goto (by decide) hsl)
  | full hpc _ hfull hopen =>
    refine serves_goto hpc nofun rfl rfl (by decide) (fun _ h => .inl h) fun _ ch hch => ?_
    obtain rfl : Chan.nwrite = ch := Option.some.inj hch
    exact ⟨hfull, hopen⟩
  | store hpc _ hfull =>
    refine serves_goto_pipe hpc nofun (by decide) rfl (fun ch hw => ?_) (fun _ h => h) trivial
    cases ch with
    | nread => exact .inr rfl
    | nwrite => exact absurd hw.1 hfull
  | quit hpc => exact serves_goto hpc nofun rfl rfl (by decide) (fun _ h => h.elim) id
  | empty hpc hempty hopen =>
    refine serves_goto hpc nofun rfl rfl (by decide) (fun _ h => h.elim) fun _ ch hch => ?_
    obtain rfl : Chan.nread = ch := Option.some.inj hch
    exact ⟨hempty, hopen⟩
  | copy hpc => exact serves_goto hpc nofun rfl rfl (by decide) (fun _ h => h.elim) id
  | closeWrite hpc =>
    refine serves_goto_pipe hpc nofun (by decide) rfl (fun ch hw => ?_) (fun _ h => h.elim) trivial
    cases ch with
    | nread => exact .inr rfl
    | nwrite => exact .inl hw
  | closeRead hpc =>
    refine serves_goto_pipe hpc nofun (by decide) rfl (fun ch hw => ?_) (fun _ h => h.elim) trivial
    cases ch with
    | nread => exact .inl hw
    | nwrite => exact .inr rfl
  | take hpc _ hempty =>
    refine serves_goto_pipe hpc nofun (by decide) rfl (fun ch hw => ?_) (fun _ h => h) trivial
    cases ch with
    | nread => exact absurd hw.1 hempty
    | nwrite => exact .inr rfl
  | taken hpc => exact serves_goto hpc nofun rfl rfl (by decide) (fun _ h => .inl h) id
  | wakeFull hpc hptable => exact serves_wakeup hl hi hptable hpc nofun (by decide) (fun _ h => h) id
  | sleep hpc => exact serves_goto hpc nofun rfl rfl (by decide) (fun _ h => h.elim) id
  | @hand t c hpc =>
    have hwaits : ∀ ch, c.chan = some ch → Waits w.pipe ch := by
      have habout := hi.about t
      rwa [hpc] at habout
    refine serves_update hpc rfl (fun ch hsl => .inr ?_) (fun _ => rfl) (fun _ h => .inl h) (fun _ h => h.elim)
      (fun _ => trivial) fun ha => ha.goto hpc nofun
    obtain ⟨c', hc, h | ⟨h, _⟩⟩ := hsl
    · obtain rfl : c = c' := (Pc.at.inj h).1
      exact hwaits ch hc
    · cases (Pc.at.inj h).2
  | @down t c hpc =>
    refine serves_update hpc rfl (fun ch hsl => .inl ?_) (fun _ => rfl) (fun _ h => .inl h) (fun _ h => h.elim)
      (fun _ => trivial) fun _ _ => ⟨c, rfl, rfl⟩
    obtain ⟨c', hc, h | ⟨h, _⟩⟩ := hsl
    · cases (Pc.at.inj h).2
    · obtain rfl : c = c' := (Pc.at.inj h).1
      exact ⟨c, hc, .inl hpc⟩
  | woken hpc =>
    refine serves_update hpc rfl (fun _ hsl => absurd hsl (not_sleeper_at rfl (by decide))) (fun _ => rfl)
      (fun _ h => .inl h) (fun _ h => h.elim) (fun _ => trivial) fun ha hs => ?_
    obtain ⟨c', hc', _⟩ := ha hs
    cases hpc.symm.trans hc'
  | wakeEnd hpc hptable => exact serves_wakeup hl hi hptable hpc nofun (by simp [Place.up]) (fun _ h => h) id
  | leave hpc =>
    refine serves_update hpc rfl (fun ch hsl => ?_) (fun _ => rfl) (fun _ h => .inl h) (fun _ h => h.elim)
      (fun _ => trivial) fun ha => ha.goto hpc nofun
    obtain ⟨c', _, h | ⟨h, _⟩⟩ := hsl <;> cases h
  | run hpc =>
    exact serves_update hpc rfl (fun _ hsl => absurd hsl (not_sleeper_at rfl (by decide))) (fun _ => rfl)
      (fun _ h => .inl h) (fun _ h => h.elim) (fun _ => trivial) fun _ => nofun
  | kill =>
    refine serves_update rfl rfl (fun ch hsl => .inl ?_) (fun _ => rfl) (fun _ h => .inl h) (fun _ h => .inl h) id
      fun ha hs => ?_
    · obtain ⟨c, hc, h | ⟨h, hs⟩⟩ := hsl
      · exact ⟨c, hc, .inl h⟩
      · refine ⟨c, hc, .inr ⟨h, ?_⟩⟩
        dsimp only at hs
        split_ifs at hs
        exact hs
    · dsimp only at hs
      split_ifs at hs
      exact ha hs

/-! ## The calls that file.c makes -/

def World.isOpen (w : World ι) (writable : Bool) : Bool :=
  if writable then w.pipe.writeopen else w.pipe.readopen

/-- A call begins on an open end that nobody is closing; it closes the end if nobody is in a call on it. -/
def Allowed (w : World ι) : PAct ι → Prop
  | .write _ _ => w.isOpen true = true ∧ ∀ s, (w.proc s).pc.kind ≠ some (true, true)
  | .read _ _ => w.isOpen false = true ∧ ∀ s, (w.proc s).pc.kind ≠ some (false, true)
  | .close _ e =>
    w.isOpen e = true ∧ ∀ s, (w.proc s).pc.kind ≠ some (e, true) ∧ (w.proc s).pc.kind ≠ some (e, false)
  | _ => True

instance [Fintype ι] (w : World ι) (a : PAct ι) : Decidable (Allowed w a) :=
  match a with
  | .write _ _ => inferInstanceAs (Decidable (_ ∧ _))
  | .read _ _ => inferInstanceAs (Decidable (_ ∧ _))
  | .close _ _ => inferInstanceAs (Decidable (_ ∧ _))
  | .go _ => inferInstanceAs (Decidable True)
  | .run _ => inferInstanceAs (Decidable True)
  | .kill _ => inferInstanceAs (Decidable True)

/-- One step, with the calls that file.c makes. -/
def fstep [Fintype ι] (w : World ι) (a : PAct ι) : Except Blocked (World ι) :=
  if Allowed w a then pstep w a else .error .blocked

/-- `FRun data h w`: the run with history `h` (latest step first) reaches `w`. -/
abbrev FRun [Fintype ι] (data : Fin PIPESIZE → UInt8) (h : List (PEvent ι)) (w : World ι) : Prop :=
  Run fstep (pipealloc data) h w

/-- An end in use is open, and who closes it is alone. -/
structure Ends (w : World ι) : Prop where
  isOpen : ∀ s e, (w.proc s).pc.kind = some (e, false) → w.isOpen e = true
  alone : ∀ s s' e b, (w.proc s).pc.kind = some (e, true) → (w.proc s').pc.kind = some (e, b) → s' = s

theorem Step.isOpen (h : Step w a w') (e : Bool) :
    w'.isOpen e = w.isOpen e ∨ (w.proc a.proc).pc.kind = some (e, true) := by
  cases h with
  | closeWrite hpc =>
    cases e with
    | true => exact .inr (congrArg Pc.kind hpc)
    | false => exact .inl rfl
  | closeRead hpc =>
    cases e with
    | true => exact .inl rfl
    | false => exact .inr (congrArg Pc.kind hpc)
  | _ => exact .inl rfl

omit [DecidableEq ι] in
theorem Allowed.isOpen {e : Bool} (ha : Allowed w a) (hk : a.kind = some (e, false)) :
    w.isOpen e = true ∧ ∀ s, (w.proc s).pc.kind ≠ some (e, true) := by
  cases a with
  | write t addr =>
    cases hk
    exact ha
  | read t n =>
    cases hk
    exact ha
  | _ => cases hk

omit [DecidableEq ι] in
theorem Allowed.close {e : Bool} (ha : Allowed w a) (hk : a.kind = some (e, true)) (b : Bool) :
    ∀ s, (w.proc s).pc.kind ≠ some (e, b) := by
  cases a with
  | close t writable =>
    cases hk
    cases b with
    | true => exact fun s => (ha.2 s).1
    | false => exact fun s => (ha.2 s).2
  | _ => cases hk

theorem Ends.step (he : Ends w) (h : Step w a w') (ha : Allowed w a) : Ends w' := by
  obtain ⟨y, hm⟩ := h.moves
  have hkind : ∀ s, (w'.proc s).pc.kind = if s = a.proc then y.kind else (w.proc s).pc.kind := by
    intro s
    rw [hm.pc]
    split_ifs <;> rfl
  have hk := hm.kind
  refine ⟨fun s e hs => ?_, fun s s' e b hs hs' => ?_⟩
  · have hclosed : w'.isOpen e = w.isOpen e ∨ (w.proc a.proc).pc.kind = some (e, true) := h.isOpen e
    rw [hkind] at hs
    split_ifs at hs with hsa
    · rcases hk with hk | hk | hk
      · obtain ⟨hopen, hno⟩ := ha.isOpen (hk.symm.trans hs)
        rwa [hclosed.resolve_right (hno _)]
      · cases hk.symm.trans hs
      · have hx := hk.symm.trans hs
        rw [hclosed.resolve_right fun hc => by cases hx.symm.trans hc]
        exact he.isOpen _ e hx
    · rw [hclosed.resolve_right fun hc => hsa (he.alone _ s e false hc hs)]
      exact he.isOpen s e hs
  · rw [hkind] at hs hs'
    split_ifs at hs hs' with hsa hsa' hsa'
    · rw [hsa, hsa']
    · rcases hk with hk | hk | hk
      · exact absurd hs' (ha.close (hk.symm.trans hs) b s')
      · cases hk.symm.trans hs
      · rw [hsa]
        exact he.alone _ s' e b (hk.symm.trans hs) hs'
    · rcases hk with hk | hk | hk
      · cases b with
        | true => exact absurd hs (ha.close (hk.symm.trans hs') true s)
        | false => exact absurd hs ((ha.isOpen (hk.symm.trans hs')).2 s)
      · cases hk.symm.trans hs'
      · rw [hsa']
        exact he.alone s _ e b hs (hk.symm.trans hs')
    · exact he.alone s s' e b hs hs'

omit [DecidableEq ι] in
theorem Ends.readers (he : Ends w) (hclosed : w.pipe.readopen = false) (s : ι) : ¬ Sleeper (w.proc s) .nread := by
  rintro ⟨c, hc, hpc⟩
  have hkind : (w.proc s).pc.kind = some (c.writable, c.closes) := by
    rcases hpc with hpc | ⟨hpc, _⟩ <;> rw [hpc] <;> rfl
  cases c with
  | read n addr =>
    have hopen : w.pipe.readopen = true := he.isOpen s false hkind
    rw [hclosed] at hopen
    cases hopen
  | write addr i => cases hc
  | close writable => cases hc

/-! ## Runs without a stranded reader -/

/-- A writer here stores the byte that fills the pipe, and has more to write. -/
def Fills (w : World ι) (t : ι) : Prop :=
  ∃ addr i b, (w.proc t).pc = .at (.write addr i) .test ∧ addr[i]? = some b ∧ (w.pipe.push b).Full ∧
    i + 1 < addr.length

/-- A writer here has more to write, and the pipe is full. -/
def Filled (w : World ι) (t : ι) : Prop :=
  ∃ addr i, (w.proc t).pc = .at (.write addr i) .test ∧ i < addr.length ∧ w.pipe.Full

/-- While a reader sleeps, no killed writer fills the pipe with more to write, and no writer is killed right after it
did. -/
def Spares (w : World ι) : PAct ι → Prop
  | .go t => (w.proc t).killed = true → Fills w t → ∀ s, ¬ Sleeper (w.proc s) .nread
  | .kill t => Filled w t → ∀ s, ¬ Sleeper (w.proc s) .nread
  | _ => True

omit [DecidableEq ι] in
theorem Attended.not_sleeper (hi : Attended w) (hl : Locked w) (hlock : w.lock = none) (hfull : w.pipe.Full)
    (s : ι) : ¬ Sleeper (w.proc s) .nread := by
  intro hsl
  rcases hi.awaited s .nread hsl with hw | ⟨u, hu⟩
  · exact not_full_of_empty hw.1 hfull
  · have := (hl.lock u).mpr (Pc.owes_holds hu)
    rw [hlock] at this
    cases this

theorem Step.stranding (h : Step w a w') (hl : Locked w) (hi : Attended w) (hsp : Spares w a)
    (hst : Stranding w' a.proc) : Stranding w a.proc ∨ ∀ s, ¬ Sleeper (w'.proc s) .nread := by
  obtain ⟨addr, i, b, hpc', hb, hfull, hk⟩ := hst
  cases h with
  | enter hpc hlock =>
    right
    intro s hsl
    exact hi.not_sleeper hl hlock hfull s (sleeper_goto (by decide) hsl)
  | @store t addr' i' b' hpc hb' =>
    -- the byte just stored filled the pipe
    obtain ⟨rfl, rfl⟩ : addr' = addr ∧ i' + 1 = i := by simpa [World.goto, PAct.proc] using hpc'
    have hkilled : (w.proc t).killed = true := by simpa [World.goto, PAct.proc] using hk
    obtain ⟨hlt, _⟩ := List.getElem?_eq_some_iff.mp hb
    right
    intro s hsl
    exact hsp hkilled ⟨addr', i', b', hpc, hb', hfull, hlt⟩ s (sleeper_goto (by decide) hsl)
  | @kill t =>
    have hpc : (w.proc t).pc = .at (.write addr i) .test := by simpa [World.kill, PAct.proc] using hpc'
    obtain ⟨hlt, _⟩ := List.getElem?_eq_some_iff.mp hb
    right
    intro s hsl
    refine hsp ⟨addr, i, hpc, hlt, hfull⟩ s ?_
    by_cases hs : s = t
    · subst hs
      exact absurd hsl (not_sleeper_at hpc' (by decide))
    · have hsame : (w.kill t).proc s = w.proc s := Function.update_of_ne hs _ _
      rwa [hsame] at hsl
  | _ =>
    exfalso
    simp [World.goto, PAct.proc] at hpc'

theorem Attended.step (hi : Attended w) (hl : Locked w) (he : Ends w) (h : Step w a w') (hsp : Spares w a) :
    Attended w' := by
  obtain ⟨y, hm⟩ := h.moves
  have hself : (w'.proc a.proc).pc = y := by rw [hm.pc, if_pos rfl]
  have hother : ∀ {s}, s ≠ a.proc → (w'.proc s).pc = (w.proc s).pc := fun hs => by rw [hm.pc, if_neg hs]
  have hserves := h.serves hl hi he.readers
  -- while somebody else holds the lock, the pipe stays as it is
  have hpipe : ∀ {s}, s ≠ a.proc → (w.proc s).pc.holdsLock = true → w'.pipe = w.pipe := by
    intro s hs hheld
    apply hserves.pipe
    cases hx : (w.proc a.proc).pc.holdsLock with
    | false => rfl
    | true => exact absurd (hl.only hx hheld) hs
  refine ⟨fun s => hserves.abed s (hi.abed s), fun s => ?_, fun s ch hsl => ?_, fun t hst s hsl => ?_⟩
  · by_cases hs : s = a.proc
    · rw [hs]
      exact hserves.about (hi.about _)
    · rw [hother hs]
      cases hheld : (w.proc s).pc.holdsLock with
      | true =>
        rw [hpipe hs hheld]
        exact hi.about s
      | false => exact Pc.about_of_not hheld
  · rcases hserves.sleepers s ch hsl with hold | hw
    · rcases hi.awaited s ch hold with hw | ⟨u, hu⟩
      · exact (hserves.waits ch hw).imp_right fun ho => ⟨_, ho⟩
      · by_cases hua : u = a.proc
        · subst hua
          exact .inr ⟨_, (hserves.owes ch hu).resolve_right fun hno => hno s hsl⟩
        · refine .inr ⟨u, ?_⟩
          rwa [hother hua]
    · exact .inl hw
  · have hnew : Stranding w t → False := by
      intro hold
      rcases hserves.sleepers s .nread hsl with hsl' | hw
      · exact hi.stranding t hold s hsl'
      · obtain ⟨_, _, _, _, _, hfull, _⟩ := hst
        exact not_full_of_empty hw.1 hfull
    by_cases ht : t = a.proc
    · subst ht
      rcases h.stranding hl hi hsp hst with hold | hno
      · exact hnew hold
      · exact hno s hsl
    · obtain ⟨addr, i, b, hpc, hb, hfull, hk⟩ := hst
      rw [hother ht] at hpc
      rw [hserves.killed t ht] at hk
      rw [hpipe ht (by rw [hpc]; rfl)] at hfull
      exact hnew ⟨addr, i, b, hpc, hb, hfull, hk⟩

theorem FRun.attended [Fintype ι] (hr : FRun data h w) (hsp : Always Spares h) :
    Locked w ∧ Ends w ∧ Attended w := by
  refine hr.induct_of (I := fun w => Locked w ∧ Ends w ∧ Attended w) hsp ⟨locked_pipealloc data, ?_, ?_⟩ ?_
  · exact ⟨fun _ _ => nofun, fun _ _ _ _ => nofun⟩
  · refine ⟨fun _ => nofun, fun _ => trivial, ?_, ?_⟩
    · rintro s ch ⟨c, _, hpc | ⟨hpc, _⟩⟩ <;> cases hpc
    · rintro t ⟨addr, i, b, hpc, _⟩
      cases hpc
  · rintro w a w' ⟨hl, he, hi⟩ hsp hs
    unfold fstep at hs
    split_ifs at hs with ha
    have hstep := pstep_step hs
    exact ⟨hstep.locked hl, he.step hstep ha, hi.step hl he hstep hsp⟩

/-- **Sleepers wait for something.** In a run in which no killed writer fills the pipe with more to write while a reader
sleeps, whenever both locks are free: who sleeps on `&p->nread` finds the pipe empty and its write end open, who sleeps
on `&p->nwrite` finds the pipe full and its read end open, and not both sleep. -/
theorem sleepers_wait [Fintype ι] (hr : FRun data h w) (hsp : Always Spares h) (hlock : w.lock = none)
    (_hptable : w.ptable = none) :
    (∀ t, (w.proc t).state = .sleeping → (w.proc t).chan = some .nread →
      w.pipe.Empty ∧ w.pipe.writeopen = true) ∧
    (∀ t, (w.proc t).state = .sleeping → (w.proc t).chan = some .nwrite →
      w.pipe.Full ∧ w.pipe.readopen = true) ∧
    ¬ ∃ t s, ((w.proc t).state = .sleeping ∧ (w.proc t).chan = some .nread) ∧
      (w.proc s).state = .sleeping ∧ (w.proc s).chan = some .nwrite := by
  obtain ⟨hl, _, hi⟩ := hr.attended hsp
  have hwaits : ∀ ch t, (w.proc t).state = .sleeping → (w.proc t).chan = some ch → Waits w.pipe ch := by
    intro ch t hs hchan
    obtain ⟨c, hpc, hc⟩ := hi.abed t hs
    rcases hi.awaited t ch ⟨c, hc.symm.trans hchan, .inr ⟨hpc, hs⟩⟩ with hw | ⟨u, hu⟩
    · exact hw
    · have := (hl.lock u).mpr (Pc.owes_holds hu)
      rw [hlock] at this
      cases this
  refine ⟨hwaits .nread, hwaits .nwrite, ?_⟩
  rintro ⟨t, s, ⟨ht, hct⟩, hs, hcs⟩
  exact not_full_of_empty (hwaits .nread t ht hct).1 (hwaits .nwrite s hs hcs).1

/-- Nobody is killed: a reader sleeps at the empty pipe. -/
theorem sleepers_wait_reader : ∃ (h : List (PEvent (Fin 2))) (w : World (Fin 2)), FRun (fun _ => 0) h w ∧
    ((w.proc 0).state = .sleeping ∧ (w.proc 0).chan = some .nread) ∧
    w.pipe.Empty ∧ w.pipe.writeopen = true := by
  obtain ⟨h, w, hr, hno, hlock, hptable, hs, hchan⟩ := exists_run_of_exec fstep
    (pipealloc fun _ => 0 : World (Fin 2))
    (P := fun h w => (∀ e ∈ h, ∀ t, (e.1.proc t).killed = false ∧ e.2 ≠ .kill t) ∧ w.lock = none ∧
      w.ptable = none ∧ (w.proc 0).state = .sleeping ∧ (w.proc 0).chan = some .nread)
    (List.flatten [[.read 0 1], List.replicate 5 (.go 0)]) (by decide +kernel)
  have hsp : Always Spares h := by
    rintro ⟨w, a⟩ he
    cases a with
    | go t => exact fun hk => absurd ((hno _ he t).1.symm.trans hk) nofun
    | kill t => exact absurd rfl (hno _ he t).2
    | _ => trivial
  exact ⟨h, w, hr, ⟨hs, hchan⟩, (sleepers_wait hr hsp hlock hptable).1 0 hs hchan⟩

theorem run_store [Fintype ι] {addr : List UInt8} {i n : Nat} (hpc : (w.proc t).pc = .at (.write addr i) .test)
    (hrun : (w.proc t).state = .running) (hsize : w.pipe.size + n ≤ PIPESIZE) (hlen : i + n ≤ addr.length) :
    ∃ h w', Run fstep w h w' ∧ w'.pipe.size = w.pipe.size + n ∧ w'.lock = w.lock ∧ w'.ptable = w.ptable ∧
      w'.proc = Function.update w.proc t { w.proc t with pc := .at (.write addr (i + n)) .test } := by
  induction n generalizing w i with
  | zero =>
    refine ⟨[], w, .start, rfl, rfl, rfl, ?_⟩
    rw [Nat.add_zero, ← hpc]
    exact (Function.update_eq_self t w.proc).symm
  | succ n ih =>
    have hlt : i < addr.length := by omega
    have hfull : ¬ w.pipe.Full := by
      rw [Full_iff]
      omega
    have hroom : w.pipe.size < 512 := by
      have : w.pipe.size + (n + 1) ≤ 512 := hsize
      omega
    generalize hw₁ : { w with pipe := { w.pipe with toRing := w.pipe.push addr[i] } }.goto t
      (.write addr (i + 1)) .test = w₁
    have hstep : fstep w (.go t) = .ok w₁ := by
      simp [fstep, Allowed, pstep, hpc, hrun, World.next, World.test, List.getElem?_eq_getElem hlt, hfull, hw₁]
    have hproc : w₁.proc = Function.update w.proc t { w.proc t with pc := .at (.write addr (i + 1)) .test } := by
      rw [← hw₁]
      rfl
    have hsize₁ : w₁.pipe.size = w.pipe.size + 1 := by
      rw [← hw₁]
      exact Ring.size_push (by omega)
    obtain ⟨h, w', hr, hsize', hlock, hptable, hproc'⟩ := ih (w := w₁) (i := i + 1)
      (by rw [hproc, Function.update_self]) (by rw [hproc, Function.update_self]; exact hrun)
      (by rw [hsize₁]; omega) (by omega)
    refine ⟨_, w', (Run.next .start hstep).append hr, by rw [hsize', hsize₁]; omega, ?_, ?_, ?_⟩
    · rw [hlock, ← hw₁]
      rfl
    · rw [hptable, ← hw₁]
      rfl
    · rw [hproc', hproc, Function.update_self, Function.update_idem, Nat.add_right_comm i 1 n, Nat.add_assoc]

/-- **A reader asleep at a full pipe.** Process 0 sleeps in `piperead`; process 1, killed on its way into
`pipewrite`, fills the pipe, has a byte left, and returns. -/
theorem sleeps_at_full : ∃ (h : List (PEvent (Fin 2))) (w : World (Fin 2)), FRun (fun _ => 0) h w ∧
    (w.lock = none ∧ w.ptable = none) ∧ ((w.proc 0).state = .sleeping ∧ (w.proc 0).chan = some .nread) ∧
    w.pipe.Full ∧ ¬ w.pipe.Empty := by
  obtain ⟨h, w, hr, hpc, hrun, hkilled, hsize, hptable, hs⟩ := exists_run_of_exec fstep
    (pipealloc fun _ => 0 : World (Fin 2))
    (P := fun _ w => (w.proc 1).pc = .at (.write (List.replicate 513 0) 0) .test ∧ (w.proc 1).state = .running ∧
      (w.proc 1).killed = true ∧ w.pipe.size = 0 ∧ w.ptable = none ∧ (w.proc 0).state = .sleeping ∧
      (w.proc 0).chan = some .nread)
    (List.flatten [[.read 0 1], List.replicate 5 (.go 0), [.write 1 (List.replicate 513 0), .kill 1, .go 1]])
    (by decide +kernel)
  have hlen : (List.replicate 513 (0 : UInt8)).length = 513 := List.length_replicate
  generalize List.replicate 513 (0 : UInt8) = addr at hpc hlen
  obtain ⟨h', w', hr', hsize', -, hptable', hproc⟩ := run_store (n := 512) hpc hrun (by rw [hsize]) (by omega)
  obtain ⟨b, hget⟩ : ∃ b, addr[512]? = some b := ⟨_, List.getElem?_eq_getElem (by omega)⟩
  have hfull : w'.pipe.Full := Full_iff.mpr (by rw [hsize', hsize])
  have hself : w'.proc 1 = { w.proc 1 with pc := .at (.write addr 512) .test } := by
    rw [hproc, Function.update_self]
  have hother : w'.proc 0 = w.proc 0 := by rw [hproc, Function.update_of_ne (by decide)]
  generalize hw₁ : w'.goto 1 (.write addr 512) (.leave (-1)) = w₁
  have hquit : fstep w' (.go 1) = .ok w₁ := by
    simp [fstep, Allowed, pstep, hself, hrun, hkilled, World.next, World.test, hget, hfull, hw₁]
  have hleave : ∃ w₂, fstep w₁ (.go 1) = .ok w₂ ∧ w₂.lock = none ∧ w₂.ptable = w'.ptable ∧ w₂.pipe = w'.pipe ∧
      w₂.proc 0 = w'.proc 0 := by
    rw [← hw₁]
    simp [fstep, Allowed, pstep, World.goto, hself, hrun, World.next]
  obtain ⟨w₂, hret, hlock₂, hptable₂, hpipe₂, hproc₂⟩ := hleave
  refine ⟨_, w₂, (((hr.append hr').next hquit).next hret), ⟨hlock₂, by rw [hptable₂, hptable', hptable]⟩, ?_, ?_⟩
  · rw [hproc₂, hother]
    exact hs
  · rw [hpipe₂]
    exact ⟨hfull, fun he => not_full_of_empty he hfull⟩

end Xv6Mlfq.Pipe
