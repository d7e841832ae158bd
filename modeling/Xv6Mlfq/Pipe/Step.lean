import Xv6Mlfq.Pipe.Model

/-!
# What a step of a pipe call does

`Step` lists the steps of `pstep` (`pstep_step`), each with its guards. Only the process that takes the step
changes its place, and the locks are where the places say (`Locked`).
-/

namespace Xv6Mlfq.Pipe

open Lib

variable {ι : Type} [DecidableEq ι] {w w' : World ι} {a : PAct ι} {t s : ι} {c : Call} {l : Place}

namespace World

theorem goto_proc : (w.goto t c l).proc s = if s = t then { w.proc t with pc := .at c l } else w.proc s :=
  Function.update_apply _ _ _ _

theorem goto_pc : ((w.goto t c l).proc s).pc = if s = t then .at c l else (w.proc s).pc := by
  rw [goto_proc]
  split_ifs <;> rfl

omit [DecidableEq ι] in
theorem wakeup1_pc {ch : Chan} : ((w.wakeup1 ch).proc s).pc = (w.proc s).pc := by
  unfold wakeup1
  dsimp only
  split_ifs <;> rfl

theorem wakeup1_goto_pc {ch : Chan} :
    (((w.wakeup1 ch).goto t c l).proc s).pc = if s = t then .at c l else (w.proc s).pc := by
  rw [goto_pc, wakeup1_pc]

theorem update_pc {x : Proc} : (Function.update w.proc t x s).pc = if s = t then x.pc else (w.proc s).pc := by
  rw [Function.update_apply]
  split_ifs <;> rfl

end World

/-- The steps. The process that takes one is at the place the step begins with. -/
inductive Step (w : World ι) : PAct ι → World ι → Prop
  | write {t : ι} {addr : List UInt8} (hpc : (w.proc t).pc = .out) :
      Step w (.write t addr) (w.goto t (.write addr 0) .enter)
  | read {t : ι} {n : Nat} (hpc : (w.proc t).pc = .out) : Step w (.read t n) (w.goto t (.read n []) .enter)
  | close {t : ι} {writable : Bool} (hpc : (w.proc t).pc = .out) :
      Step w (.close t writable) (w.goto t (.close writable) .enter)
  | enter {t : ι} {c : Call} (hpc : (w.proc t).pc = .at c .enter) (hlock : w.lock = none) :
      Step w (.go t) ({ w with lock := some t }.goto t c .test)
  | stored {t : ι} {addr : List UInt8} {i : Nat} (hpc : (w.proc t).pc = .at (.write addr i) .test)
      (hi : addr[i]? = none) : Step w (.go t) (w.goto t (.write addr i) .wakeEnd)
  | giveUp {t : ι} {addr : List UInt8} {i : Nat} {b : UInt8} (hpc : (w.proc t).pc = .at (.write addr i) .test)
      (hi : addr[i]? = some b) (hfull : w.pipe.Full)
      (hwhy : w.pipe.readopen = false ∨ (w.proc t).killed = true) :
      Step w (.go t) (w.goto t (.write addr i) (.leave (-1)))
  | full {t : ι} {addr : List UInt8} {i : Nat} {b : UInt8} (hpc : (w.proc t).pc = .at (.write addr i) .test)
      (hi : addr[i]? = some b) (hfull : w.pipe.Full) (hopen : w.pipe.readopen = true) :
      Step w (.go t) (w.goto t (.write addr i) .wakeFull)
  | store {t : ι} {addr : List UInt8} {i : Nat} {b : UInt8} (hpc : (w.proc t).pc = .at (.write addr i) .test)
      (hi : addr[i]? = some b) (hfull : ¬ w.pipe.Full) :
      Step w (.go t)
        ({ w with pipe := { w.pipe with toRing := w.pipe.push b } }.goto t (.write addr (i + 1)) .test)
  | quit {t : ι} {n : Nat} {addr : List UInt8} (hpc : (w.proc t).pc = .at (.read n addr) .test) :
      Step w (.go t) (w.goto t (.read n addr) (.leave (-1)))
  | empty {t : ι} {n : Nat} {addr : List UInt8} (hpc : (w.proc t).pc = .at (.read n addr) .test)
      (hempty : w.pipe.Empty) (hopen : w.pipe.writeopen = true) :
      Step w (.go t) (w.goto t (.read n addr) .sleep)
  | copy {t : ι} {n : Nat} {addr : List UInt8} (hpc : (w.proc t).pc = .at (.read n addr) .test) :
      Step w (.go t) (w.goto t (.read n addr) .copy)
  | closeWrite {t : ι} (hpc : (w.proc t).pc = .at (.close true) .test) :
      Step w (.go t) ({ w with pipe := { w.pipe with writeopen := false } }.goto t (.close true) .wakeEnd)
  | closeRead {t : ι} (hpc : (w.proc t).pc = .at (.close false) .test) :
      Step w (.go t) ({ w with pipe := { w.pipe with readopen := false } }.goto t (.close false) .wakeEnd)
  | take {t : ι} {n : Nat} {addr : List UInt8} (hpc : (w.proc t).pc = .at (.read n addr) .copy)
      (hlen : addr.length < n) (hempty : ¬ w.pipe.Empty) :
      Step w (.go t) ({ w with pipe := { w.pipe with toRing := w.pipe.pop } }.goto t
        (.read n (addr ++ [w.pipe.front])) .copy)
  | taken {t : ι} {n : Nat} {addr : List UInt8} (hpc : (w.proc t).pc = .at (.read n addr) .copy)
      (hend : ¬ (addr.length < n ∧ ¬ w.pipe.Empty)) :
      Step w (.go t) (w.goto t (.read n addr) .wakeEnd)
  | wakeFull {t : ι} {c : Call} (hpc : (w.proc t).pc = .at c .wakeFull) (hptable : w.ptable = none) :
      Step w (.go t) ((w.wakeup1 .nread).goto t c .sleep)
  | sleep {t : ι} {c : Call} (hpc : (w.proc t).pc = .at c .sleep) (hptable : w.ptable = none) :
      Step w (.go t) ({ w with ptable := some t }.goto t c .hand)
  | hand {t : ι} {c : Call} (hpc : (w.proc t).pc = .at c .hand) :
      Step w (.go t) ({ w with lock := none }.goto t c .down)
  | down {t : ι} {c : Call} (hpc : (w.proc t).pc = .at c .down) :
      Step w (.go t) { w with
        ptable := none
        proc := Function.update w.proc t
          { w.proc t with pc := .at c .asleep, state := .sleeping, chan := c.chan } }
  | woken {t : ι} {c : Call} (hpc : (w.proc t).pc = .at c .woken) :
      Step w (.go t) { w with
        ptable := none
        proc := Function.update w.proc t { w.proc t with pc := .at c .enter, chan := none } }
  | wakeEnd {t : ι} {c : Call} (hpc : (w.proc t).pc = .at c .wakeEnd) (hptable : w.ptable = none) :
      Step w (.go t) ((w.wakeup1 c.wakes).goto t c (.leave c.result))
  | leave {t : ι} {c : Call} {r : Int} {freed : Bool} (hpc : (w.proc t).pc = .at c (.leave r)) :
      Step w (.go t) { w with
        lock := none
        proc := Function.update w.proc t { w.proc t with pc := .out }
        freed }
  | run {t : ι} {c : Call} (hpc : (w.proc t).pc = .at c .asleep) (hs : (w.proc t).state = .runnable)
      (hptable : w.ptable = none) :
      Step w (.run t) { w with
        ptable := some t
        proc := Function.update w.proc t { w.proc t with pc := .at c .woken, state := .running } }
  | kill {t : ι} (hptable : w.ptable = none) : Step w (.kill t) (w.kill t)

theorem World.begin_ok (h : w.begin t c = .ok w') :
    (w.proc t).pc = .out ∧ w' = w.goto t c .enter := by
  obtain ⟨hcond, rfl⟩ := ok_of_ite h
  exact ⟨hcond.1, rfl⟩

theorem test_step (hpc : (w.proc t).pc = .at c .test) : Step w (.go t) (w.test t c) := by
  cases c with
  | write addr i =>
    simp only [World.test]
    cases hi : addr[i]? with
    | none => exact .stored hpc hi
    | some b =>
      dsimp only
      split_ifs with hfull hwhy
      · exact .giveUp hpc hi hfull hwhy
      · exact .full hpc hi hfull (by simpa using not_or.mp hwhy |>.1)
      · exact .store hpc hi hfull
  | read n addr =>
    simp only [World.test]
    split_ifs with hcond hkilled
    · exact .quit hpc
    · exact .empty hpc hcond.1 hcond.2
    · exact .copy hpc
  | close writable =>
    cases writable with
    | true => exact .closeWrite hpc
    | false => exact .closeRead hpc

theorem next_step (hpc : (w.proc t).pc = .at c l) (h : w.next t c l = .ok w') : Step w (.go t) w' := by
  cases l with
  | enter =>
    obtain ⟨hcond, rfl⟩ := ok_of_ite h
    exact .enter hpc hcond.1
  | test =>
    cases h
    exact test_step hpc
  | copy =>
    cases c with
    | write addr i => cases h
    | close writable => cases h
    | read n addr =>
      cases h
      unfold World.copy
      split_ifs with hcond
      · exact .take hpc hcond.1 hcond.2
      · exact .taken hpc hcond
  | wakeFull =>
    obtain ⟨hptable, rfl⟩ := ok_of_ite h
    exact .wakeFull hpc hptable
  | sleep =>
    obtain ⟨hptable, rfl⟩ := ok_of_ite h
    exact .sleep hpc hptable
  | hand =>
    cases h
    exact .hand hpc
  | down =>
    cases h
    exact .down hpc
  | asleep => cases h
  | woken =>
    cases h
    exact .woken hpc
  | wakeEnd =>
    obtain ⟨hptable, rfl⟩ := ok_of_ite h
    exact .wakeEnd hpc hptable
  | leave r =>
    cases h
    exact .leave hpc

/-- **Every step of `pstep` is in the list.** -/
theorem pstep_step (h : pstep w a = .ok w') : Step w a w' := by
  cases a with
  | write t addr =>
    obtain ⟨hpc, rfl⟩ := World.begin_ok h
    exact .write hpc
  | read t n =>
    obtain ⟨hpc, rfl⟩ := World.begin_ok h
    exact .read hpc
  | close t writable =>
    obtain ⟨hpc, rfl⟩ := World.begin_ok h
    exact .close hpc
  | go t =>
    simp only [pstep] at h
    split at h
    · cases h
    · rename_i c l hpc
      split_ifs at h
      exact next_step hpc h
  | run t =>
    simp only [pstep] at h
    split at h
    · rename_i c hpc
      obtain ⟨hcond, rfl⟩ := ok_of_ite h
      exact .run hpc hcond.1 hcond.2
    · cases h
  | kill t =>
    obtain ⟨hptable, rfl⟩ := ok_of_ite h
    exact .kill hptable

/-! ## The locks -/

def Pc.holdsLock : Pc → Bool
  | .out => false
  | .at _ l =>
    match l with
    | .test => true
    | .copy => true
    | .wakeFull => true
    | .sleep => true
    | .hand => true
    | .wakeEnd => true
    | .leave _ => true
    | _ => false

def Pc.holdsPtable : Pc → Bool
  | .out => false
  | .at _ l =>
    match l with
    | .hand => true
    | .down => true
    | .woken => true
    | _ => false

def Call.bytes : Call → List UInt8
  | .read _ addr => addr
  | _ => []

/-- Before the second loop of `piperead`, if the call is a read. -/
def Place.early : Place → Bool
  | .copy => false
  | .wakeEnd => false
  | .leave _ => false
  | _ => true

/-- No byte is copied before the loop that copies. -/
def Pc.Fresh : Pc → Prop
  | .out => True
  | .at c l => l.early = true → c.bytes = []

def Call.writable : Call → Bool
  | .write _ _ => true
  | .read _ _ => false
  | .close writable => writable

def Call.closes : Call → Bool
  | .close _ => true
  | _ => false

/-- The end that a process uses, and whether to close it. -/
def Pc.kind : Pc → Option (Bool × Bool)
  | .out => none
  | .at c _ => some (c.writable, c.closes)

/-- The process that takes the step, or that it is taken for. -/
def PAct.proc : PAct ι → ι
  | .write t _ => t
  | .read t _ => t
  | .close t _ => t
  | .go t => t
  | .run t => t
  | .kill t => t

/-- The end that a step begins to use, and whether to close it. -/
def PAct.kind : PAct ι → Option (Bool × Bool)
  | .write _ _ => some (true, false)
  | .read _ _ => some (false, false)
  | .close _ writable => some (writable, true)
  | _ => none

/-- What a step of process `t` does to a lock, if `t` held it before (`b`) and after (`b'`). -/
inductive Passes (t : ι) (b b' : Bool) : Option ι → Option ι → Prop
  | keep {o : Option ι} (h : b' = b) : Passes t b b' o o
  | take {o : Option ι} (ho : o = none) (h : b' = true) : Passes t b b' o (some t)
  | drop {o : Option ι} (hb : b = true) (h : b' = false) : Passes t b b' o none

omit [DecidableEq ι] in
theorem Passes.cases {b b' : Bool} {o o' : Option ι} (h : Passes t b b' o o') :
    (o' = o ∧ b' = b) ∨ (o = none ∧ o' = some t ∧ b' = true) ∨ (o' = none ∧ b = true ∧ b' = false) := by
  cases h with
  | keep hb => exact .inl ⟨rfl, hb⟩
  | take ho hb => exact .inr (.inl ⟨ho, rfl, hb⟩)
  | drop hb hb' => exact .inr (.inr ⟨rfl, hb, hb'⟩)

/-- A process goes on at `y`, and the locks go with it. -/
structure Moves (w : World ι) (a : PAct ι) (w' : World ι) (y : Pc) : Prop where
  pc : ∀ s, (w'.proc s).pc = if s = a.proc then y else (w.proc s).pc
  lock : Passes a.proc (w.proc a.proc).pc.holdsLock y.holdsLock w.lock w'.lock
  ptable : Passes a.proc (w.proc a.proc).pc.holdsPtable y.holdsPtable w.ptable w'.ptable
  fresh : (w.proc a.proc).pc.Fresh → y.Fresh
  kind : y.kind = a.kind ∨ y.kind = none ∨ y.kind = (w.proc a.proc).pc.kind

theorem moves_of {x y : Pc} (hx : (w.proc a.proc).pc = x)
    (hpc : ∀ s, (w'.proc s).pc = if s = a.proc then y else (w.proc s).pc)
    (hl : Passes a.proc x.holdsLock y.holdsLock w.lock w'.lock)
    (hp : Passes a.proc x.holdsPtable y.holdsPtable w.ptable w'.ptable) (hf : x.Fresh → y.Fresh)
    (hk : y.kind = a.kind ∨ y.kind = none ∨ y.kind = x.kind) : Moves w a w' y := by
  subst hx
  exact ⟨hpc, hl, hp, hf, hk⟩

theorem Step.moves (h : Step w a w') : ∃ y, Moves w a w' y := by
  cases h with
  | write hpc =>
    exact ⟨_, moves_of hpc (fun _ => World.goto_pc) (.keep rfl) (.keep rfl) (fun _ _ => rfl) (.inl rfl)⟩
  | read hpc =>
    exact ⟨_, moves_of hpc (fun _ => World.goto_pc) (.keep rfl) (.keep rfl) (fun _ _ => rfl) (.inl rfl)⟩
  | close hpc =>
    exact ⟨_, moves_of hpc (fun _ => World.goto_pc) (.keep rfl) (.keep rfl) (fun _ _ => rfl) (.inl rfl)⟩
  | enter hpc hlock =>
    exact ⟨_, moves_of hpc (fun _ => World.goto_pc) (.take hlock rfl) (.keep rfl) id (.inr (.inr rfl))⟩
  | stored hpc =>
    exact ⟨_, moves_of hpc (fun _ => World.goto_pc) (.keep rfl) (.keep rfl) (fun _ => nofun) (.inr (.inr rfl))⟩
  | giveUp hpc =>
    exact ⟨_, moves_of hpc (fun _ => World.goto_pc) (.keep rfl) (.keep rfl) (fun _ => nofun) (.inr (.inr rfl))⟩
  | full hpc =>
    exact ⟨_, moves_of hpc (fun _ => World.goto_pc) (.keep rfl) (.keep rfl) (fun _ _ => rfl) (.inr (.inr rfl))⟩
  | store hpc =>
    exact ⟨_, moves_of hpc (fun _ => World.goto_pc) (.keep rfl) (.keep rfl) (fun _ _ => rfl) (.inr (.inr rfl))⟩
  | quit hpc =>
    exact ⟨_, moves_of hpc (fun _ => World.goto_pc) (.keep rfl) (.keep rfl) (fun _ => nofun) (.inr (.inr rfl))⟩
  | empty hpc => exact ⟨_, moves_of hpc (fun _ => World.goto_pc) (.keep rfl) (.keep rfl) id (.inr (.inr rfl))⟩
  | copy hpc =>
    exact ⟨_, moves_of hpc (fun _ => World.goto_pc) (.keep rfl) (.keep rfl) (fun _ => nofun) (.inr (.inr rfl))⟩
  | closeWrite hpc =>
    exact ⟨_, moves_of hpc (fun _ => World.goto_pc) (.keep rfl) (.keep rfl) (fun _ => nofun) (.inr (.inr rfl))⟩
  | closeRead hpc =>
    exact ⟨_, moves_of hpc (fun _ => World.goto_pc) (.keep rfl) (.keep rfl) (fun _ => nofun) (.inr (.inr rfl))⟩
  | take hpc =>
    exact ⟨_, moves_of hpc (fun _ => World.goto_pc) (.keep rfl) (.keep rfl) (fun _ => nofun) (.inr (.inr rfl))⟩
  | taken hpc =>
    exact ⟨_, moves_of hpc (fun _ => World.goto_pc) (.keep rfl) (.keep rfl) (fun _ => nofun) (.inr (.inr rfl))⟩
  | wakeFull hpc =>
    exact ⟨_, moves_of hpc (fun _ => World.wakeup1_goto_pc) (.keep rfl) (.keep rfl) id (.inr (.inr rfl))⟩
  | sleep hpc hptable =>
    exact ⟨_, moves_of hpc (fun _ => World.goto_pc) (.keep rfl) (.take hptable rfl) id (.inr (.inr rfl))⟩
  | hand hpc =>
    exact ⟨_, moves_of hpc (fun _ => World.goto_pc) (.drop rfl rfl) (.keep rfl) id (.inr (.inr rfl))⟩
  | down hpc =>
    exact ⟨_, moves_of hpc (fun _ => World.update_pc) (.keep rfl) (.drop rfl rfl) id (.inr (.inr rfl))⟩
  | woken hpc =>
    exact ⟨_, moves_of hpc (fun _ => World.update_pc) (.keep rfl) (.drop rfl rfl) id (.inr (.inr rfl))⟩
  | wakeEnd hpc =>
    exact ⟨_, moves_of hpc (fun _ => World.wakeup1_goto_pc) (.keep rfl) (.keep rfl) (fun _ => nofun) (.inr (.inr rfl))⟩
  | leave hpc =>
    exact ⟨_, moves_of hpc (fun _ => World.update_pc) (.drop rfl rfl) (.keep rfl) (fun _ => trivial) (.inr (.inl rfl))⟩
  | run hpc _ hptable =>
    exact ⟨_, moves_of hpc (fun _ => World.update_pc) (.keep rfl) (.take hptable rfl) id (.inr (.inr rfl))⟩
  | kill => exact ⟨_, moves_of rfl (fun _ => World.update_pc) (.keep rfl) (.keep rfl) id (.inr (.inr rfl))⟩

structure Locked (w : World ι) : Prop where
  lock : ∀ t, w.lock = some t ↔ (w.proc t).pc.holdsLock = true
  ptable : ∀ t, w.ptable = some t ↔ (w.proc t).pc.holdsPtable = true

theorem Passes.holder {f : ι → Bool} {b' : Bool} {o o' : Option ι} (hp : Passes t (f t) b' o o')
    (h : ∀ s, o = some s ↔ f s = true) (s : ι) : o' = some s ↔ (if s = t then b' else f s) = true := by
  cases hp with
  | keep hb =>
    rw [h s]
    split_ifs with hs
    · rw [hs, hb]
    · rfl
  | take ho hb =>
    -- nobody held it
    have hno : ∀ s, f s ≠ true := fun s hs => Option.some_ne_none s (((h s).mpr hs).symm.trans ho)
    split_ifs with hs
    · simp [hs, hb]
    · simp [hno s, Ne.symm hs]
  | drop hb hb' =>
    have ho := (h t).mpr hb
    split_ifs with hs
    · simp [hb']
    · have hne : o ≠ some s := fun heq => hs (Option.some.inj (heq.symm.trans ho))
      simp [← h s, hne]

theorem Moves.locked {y : Pc} (hm : Moves w a w' y) (hw : Locked w) : Locked w' := by
  refine ⟨fun s => ?_, fun s => ?_⟩
  · rw [hm.lock.holder (f := fun s => (w.proc s).pc.holdsLock) hw.lock s, hm.pc s]
    split_ifs <;> rfl
  · rw [hm.ptable.holder (f := fun s => (w.proc s).pc.holdsPtable) hw.ptable s, hm.pc s]
    split_ifs <;> rfl

theorem Step.locked (h : Step w a w') (hw : Locked w) : Locked w' := by
  obtain ⟨y, hm⟩ := h.moves
  exact hm.locked hw

theorem Step.fresh (h : Step w a w') (hw : ∀ t, (w.proc t).pc.Fresh) (s : ι) : (w'.proc s).pc.Fresh := by
  obtain ⟨y, hm⟩ := h.moves
  rw [hm.pc s]
  split_ifs
  · exact hm.fresh (hw _)
  · exact hw s

omit [DecidableEq ι] in
theorem locked_pipealloc (data : Fin PIPESIZE → UInt8) : Locked (pipealloc data : World ι) :=
  ⟨fun _ => by simp [pipealloc, Pc.holdsLock], fun _ => by simp [pipealloc, Pc.holdsPtable]⟩

omit [DecidableEq ι] in
theorem Locked.only (hw : Locked w) (ht : (w.proc t).pc.holdsLock = true)
    (hs : (w.proc s).pc.holdsLock = true) : s = t :=
  Option.some.inj (((hw.lock s).mpr hs).symm.trans ((hw.lock t).mpr ht))

end Xv6Mlfq.Pipe
