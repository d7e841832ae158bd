import Xv6Mlfq.Lib.Run

/-!
# The last reference to an inode (fs.c)

One inode, its on-disk copy and its cache entry, and the processes that refer to it. Each section under
`ip->lock` or `icache.lock` is one step. `iput` is three: the call, its section under `ip->lock` (`check`:
free the inode if it has no links and `ref` is 1), and the decrement under `icache.lock` (`drop`).

Two processes may both make their check before either makes its decrement: then `ref` is 2 at both checks,
neither frees the inode, and it is never freed (`inode_leaked`). A check that finds the inode unlinked is
followed by another one unless `ref` is 1, except in this case (`Watched`); the inode is freed exactly when the
case does not occur (`last_reference_frees`).
-/

namespace Xv6Mlfq.Refcount

open Lib

/-- The fields of `struct dinode` that matter here; `blocks` are the blocks that `addrs` leads to. -/
structure Dinode where
  type : Nat
  nlink : Int
  blocks : List Nat
  deriving DecidableEq

variable {ι : Type}

/-- The inode on disk, its cache entry (`ref`, `valid`, `ip`, `lock`), and who holds the references: `held`
lists the processes with a reference outside `iput`, `entering` those in `iput` before the check, `dropping`
those past the check. -/
structure State (ι : Type) where
  disk : Dinode
  ref : Nat
  valid : Bool
  ip : Dinode
  lock : Option ι
  held : List ι
  entering : List ι
  dropping : List ι

inductive Stop where
  | panic (msg : String)
  | notEnabled
  deriving DecidableEq, Repr

/-- One step. `pass p q`: a reference of `p` is from now on used by `q`, which shares an open file with it.
`update`: the holder of `ip->lock` changes `nlink` or the contents and calls `iupdate`. -/
inductive Act (ι : Type) where
  | iget (p : ι)
  | idup (p q : ι)
  | pass (p q : ι)
  | ilock (p : ι)
  | update (p : ι) (nlink : Int) (blocks : List Nat)
  | iunlock (p : ι)
  | iput (p : ι)
  | check (p : ι)
  | drop (p : ι)
  deriving DecidableEq

/-- `itrunc(ip); ip->type = 0; iupdate(ip); ip->valid = 0`. -/
def State.free (s : State ι) : State ι :=
  let ip : Dinode := { s.ip with type := 0, blocks := [] }
  { s with ip := ip, disk := ip, valid := false }

def State.last (s : State ι) : Bool := s.valid && decide (s.ip.nlink = 0) && decide (s.ref = 1)

theorem last_true {s : State ι} (h : s.last = true) : s.valid = true ∧ s.ip.nlink = 0 ∧ s.ref = 1 := by
  simp only [State.last, Bool.and_eq_true, decide_eq_true_eq] at h
  exact ⟨h.1.1, h.1.2, h.2⟩

variable [DecidableEq ι]

def State.inIput (s : State ι) (p : ι) : Bool := decide (p ∈ s.entering) || decide (p ∈ s.dropping)

def State.holds (s : State ι) (p : ι) : Bool := decide (p ∈ s.held) && !s.inIput p

/-- `iget`, by a process that has found the inode in a directory. -/
def iget (s : State ι) (p : ι) : Except Stop (State ι) :=
  if s.inIput p ∨ s.disk.nlink = 0 then .error .notEnabled
  else if s.ref > 0 then .ok { s with ref := s.ref + 1, held := p :: s.held }
  else .ok { s with ref := 1, valid := false, held := p :: s.held }

def ilock (s : State ι) (p : ι) : Except Stop (State ι) :=
  if s.holds p then
    if s.ref < 1 then .error (.panic "ilock")
    else if s.lock ≠ none then .error .notEnabled
    else if s.valid then .ok { s with lock := some p }
    else if s.disk.type = 0 then .error (.panic "ilock: no type")
    else .ok { s with lock := some p, ip := s.disk, valid := true }
  else .error .notEnabled

/-- The section of `iput` under `ip->lock`, when it does not go to sleep. -/
def check (s : State ι) (p : ι) : Except Stop (State ι) :=
  if p ∈ s.entering ∧ s.lock = none then
    let t := if s.last then s.free else s
    .ok { t with entering := s.entering.erase p, dropping := p :: s.dropping }
  else .error .notEnabled

/-- One step. An `iput` by the holder of `ip->lock` would sleep forever. -/
def step (s : State ι) : Act ι → Except Stop (State ι)
  | .iget p => iget s p
  | .idup p q => if s.holds p then .ok { s with ref := s.ref + 1, held := q :: s.held } else .error .notEnabled
  | .pass p q =>
    if p ∈ s.held ∧ s.lock ≠ some p then .ok { s with held := q :: s.held.erase p } else .error .notEnabled
  | .ilock p => ilock s p
  | .update p nlink blocks =>
    if s.lock = some p then
      let ip : Dinode := { s.ip with nlink := nlink, blocks := blocks }
      .ok { s with ip := ip, disk := ip }
    else .error .notEnabled
  | .iunlock p =>
    if s.lock = some p then
      if s.ref < 1 then .error (.panic "iunlock") else .ok { s with lock := none }
    else .error .notEnabled
  | .iput p =>
    if s.holds p ∧ s.lock ≠ some p then
      .ok { s with held := s.held.erase p, entering := p :: s.entering }
    else .error .notEnabled
  | .check p => check s p
  | .drop p =>
    if p ∈ s.dropping then .ok { s with ref := s.ref - 1, dropping := s.dropping.erase p }
    else .error .notEnabled

def start (d : Dinode) : State ι where
  disk := d
  ref := 0
  valid := false
  ip := d
  lock := none
  held := []
  entering := []
  dropping := []

/-- A step of a run: the state it is taken in, and the action. -/
abbrev Event (ι : Type) : Type := State ι × Act ι

/-- The runs of an inode with the on-disk copy `d`, latest step first. -/
abbrev RRun (d : Dinode) (h : List (Event ι)) (s : State ι) : Prop := Run step (start d) h s

def frees (e : Event ι) : Bool :=
  match e.2 with
  | .check _ => e.1.last
  | _ => false

/-- When a check finds the inode unlinked, either `ref` is 1, or some other reference has its own check still
to come. -/
def Watched (s : State ι) : Act ι → Prop
  | .check p => s.valid = true → s.ip.nlink = 0 → s.ref = 1 ∨ s.held ≠ [] ∨ s.entering.erase p ≠ []
  | _ => True

instance (s : State ι) (a : Act ι) : Decidable (Watched s a) :=
  match a with
  | .iget _ => inferInstanceAs (Decidable True)
  | .idup _ _ => inferInstanceAs (Decidable True)
  | .pass _ _ => inferInstanceAs (Decidable True)
  | .ilock _ => inferInstanceAs (Decidable True)
  | .update _ _ _ => inferInstanceAs (Decidable True)
  | .iunlock _ => inferInstanceAs (Decidable True)
  | .iput _ => inferInstanceAs (Decidable True)
  | .check _ => inferInstanceAs (Decidable (_ → _ → _ ∨ _ ∨ _))
  | .drop _ => inferInstanceAs (Decidable True)

variable {d : Dinode} {s s' : State ι} {h : List (Event ι)} {a : Act ι} {p q : ι}

/-! ## What each step needs and does -/

theorem holds_mem (h : s.holds p = true) : p ∈ s.held := by
  simp only [State.holds, Bool.and_eq_true, decide_eq_true_eq] at h
  exact h.1

theorem iget_ok (h : step s (.iget p) = .ok s') :
    s.disk.nlink ≠ 0 ∧ ∃ v, (s.ref ≠ 0 → v = s.valid) ∧ (v = true → s.valid = true) ∧
      s' = { s with ref := s.ref + 1, valid := v, held := p :: s.held } := by
  simp only [step, iget] at h
  split_ifs at h with h₁ h₂
  · exact ⟨fun hn => h₁ (.inr hn), s.valid, fun _ => rfl, id, (Except.ok.inj h).symm⟩
  · have hzero : s.ref = 0 := by omega
    refine ⟨fun hn => h₁ (.inr hn), false, fun hne => absurd hzero hne, nofun, ?_⟩
    rw [hzero]
    exact (Except.ok.inj h).symm

theorem ilock_ok (h : step s (.ilock p) = .ok s') :
    p ∈ s.held ∧ s.lock = none ∧
      (s.valid = true ∧ s' = { s with lock := some p } ∨
        s.valid = false ∧ s.disk.type ≠ 0 ∧ s' = { s with lock := some p, ip := s.disk, valid := true }) := by
  simp only [step, ilock] at h
  split_ifs at h with h₁ h₂ h₃ h₄ h₅
  · exact ⟨holds_mem h₁, by simpa using h₃, .inl ⟨h₄, (Except.ok.inj h).symm⟩⟩
  · exact ⟨holds_mem h₁, by simpa using h₃, .inr ⟨by simpa using h₄, h₅, (Except.ok.inj h).symm⟩⟩

theorem iunlock_ok (h : step s (.iunlock p) = .ok s') : s.lock = some p ∧ s' = { s with lock := none } := by
  simp only [step] at h
  split_ifs at h with h₁ h₂
  exact ⟨h₁, (Except.ok.inj h).symm⟩

theorem check_ok (h : step s (.check p) = .ok s') :
    p ∈ s.entering ∧ s.lock = none ∧
      (s.last = true ∧ s' = { s.free with
          entering := s.entering.erase p
          dropping := p :: s.dropping } ∨
        s.last = false ∧ s' = { s with
          entering := s.entering.erase p
          dropping := p :: s.dropping }) := by
  simp only [step, check] at h
  obtain ⟨⟨hp, hl⟩, rfl⟩ := ok_of_ite h
  refine ⟨hp, hl, ?_⟩
  cases hlast : s.last with
  | true => exact .inl ⟨rfl, by simp⟩
  | false => exact .inr ⟨rfl, by simp⟩

/-! ## The counter, the lock and the two copies -/

/-- `ref` counts the references, the holder of the lock has one, a valid entry agrees with the disk; and
once the inode is free nobody refers to it, except an `iput` past its check. -/
structure Sound (s : State ι) : Prop where
  count : s.ref = s.held.length + s.entering.length + s.dropping.length
  holder : ∀ p, s.lock = some p → p ∈ s.held ∧ s.valid = true
  agree : s.valid = true → s.ip = s.disk
  freed : s.disk.type = 0 → s.disk.nlink = 0 ∧ s.disk.blocks = [] ∧ s.held = [] ∧ s.entering = []

namespace Sound

omit [DecidableEq ι] in
theorem alone (hs : Sound s) (hp : p ∈ s.entering) (hlast : s.last = true) :
    s.held = [] ∧ s.entering = [p] ∧ s.dropping = [] := by
  obtain ⟨-, -, hone⟩ := last_true hlast
  have hcount := hs.count
  have hpos : 0 < s.entering.length := List.length_pos_of_mem hp
  have hheld : s.held.length = 0 := by omega
  have hdrop : s.dropping.length = 0 := by omega
  obtain ⟨q, hq⟩ := List.length_eq_one_iff.mp (show s.entering.length = 1 by omega)
  have hpq : p = q := by simpa [hq] using hp
  exact ⟨List.eq_nil_of_length_eq_zero hheld, by rw [hq, hpq], List.eq_nil_of_length_eq_zero hdrop⟩

omit [DecidableEq ι] in
theorem used (hs : Sound s) (hp : p ∈ s.held) : s.disk.type ≠ 0 := by
  intro hzero
  rw [(hs.freed hzero).2.2.1] at hp
  cases hp

omit [DecidableEq ι] in
theorem entered (hs : Sound s) (hp : p ∈ s.entering) : s.disk.type ≠ 0 := by
  intro hzero
  rw [(hs.freed hzero).2.2.2] at hp
  cases hp

theorem step (hs : Sound s) (ht : step s a = .ok s') : Sound s' := by
  have hcount := hs.count
  cases a with
  | iget p =>
    obtain ⟨hn, v, hv, hv', rfl⟩ := iget_ok ht
    refine ⟨by simp only [List.length_cons]; omega, fun q hq => ?_, fun hval => hs.agree (hv' hval),
      fun hzero => absurd (hs.freed hzero).1 hn⟩
    obtain ⟨hmem, hval⟩ := hs.holder q hq
    refine ⟨List.mem_cons_of_mem _ hmem, ?_⟩
    -- a locked entry has a reference, so it is not taken anew
    have hpos := List.length_pos_of_mem hmem
    exact (hv (by omega)).trans hval
  | idup p q =>
    obtain ⟨hp, rfl⟩ := ok_of_ite ht
    have htype := hs.used (holds_mem hp)
    refine ⟨by simp only [List.length_cons]; omega, fun r hr => ?_, hs.agree,
      fun hzero => absurd hzero htype⟩
    exact ⟨List.mem_cons_of_mem _ (hs.holder r hr).1, (hs.holder r hr).2⟩
  | pass p q =>
    obtain ⟨⟨hp, hl⟩, rfl⟩ := ok_of_ite ht
    have hlen := List.length_erase_of_mem hp
    have hpos := List.length_pos_of_mem hp
    refine ⟨by simp only [List.length_cons]; omega, fun r hr => ?_, hs.agree,
      fun hzero => absurd hzero (hs.used hp)⟩
    obtain ⟨hmem, hval⟩ := hs.holder r hr
    have hne : r ≠ p := fun heq => hl (heq ▸ hr)
    exact ⟨List.mem_cons_of_mem _ ((List.mem_erase_of_ne hne).mpr hmem), hval⟩
  | ilock p =>
    obtain ⟨hp, -, ⟨hval, rfl⟩ | ⟨-, htype, rfl⟩⟩ := ilock_ok ht
    · exact ⟨hcount, fun r hr => ⟨Option.some.inj hr ▸ hp, hval⟩, hs.agree, hs.freed⟩
    · exact ⟨hcount, fun r hr => ⟨Option.some.inj hr ▸ hp, rfl⟩, fun _ => rfl, hs.freed⟩
  | update p nlink blocks =>
    obtain ⟨hl, rfl⟩ := ok_of_ite ht
    obtain ⟨hmem, hval⟩ := hs.holder p hl
    refine ⟨hcount, hs.holder, fun _ => rfl, fun hzero => absurd ?_ (hs.used hmem)⟩
    rw [← hs.agree hval]
    exact hzero
  | iunlock p =>
    obtain ⟨-, rfl⟩ := iunlock_ok ht
    exact ⟨hcount, nofun, hs.agree, hs.freed⟩
  | iput p =>
    obtain ⟨⟨hp, hl⟩, rfl⟩ := ok_of_ite ht
    have hmem := holds_mem hp
    have hlen := List.length_erase_of_mem hmem
    have hpos := List.length_pos_of_mem hmem
    refine ⟨by simp only [List.length_cons]; omega, fun r hr => ?_, hs.agree,
      fun hzero => absurd hzero (hs.used hmem)⟩
    obtain ⟨hr', hval⟩ := hs.holder r hr
    have hne : r ≠ p := fun heq => hl (heq ▸ hr)
    exact ⟨(List.mem_erase_of_ne hne).mpr hr', hval⟩
  | check p =>
    obtain ⟨hp, hl, ⟨hlast, rfl⟩ | ⟨-, rfl⟩⟩ := check_ok ht
    · obtain ⟨hheld, hent, hdrop⟩ := hs.alone hp hlast
      obtain ⟨-, hn, hone⟩ := last_true hlast
      refine ⟨by simp [State.free, hheld, hent, hdrop, hone], fun r hr => ?_, nofun,
        fun _ => ⟨hn, rfl, hheld, by simp [hent]⟩⟩
      exact absurd (hl.symm.trans hr) nofun
    · have hlen := List.length_erase_of_mem hp
      have hpos := List.length_pos_of_mem hp
      exact ⟨by simp only [List.length_cons]; omega, hs.holder, hs.agree,
        fun hzero => absurd hzero (hs.entered hp)⟩
  | drop p =>
    obtain ⟨hp, rfl⟩ := ok_of_ite ht
    have hlen := List.length_erase_of_mem hp
    have hpos := List.length_pos_of_mem hp
    exact ⟨by simp only; omega, hs.holder, hs.agree, hs.freed⟩

end Sound

theorem RRun.sound (hd : d.type ≠ 0) (hr : RRun d h s) : Sound s := by
  refine hr.induct (I := Sound) ?_ fun s a s' hs ht => hs.step ht
  exact ⟨rfl, nofun, nofun, fun hzero => absurd hzero hd⟩

/-! ## Freeing -/

/-- The inode is on disk as long as no step has freed it, and only one step does. -/
def Once (h : List (Event ι)) (s : State ι) : Prop := (h.filter frees).length = if s.disk.type = 0 then 1 else 0

omit [DecidableEq ι] in
theorem Once.keep (ho : Once h s) (hf : frees (s, a) = false) (htype : s'.disk.type = s.disk.type) :
    Once ((s, a) :: h) s' := by
  rw [Once, htype, List.filter_cons, hf]
  exact ho

theorem Once.step (ho : Once h s) (hs : Sound s) (ht : step s a = .ok s') : Once ((s, a) :: h) s' := by
  cases a with
  | iget p =>
    obtain ⟨-, v, -, -, rfl⟩ := iget_ok ht
    exact ho.keep rfl rfl
  | idup p q =>
    obtain ⟨-, rfl⟩ := ok_of_ite ht
    exact ho.keep rfl rfl
  | pass p q =>
    obtain ⟨-, rfl⟩ := ok_of_ite ht
    exact ho.keep rfl rfl
  | ilock p =>
    obtain ⟨-, -, ⟨-, rfl⟩ | ⟨-, -, rfl⟩⟩ := ilock_ok ht
    · exact ho.keep rfl rfl
    · exact ho.keep rfl rfl
  | update p nlink blocks =>
    obtain ⟨hl, rfl⟩ := ok_of_ite ht
    refine ho.keep rfl ?_
    rw [← hs.agree (hs.holder p hl).2]
  | iunlock p =>
    obtain ⟨-, rfl⟩ := iunlock_ok ht
    exact ho.keep rfl rfl
  | iput p =>
    obtain ⟨-, rfl⟩ := ok_of_ite ht
    exact ho.keep rfl rfl
  | check p =>
    obtain ⟨hp, -, ⟨hlast, rfl⟩ | ⟨hlast, rfl⟩⟩ := check_ok ht
    · rw [Once, if_neg (hs.entered hp)] at ho
      rw [Once, List.filter_cons, if_pos (show frees (s, .check p) = true from hlast), List.length_cons, ho]
      rfl
    · exact ho.keep hlast rfl
  | drop p =>
    obtain ⟨-, rfl⟩ := ok_of_ite ht
    exact ho.keep rfl rfl

theorem RRun.once (hd : d.type ≠ 0) (hr : RRun d h s) : Once h s := by
  induction hr with
  | start => exact (if_neg hd).symm
  | next hr ht ih => exact ih.step (RRun.sound hd hr) ht

/-- As long as the inode is unlinked and not freed, some check is still to come, and its entry is valid. -/
def Kept (s : State ι) : Prop :=
  s.disk.type ≠ 0 → s.disk.nlink = 0 → s.valid = true ∧ (s.held ≠ [] ∨ s.entering ≠ [])

/-- The inode is unlinked, and every reference is past its check. -/
def Leaked (s : State ι) : Prop :=
  s.disk.type ≠ 0 ∧ s.disk.nlink = 0 ∧ s.held = [] ∧ s.entering = []

theorem Kept.step (hk : Kept s) (hs : Sound s) (hw : Watched s a) (ht : step s a = .ok s') : Kept s' := by
  intro htype hzero
  cases a with
  | iget p =>
    obtain ⟨hn, v, -, -, rfl⟩ := iget_ok ht
    exact absurd hzero hn
  | idup p q =>
    obtain ⟨-, rfl⟩ := ok_of_ite ht
    exact ⟨(hk htype hzero).1, .inl (List.cons_ne_nil _ _)⟩
  | pass p q =>
    obtain ⟨-, rfl⟩ := ok_of_ite ht
    exact ⟨(hk htype hzero).1, .inl (List.cons_ne_nil _ _)⟩
  | ilock p =>
    obtain ⟨-, -, ⟨-, rfl⟩ | ⟨-, -, rfl⟩⟩ := ilock_ok ht
    · exact hk htype hzero
    · exact ⟨rfl, (hk htype hzero).2⟩
  | update p nlink blocks =>
    obtain ⟨hl, rfl⟩ := ok_of_ite ht
    obtain ⟨hmem, hval⟩ := hs.holder p hl
    exact ⟨hval, .inl (List.ne_nil_of_mem hmem)⟩
  | iunlock p =>
    obtain ⟨-, rfl⟩ := iunlock_ok ht
    exact hk htype hzero
  | iput p =>
    obtain ⟨-, rfl⟩ := ok_of_ite ht
    exact ⟨(hk htype hzero).1, .inr (List.cons_ne_nil _ _)⟩
  | check p =>
    obtain ⟨-, -, ⟨-, rfl⟩ | ⟨hlast, rfl⟩⟩ := check_ok ht
    · exact absurd rfl htype
    · obtain ⟨hval, -⟩ := hk htype hzero
      have hn : s.ip.nlink = 0 := (congrArg Dinode.nlink (hs.agree hval)).trans hzero
      refine ⟨hval, ?_⟩
      rcases hw hval hn with hone | hheld | hent
      · simp [State.last, hval, hn, hone] at hlast
      · exact .inl hheld
      · exact .inr hent
  | drop p =>
    obtain ⟨-, rfl⟩ := ok_of_ite ht
    exact hk htype hzero

theorem leaked_of_not_watched (hs : Sound s) (hw : ¬ Watched s a) (ht : step s a = .ok s') : Leaked s' := by
  cases a with
  | check p =>
    simp only [Watched, Classical.not_imp, not_or, not_not] at hw
    obtain ⟨hval, hn, hone, hheld, hent⟩ := hw
    obtain ⟨hp, -, ⟨hlast, -⟩ | ⟨-, rfl⟩⟩ := check_ok ht
    · exact absurd (last_true hlast).2.2 hone
    · exact ⟨hs.entered hp, (congrArg Dinode.nlink (hs.agree hval)).symm.trans hn, hheld, hent⟩
  | _ => exact absurd trivial hw

theorem Leaked.step (hl : Leaked s) (hs : Sound s) (ht : step s a = .ok s') : Leaked s' := by
  obtain ⟨htype, hzero, hheld, hent⟩ := hl
  have hnone : ∀ p, ¬ s.holds p = true := by
    intro p hp
    have := holds_mem hp
    simp [hheld] at this
  have hlock : ∀ p, s.lock ≠ some p := by
    intro p hp
    have := (hs.holder p hp).1
    simp [hheld] at this
  cases a with
  | iget p =>
    obtain ⟨hn, -⟩ := iget_ok ht
    exact absurd hzero hn
  | idup p q => exact absurd (ok_of_ite ht).1 (hnone p)
  | pass p q =>
    have := (ok_of_ite ht).1.1
    simp [hheld] at this
  | ilock p =>
    have := (ilock_ok ht).1
    simp [hheld] at this
  | update p nlink blocks => exact absurd (ok_of_ite ht).1 (hlock p)
  | iunlock p => exact absurd (iunlock_ok ht).1 (hlock p)
  | iput p => exact absurd (ok_of_ite ht).1.1 (hnone p)
  | check p =>
    have := (check_ok ht).1
    simp [hent] at this
  | drop p =>
    obtain ⟨-, rfl⟩ := ok_of_ite ht
    exact ⟨htype, hzero, hheld, hent⟩

theorem RRun.kept (hd : d.type ≠ 0) (hn : d.nlink ≠ 0) (hr : RRun d h s) (hw : Always Watched h) : Kept s := by
  induction hr with
  | start => exact fun _ hzero => absurd hzero hn
  | next hr ht ih =>
    obtain ⟨hwatch, hw⟩ := always_cons.mp hw
    exact (ih hw).step (RRun.sound hd hr) hwatch ht

theorem RRun.leaked (hd : d.type ≠ 0) (hr : RRun d h s) (hw : ¬ Always Watched h) : Leaked s := by
  induction hr with
  | start => exact absurd always_nil hw
  | @next h s s' a hr ht ih =>
    have hs := RRun.sound hd hr
    by_cases hw' : Always Watched h
    · refine leaked_of_not_watched hs (fun hwatch => hw ?_) ht
      exact always_cons.mpr ⟨hwatch, hw'⟩
    · exact (ih hw').step hs ht

theorem RRun.freeing (hd : d.type ≠ 0) (hr : RRun d h s) (hmem : (s', a) ∈ h) (hf : frees (s', a) = true) :
    s'.disk.nlink = 0 ∧ s'.held = [] ∧ (∃ p, a = .check p ∧ s'.entering = [p]) ∧ s'.dropping = [] := by
  induction hr with
  | start => cases hmem
  | @next h s t b hr ht ih =>
    rcases List.mem_cons.mp hmem with heq | hmem
    · obtain ⟨rfl, rfl⟩ := Prod.mk.inj heq
      have hs := RRun.sound hd hr
      cases a with
      | check p =>
        obtain ⟨hheld, hent, hdrop⟩ := hs.alone (check_ok ht).1 hf
        obtain ⟨hval, hn, -⟩ := last_true hf
        exact ⟨(congrArg Dinode.nlink (hs.agree hval)).symm.trans hn, hheld, ⟨p, rfl, hent⟩, hdrop⟩
      | _ => cases hf
    · exact ih hmem

/-- **Who frees an unlinked inode.** For any interleaving of any number of processes on an inode that starts
with links: at most one step frees it, at a time when it has no links and the freeing `iput` holds its only
reference. And where no `iput` is under way, `ref` is 0 and `nlink` is 0, the inode and its blocks have been
freed if and only if every check that found it unlinked was watched by the others. -/
theorem last_reference_frees (hd : d.type ≠ 0) (hn : d.nlink ≠ 0) (hr : RRun d h s) :
    (h.filter frees).length ≤ 1 ∧
    (∀ t a, (t, a) ∈ h → frees (t, a) = true →
      t.disk.nlink = 0 ∧ t.held = [] ∧ (∃ p, a = .check p ∧ t.entering = [p]) ∧ t.dropping = []) ∧
    (s.entering = [] → s.dropping = [] → s.ref = 0 → s.disk.nlink = 0 →
      (s.disk.type = 0 ∧ s.disk.blocks = [] ↔ Always Watched h)) := by
  have hs := hr.sound hd
  refine ⟨?_, fun t a hmem hf => RRun.freeing hd hr hmem hf, fun hent _ href hzero => ⟨?_, fun hw => ?_⟩⟩
  · have hone : (h.filter frees).length = _ := hr.once hd
    rw [hone]
    split_ifs <;> omega
  · rintro ⟨htype, -⟩
    by_contra hw
    exact (hr.leaked hd hw).1 htype
  · have htype : s.disk.type = 0 := by
      by_contra htype
      obtain ⟨-, hheld | hent'⟩ := hr.kept hd hn hw htype hzero
      · have := List.length_pos_iff.mpr hheld
        have := hs.count
        omega
      · exact hent' hent
    exact ⟨htype, (hs.freed htype).2.1⟩

/-- A file with one link, and two processes that have it open: the first unlinks and closes it, then the
second closes it. -/
theorem last_reference_frees_two : ∃ (h : List (Event (Fin 2))) (s : State (Fin 2)),
    RRun ⟨2, 1, [60]⟩ h s ∧ s.ref = 0 ∧ s.disk.nlink = 0 ∧ s.disk.type = 0 ∧ s.disk.blocks = [] := by
  obtain ⟨h, s, hr, hw, hent, hdrop, href, hzero⟩ := exists_run_of_exec (α := Act (Fin 2)) step
    (start ⟨2, 1, [60]⟩)
    (P := fun h s => (∀ e ∈ h, Watched e.1 e.2) ∧ s.entering = [] ∧ s.dropping = [] ∧ s.ref = 0 ∧
      s.disk.nlink = 0)
    [.iget 0, .iget 1, .ilock 0, .update 0 0 [60], .iunlock 0, .iput 0, .iput 1, .check 0, .drop 0,
      .check 1, .drop 1] (by decide +kernel)
  obtain ⟨-, -, hfreed⟩ := last_reference_frees (by decide) (by decide) hr
  obtain ⟨htype, hblocks⟩ := (hfreed hent hdrop href hzero).mpr hw
  exact ⟨h, s, hr, href, hzero, htype, hblocks⟩

/-- **An unlinked inode that nobody frees.** Both processes make their check before either decrements `ref`. -/
theorem inode_leaked : ∃ (h : List (Event (Fin 2))) (s : State (Fin 2)),
    RRun ⟨2, 1, [60]⟩ h s ∧ s.held = [] ∧ s.entering = [] ∧ s.dropping = [] ∧ s.ref = 0 ∧
    s.disk = ⟨2, 0, [60]⟩ := by
  exact exists_run_of_exec (α := Act (Fin 2)) step (start ⟨2, 1, [60]⟩)
    (P := fun _ s => s.held = [] ∧ s.entering = [] ∧ s.dropping = [] ∧ s.ref = 0 ∧ s.disk = ⟨2, 0, [60]⟩)
    [.iget 0, .iget 1, .ilock 0, .update 0 0 [60], .iunlock 0, .iput 0, .iput 1, .check 0, .check 1,
      .drop 0, .drop 1] (by decide +kernel)

end Xv6Mlfq.Refcount
