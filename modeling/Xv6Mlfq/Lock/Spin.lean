import Xv6Mlfq.Lib.Run
import Mathlib.Data.Finset.Card

/-!
# Spin locks (spinlock.c)

`n` CPUs and their locks. A step is what another CPU can see: the `xchg` of `acquire` that finds the lock free, the store
of `lk->cpu` after it, and in `release` the stores of `lk->cpu` and of `lk->locked`. An `xchg` that finds the lock taken
changes nothing, so it is a step that is not possible. `holding` is one step: `lk->cpu` has the value of a CPU only while
that CPU itself has stored it, so what the others do between its two loads does not matter.

Outside of these a CPU calls `pushcli` and `popcli` in pairs (`mycpu`, `switchuvm`), takes interrupts, whose gate clears
`FL_IF`, and enables them when it has no `pushcli` to undo (`sti` of the scheduler, `iret`); `sched` gives the CPU the
`intena` of another kernel thread. Interrupts that find `FL_IF` clear do not arrive.
-/

namespace Xv6Mlfq.Spin

open Lib

variable {n : Nat} {κ : Type}

/-- Where a CPU is in `acquire` and `release`. -/
inductive Pc (κ : Type) where
  | out
  /-- In the loop of `acquire`. -/
  | spin (lk : κ)
  /-- The `xchg` has found the lock free. -/
  | won (lk : κ)
  /-- In `release`, before the store of `lk->locked`. -/
  | free (lk : κ)
  /-- Before the `popcli` of `release`. -/
  | pop
  deriving DecidableEq

structure Cpu (κ : Type) where
  ncli : Int
  intena : Bool
  /-- `FL_IF` of its flags. -/
  intr : Bool
  pc : Pc κ
  /-- The calls of `pushcli` outside of `acquire` and `holding` that are not undone. -/
  pushes : Nat

structure Lock (n : Nat) where
  locked : Bool
  cpu : Option (Fin n)

structure State (n : Nat) (κ : Type) where
  cpu : Fin n → Cpu κ
  lock : κ → Lock n

/-- The four panics, and a step that is not possible. -/
inductive Stop where
  | acquire
  | release
  | interruptible
  | popcli
  | blocked
  deriving DecidableEq

inductive Act (n : Nat) (κ : Type) where
  | push (c : Fin n)
  | pop (c : Fin n)
  | sti (c : Fin n)
  | cli (c : Fin n)
  | sched (c : Fin n) (intena : Bool)
  | acquire (c : Fin n) (lk : κ)
  | xchg (c : Fin n)
  | record (c : Fin n)
  | release (c : Fin n) (lk : κ)
  | clear (c : Fin n)
  | leave (c : Fin n)

/-! ## The code -/

def Cpu.pushcli (x : Cpu κ) : Cpu κ :=
  { x with intr := false, intena := if x.ncli = 0 then x.intr else x.intena, ncli := x.ncli + 1 }

def Cpu.popcli (x : Cpu κ) : Except Stop (Cpu κ) :=
  if x.intr then .error .interruptible
  else if x.ncli - 1 < 0 then .error .popcli
  else .ok { x with ncli := x.ncli - 1, intr := decide (x.ncli - 1 = 0) && x.intena }

def holding (x : Cpu κ) (c : Fin n) (l : Lock n) : Except Stop (Bool × Cpu κ) := do
  let y ← x.pushcli.popcli
  return (l.locked && decide (l.cpu = some c), y)

def State.setCpu (s : State n κ) (c : Fin n) (x : Cpu κ) : State n κ := { s with cpu := Function.update s.cpu c x }

def State.setLock [DecidableEq κ] (s : State n κ) (lk : κ) (l : Lock n) : State n κ :=
  { s with lock := Function.update s.lock lk l }

/-- A step of CPU `c` outside of `acquire` and `release`. -/
def State.outside [DecidableEq κ] (s : State n κ) (c : Fin n) (f : Cpu κ → Except Stop (Cpu κ)) : Except Stop (State n κ) :=
  if (s.cpu c).pc = .out then do
    let x ← f (s.cpu c)
    return s.setCpu c x
  else .error .blocked

section calls

variable [DecidableEq κ] (s : State n κ) (c : Fin n)

def State.acquire (lk : κ) : Except Stop (State n κ) :=
  s.outside c fun x => do
    let (r, y) ← holding x.pushcli c (s.lock lk)
    if r then .error .acquire else return { y with pc := .spin lk }

def State.xchg : Except Stop (State n κ) :=
  match (s.cpu c).pc with
  | .spin lk =>
    if (s.lock lk).locked then .error .blocked
    else .ok ((s.setLock lk { s.lock lk with locked := true }).setCpu c { s.cpu c with pc := .won lk })
  | _ => .error .blocked

def State.record : Except Stop (State n κ) :=
  match (s.cpu c).pc with
  | .won lk => .ok ((s.setLock lk { s.lock lk with cpu := some c }).setCpu c { s.cpu c with pc := .out })
  | _ => .error .blocked

def State.release (lk : κ) : Except Stop (State n κ) :=
  if (s.cpu c).pc = .out then do
    let (r, y) ← holding (s.cpu c) c (s.lock lk)
    if r then .ok ((s.setLock lk { s.lock lk with cpu := none }).setCpu c { y with pc := .free lk }) else .error .release
  else .error .blocked

def State.clear : Except Stop (State n κ) :=
  match (s.cpu c).pc with
  | .free lk => .ok ((s.setLock lk { s.lock lk with locked := false }).setCpu c { s.cpu c with pc := .pop })
  | _ => .error .blocked

def State.leave : Except Stop (State n κ) :=
  if (s.cpu c).pc = .pop then do
    let x ← (s.cpu c).popcli
    return s.setCpu c { x with pc := .out }
  else .error .blocked

/-- A call of `popcli` elsewhere, after a `pushcli`. -/
def State.pop : Except Stop (State n κ) :=
  s.outside c fun x =>
    if x.pushes = 0 then .error .blocked
    else do
      let y ← x.popcli
      return { y with pushes := x.pushes - 1 }

end calls

def step [DecidableEq κ] (s : State n κ) : Act n κ → Except Stop (State n κ)
  | .push c => s.outside c fun x => .ok { x.pushcli with pushes := x.pushes + 1 }
  | .pop c => s.pop c
  | .sti c => s.outside c fun x => if x.ncli = 0 then .ok { x with intr := true } else .error .blocked
  | .cli c => s.outside c fun x => .ok { x with intr := false }
  | .sched c intena => s.outside c fun x => if x.ncli = 1 then .ok { x with intena := intena } else .error .blocked
  | .acquire c lk => s.acquire c lk
  | .xchg c => s.xchg c
  | .record c => s.record c
  | .release c lk => s.release c lk
  | .clear c => s.clear c
  | .leave c => s.leave c

/-- The locks are free, and the CPUs run with interrupts disabled. -/
def start (n : Nat) (κ : Type) : State n κ where
  cpu := fun _ => ⟨0, false, false, .out, 0⟩
  lock := fun _ => ⟨false, none⟩

abbrev Event (n : Nat) (κ : Type) : Type := State n κ × Act n κ

abbrev SRun [DecidableEq κ] (h : List (Event n κ)) (s : State n κ) : Prop := Run step (start n κ) h s

/-! ## Who owns a lock -/

/-- The CPU is between the `xchg` and the store of `lk->cpu`, or between the two stores of `release`. -/
def Pc.Claims (pc : Pc κ) (lk : κ) : Prop := pc = .won lk ∨ pc = .free lk

/-- The CPU is between its `xchg` on the lock and its store of `lk->locked`. -/
def Owns (s : State n κ) (c : Fin n) (lk : κ) : Prop := (s.lock lk).cpu = some c ∨ (s.cpu c).pc.Claims lk

/-- The `pushcli` of `acquire` before the `xchg`, or of `release` before its `popcli`. -/
def Pc.pending : Pc κ → Int
  | .spin _ => 1
  | .pop => 1
  | _ => 0

structure Sound (own : Fin n → Finset κ) (s : State n κ) : Prop where
  mem : ∀ c lk, lk ∈ own c ↔ Owns s c lk
  excl : ∀ c d lk, lk ∈ own c → lk ∈ own d → c = d
  locked : ∀ lk, (s.lock lk).locked = true ↔ ∃ c, lk ∈ own c
  apart : ∀ c lk, (s.cpu c).pc.Claims lk → (s.lock lk).cpu = none
  ncli : ∀ c, (s.cpu c).ncli = (s.cpu c).pushes + (own c).card + (s.cpu c).pc.pending
  intr : ∀ c, (s.cpu c).ncli ≠ 0 → (s.cpu c).intr = false

section invariant

variable {own : Fin n → Finset κ} {s : State n κ} {c : Fin n} {lk : κ} {x y : Cpu κ} {l : Lock n}

theorem pending_nonneg (pc : Pc κ) : 0 ≤ pc.pending := by
  unfold Pc.pending
  split <;> omega

theorem setCpu_cpu (s : State n κ) (c d : Fin n) (x : Cpu κ) : (s.setCpu c x).cpu d = if d = c then x else s.cpu d :=
  Function.update_apply s.cpu c x d

theorem setLock_lock [DecidableEq κ] (s : State n κ) (lk m : κ) (l : Lock n) :
    (s.setLock lk l).lock m = if m = lk then l else s.lock m :=
  Function.update_apply s.lock lk l m

namespace Sound

theorem ncli_nonneg (h : Sound own s) (c : Fin n) : 0 ≤ (s.cpu c).ncli := by
  have := h.ncli c
  have := pending_nonneg (s.cpu c).pc
  omega

theorem owns_iff (h : Sound own s) (hpc : (s.cpu c).pc = .out) :
    ((s.lock lk).locked && decide ((s.lock lk).cpu = some c)) = true ↔ Owns s c lk := by
  rw [Bool.and_eq_true, decide_eq_true_iff]
  constructor
  · exact fun hlock => .inl hlock.2
  · intro howns
    refine ⟨(h.locked lk).mpr ⟨c, (h.mem c lk).mpr howns⟩, ?_⟩
    rcases howns with hcpu | hclaim | hclaim
    · exact hcpu
    · rw [hpc] at hclaim
      cases hclaim
    · rw [hpc] at hclaim
      cases hclaim

theorem setCpu (h : Sound own s) (hclaims : ∀ lk, x.pc.Claims lk ↔ (s.cpu c).pc.Claims lk)
    (hncli : x.ncli - x.pushes - x.pc.pending = (s.cpu c).ncli - (s.cpu c).pushes - (s.cpu c).pc.pending)
    (hintr : x.ncli ≠ 0 → x.intr = false) : Sound own (s.setCpu c x) := by
  have hclaim : ∀ d lk, ((s.setCpu c x).cpu d).pc.Claims lk ↔ (s.cpu d).pc.Claims lk := by
    intro d lk
    rw [setCpu_cpu]
    split_ifs with hd
    · rw [hd]
      exact hclaims lk
    · exact Iff.rfl
  refine ⟨?_, h.excl, h.locked, ?_, ?_, ?_⟩
  · intro d lk
    rw [h.mem]
    exact or_congr Iff.rfl (hclaim d lk).symm
  · intro d lk hd
    exact h.apart d lk ((hclaim d lk).mp hd)
  · intro d
    have hold := h.ncli d
    rw [setCpu_cpu]
    split_ifs with hd
    · rw [hd] at hold ⊢
      omega
    · exact hold
  · intro d
    rw [setCpu_cpu]
    split_ifs with hd
    · exact hintr
    · exact h.intr d

end Sound

/-! ## Interrupts -/

theorem popcli_eq (hi : x.intr = false) (hn : 1 ≤ x.ncli) :
    x.popcli = .ok { x with ncli := x.ncli - 1, intr := decide (x.ncli - 1 = 0) && x.intena } := by
  unfold Cpu.popcli
  rw [hi, if_neg Bool.false_ne_true, if_neg (by omega)]

theorem popcli_intr {z : Cpu κ} (h : x.popcli = .ok z) : z.ncli ≠ 0 → z.intr = false := by
  unfold Cpu.popcli at h
  split_ifs at h
  cases h
  intro hne
  show (decide (x.ncli - 1 = 0) && x.intena) = false
  rw [decide_eq_false hne, Bool.false_and]

theorem holding_eq (hn : 0 ≤ x.ncli) (hi : x.ncli ≠ 0 → x.intr = false) :
    ∃ y, holding x c l = .ok (l.locked && decide (l.cpu = some c), y) ∧ y.ncli = x.ncli ∧ y.pc = x.pc ∧
      y.pushes = x.pushes ∧ y.intr = x.intr := by
  have hpop := popcli_eq (x := x.pushcli) rfl (show 1 ≤ x.ncli + 1 by omega)
  refine ⟨{ x.pushcli with ncli := x.ncli + 1 - 1, intr := decide (x.ncli + 1 - 1 = 0) && x.pushcli.intena }, ?_, ?_,
    rfl, rfl, ?_⟩
  · unfold holding
    rw [hpop]
    rfl
  · show x.ncli + 1 - 1 = x.ncli
    omega
  · show (decide (x.ncli + 1 - 1 = 0) && if x.ncli = 0 then x.intr else x.intena) = x.intr
    rw [add_sub_cancel_right]
    by_cases hz : x.ncli = 0
    · rw [if_pos hz, decide_eq_true hz, Bool.true_and]
    · rw [decide_eq_false hz, Bool.false_and, hi hz]

theorem not_claims_out {lk : κ} : ¬ (Pc.out : Pc κ).Claims lk := by
  rintro (h | h) <;> cases h

theorem not_claims_spin {lk m : κ} : ¬ (Pc.spin m).Claims lk := by
  rintro (h | h) <;> cases h

theorem not_claims_pop {lk : κ} : ¬ (Pc.pop : Pc κ).Claims lk := by
  rintro (h | h) <;> cases h

theorem claims_won {lk m : κ} : (Pc.won m).Claims lk ↔ lk = m := by
  constructor
  · rintro (h | h)
    · cases h
      rfl
    · cases h
  · rintro rfl
    exact .inl rfl

theorem claims_free {lk m : κ} : (Pc.free m).Claims lk ↔ lk = m := by
  constructor
  · rintro (h | h)
    · cases h
    · cases h
      rfl
  · rintro rfl
    exact .inr rfl

theorem exists_update_self {K : Finset κ} (hother : ∀ d, d ≠ c → lk ∉ own d) :
    (∃ d, lk ∈ Function.update own c K d) ↔ lk ∈ K := by
  constructor
  · rintro ⟨d, hd⟩
    rw [Function.update_apply] at hd
    split_ifs at hd with hdc
    · exact hd
    · exact absurd hd (hother d hdc)
  · intro hin
    exact ⟨c, by rwa [Function.update_self]⟩

theorem exists_update_other {K : Finset κ} {m : κ} (hK : m ∈ K ↔ m ∈ own c) :
    (∃ d, m ∈ Function.update own c K d) ↔ ∃ d, m ∈ own d := by
  refine exists_congr fun d => ?_
  rw [Function.update_apply]
  split_ifs with hd
  · rw [hK, hd]
  · exact Iff.rfl

theorem Sound.alone (h : Sound own s) (hown : lk ∈ own c) (d : Fin n) (hd : d ≠ c) : lk ∉ own d :=
  fun hin => hd (h.excl d c lk hin hown)

theorem Sound.popcli (h : Sound own s) (hpos : 1 ≤ (s.cpu c).ncli) : ∃ y, (s.cpu c).popcli = .ok y ∧
    y.ncli = (s.cpu c).ncli - 1 ∧ y.pushes = (s.cpu c).pushes ∧ y.pc = (s.cpu c).pc ∧ (y.ncli ≠ 0 → y.intr = false) := by
  have hpop := popcli_eq (h.intr c (by omega)) hpos
  exact ⟨_, hpop, rfl, rfl, rfl, popcli_intr hpop⟩

theorem start_sound : Sound (fun _ => ∅) (start n κ) := by
  refine ⟨?_, ?_, ?_, ?_, fun _ => rfl, fun _ _ => rfl⟩
  · intro c lk
    refine iff_of_false (Finset.notMem_empty lk) ?_
    rintro (hcpu | hclaim)
    · cases hcpu
    · exact not_claims_out hclaim
  · intro c d lk hin
    exact absurd hin (Finset.notMem_empty lk)
  · intro lk
    refine iff_of_false Bool.false_ne_true ?_
    rintro ⟨c, hin⟩
    exact Finset.notMem_empty lk hin
  · intro c lk hclaim
    exact absurd hclaim not_claims_out

theorem Sound.holding (h : Sound own s) (lk : κ) : ∃ y, Spin.holding (s.cpu c) c (s.lock lk) =
      .ok ((s.lock lk).locked && decide ((s.lock lk).cpu = some c), y) ∧ y.ncli = (s.cpu c).ncli ∧ y.pc = (s.cpu c).pc ∧
      y.pushes = (s.cpu c).pushes ∧ y.intr = (s.cpu c).intr :=
  holding_eq (h.ncli_nonneg c) (h.intr c)

theorem Sound.holding_pushcli (h : Sound own s) (lk : κ) : ∃ y, Spin.holding (s.cpu c).pushcli c (s.lock lk) =
      .ok ((s.lock lk).locked && decide ((s.lock lk).cpu = some c), y) ∧ y.ncli = (s.cpu c).ncli + 1 ∧
      y.pc = (s.cpu c).pc ∧ y.pushes = (s.cpu c).pushes ∧ y.intr = false := by
  have hn := h.ncli_nonneg c
  exact holding_eq (x := (s.cpu c).pushcli) (show 0 ≤ (s.cpu c).ncli + 1 by omega) fun _ => rfl

/-! ## One step -/

/-- What a CPU may do to its own fields without a lock noticing. -/
structure Quiet (x y : Cpu κ) : Prop where
  claims : ∀ lk, y.pc.Claims lk ↔ x.pc.Claims lk
  ncli : y.ncli - y.pushes - y.pc.pending = x.ncli - x.pushes - x.pc.pending
  intr : y.ncli ≠ 0 → y.intr = false

/-- The panics that are left: a lock is taken twice, or given back by a CPU that does not own it. -/
inductive Misused (s : State n κ) : Act n κ → Stop → Prop
  | acquire {c : Fin n} {lk : κ} (h : Owns s c lk) : Misused s (.acquire c lk) .acquire
  | release {c : Fin n} {lk : κ} (h : ¬ Owns s c lk) : Misused s (.release c lk) .release

/-- A step ends in a sound state; otherwise it is not possible, or misuses a lock. -/
def Safe (s : State n κ) (a : Act n κ) (r : Except Stop (State n κ)) : Prop :=
  Sat r (fun s' => ∃ own', Sound own' s') fun e => e = .blocked ∨ Misused s a e

variable [DecidableEq κ]

theorem outside_safe (h : Sound own s) {a : Act n κ} {f : Cpu κ → Except Stop (Cpu κ)}
    (hf : (s.cpu c).pc = .out → Sat (f (s.cpu c)) (Quiet (s.cpu c)) fun e => e = .blocked ∨ Misused s a e) :
    Safe s a (s.outside c f) := by
  unfold State.outside
  refine Sat.ite (fun hpc => ?_) fun _ => .inl rfl
  refine Sat.bind (hf hpc) ?_
  intro y hy
  exact ⟨own, h.setCpu hy.claims hy.ncli hy.intr⟩

theorem acquire_safe (h : Sound own s) (c : Fin n) (lk : κ) : Safe s (.acquire c lk) (s.acquire c lk) := by
  refine outside_safe h fun hpc => ?_
  obtain ⟨y, hy, hncli, -, hpushes, hintr⟩ := h.holding_pushcli (c := c) lk
  rw [hy]
  refine Sat.ite (fun hheld => ?_) fun _ => ?_
  · exact .inr (.acquire ((h.owns_iff hpc).mp hheld))
  · refine ⟨fun m => ?_, ?_, fun _ => hintr⟩
    · rw [hpc]
      exact iff_of_false not_claims_spin not_claims_out
    · show y.ncli - y.pushes - 1 = _
      rw [hncli, hpushes, hpc]
      show (s.cpu c).ncli + 1 - (s.cpu c).pushes - 1 = (s.cpu c).ncli - (s.cpu c).pushes - 0
      omega

theorem pop_safe (h : Sound own s) (c : Fin n) : Safe s (.pop c) (s.pop c) := by
  refine outside_safe h fun hpc => ?_
  refine Sat.ite (fun _ => .inl rfl) fun hpushes => ?_
  have hncli := h.ncli c
  have hpend := pending_nonneg (s.cpu c).pc
  obtain ⟨y, hy, hyn, hyp, hypc, hyi⟩ := h.popcli (c := c) (by omega)
  rw [hy]
  refine ⟨fun m => ?_, ?_, hyi⟩
  · show y.pc.Claims m ↔ _
    rw [hypc]
  · show y.ncli - ((s.cpu c).pushes - 1 : Nat) - y.pc.pending = _
    rw [hyn, hypc]
    omega

theorem leave_safe (h : Sound own s) (c : Fin n) : Safe s (.leave c) (s.leave c) := by
  unfold State.leave
  refine Sat.ite (fun hpc => ?_) fun _ => .inl rfl
  have hncli := h.ncli c
  have hpend : (s.cpu c).pc.pending = 1 := by
    rw [hpc]
    rfl
  obtain ⟨y, hy, hyn, hyp, -, hyi⟩ := h.popcli (c := c) (by omega)
  rw [hy]
  refine ⟨own, h.setCpu ?_ ?_ hyi⟩
  · intro m
    rw [hpc]
    exact iff_of_false not_claims_out not_claims_pop
  · show y.ncli - y.pushes - 0 = _
    rw [hyn, hyp, hpend]
    omega

/-- The locks of `c` become `K`, which differs from them only at a lock that nobody else owns. -/
theorem Sound.excl_update (h : Sound own s) {K : Finset κ} (hK : ∀ m, m ≠ lk → (m ∈ K ↔ m ∈ own c))
    (hother : ∀ d, d ≠ c → lk ∉ own d) (d e : Fin n) (m : κ) (hdm : m ∈ Function.update own c K d)
    (hem : m ∈ Function.update own c K e) : d = e := by
  -- a lock of `c` that another CPU owns is not `lk`, and `c` owned it before
  have hmix : ∀ e, e ≠ c → m ∈ K → m ∉ own e := by
    intro e he hmK hme
    by_cases hm : m = lk
    · exact hother e he (hm ▸ hme)
    · exact he (h.excl e c m hme ((hK m hm).mp hmK))
  rw [Function.update_apply] at hdm hem
  split_ifs at hdm hem with hd he he
  · rw [hd, he]
  · exact absurd hem (hmix e he hdm)
  · exact absurd hdm (hmix d hd hem)
  · exact h.excl d e m hdm hem

/-- A step of CPU `c` that changes lock `lk`, which nobody else owns: `K` are its locks afterwards. -/
theorem Sound.setLock (h : Sound own s) {K : Finset κ} (hK : ∀ m, m ≠ lk → (m ∈ K ↔ m ∈ own c))
    (hother : ∀ d, d ≠ c → lk ∉ own d) (hlocked : l.locked = true ↔ lk ∈ K) (hcpu : l.cpu = some c ∨ l.cpu = none)
    (hmem : lk ∈ K ↔ l.cpu = some c ∨ x.pc.Claims lk) (hclaims : ∀ m, m ≠ lk → (x.pc.Claims m ↔ (s.cpu c).pc.Claims m))
    (hapart : x.pc.Claims lk → l.cpu = none) (hncli : x.ncli = x.pushes + K.card + x.pc.pending)
    (hintr : x.ncli ≠ 0 → x.intr = false) : Sound (Function.update own c K) ((s.setLock lk l).setCpu c x) := by
  have hcpuAt : ∀ d, ((s.setLock lk l).setCpu c x).cpu d = if d = c then x else s.cpu d :=
    fun d => setCpu_cpu _ c d x
  have hlockAt : ∀ m, ((s.setLock lk l).setCpu c x).lock m = if m = lk then l else s.lock m :=
    fun m => setLock_lock s lk m l
  have hnoClaim : ∀ d, d ≠ c → ¬ (s.cpu d).pc.Claims lk := fun d hd hclaim => hother d hd ((h.mem d lk).mpr (.inr hclaim))
  refine ⟨?_, h.excl_update hK hother, ?_, ?_, ?_, ?_⟩
  · intro d m
    unfold Owns
    rw [hcpuAt, hlockAt, Function.update_apply]
    by_cases hd : d = c
    · rw [if_pos hd, if_pos hd, hd]
      by_cases hm : m = lk
      · rw [if_pos hm, hm]
        exact hmem
      · rw [if_neg hm, hK m hm, h.mem]
        exact or_congr Iff.rfl (hclaims m hm).symm
    · rw [if_neg hd, if_neg hd]
      by_cases hm : m = lk
      · rw [if_pos hm, hm]
        refine iff_of_false (hother d hd) ?_
        rintro (hl | hclaim)
        · rcases hcpu with hc | hc
          · rw [hc] at hl
            exact hd (Option.some.inj hl).symm
          · rw [hc] at hl
            cases hl
        · exact hnoClaim d hd hclaim
      · rw [if_neg hm]
        exact h.mem d m
  · intro m
    rw [hlockAt]
    by_cases hm : m = lk
    · rw [if_pos hm, hlocked, hm, exists_update_self hother]
    · rw [if_neg hm, h.locked, exists_update_other (hK m hm)]
  · intro d m
    rw [hcpuAt, hlockAt]
    split_ifs with hd hm hm
    · rw [hm]
      exact hapart
    · intro hclaim
      exact h.apart c m ((hclaims m hm).mp hclaim)
    · intro hclaim
      rw [hm] at hclaim
      exact absurd hclaim (hnoClaim d hd)
    · exact h.apart d m
  · intro d
    rw [hcpuAt, Function.update_apply]
    split_ifs with hd
    · exact hncli
    · exact h.ncli d
  · intro d
    rw [hcpuAt]
    split_ifs with hd
    · exact hintr
    · exact h.intr d

theorem xchg_safe (h : Sound own s) (c : Fin n) : Safe s (.xchg c) (s.xchg c) := by
  unfold State.xchg
  split
  · rename_i lk hpc
    refine Sat.ite (fun _ => .inl rfl) fun hfree => ?_
    have hno : ∀ d, lk ∉ own d := fun d hd => hfree ((h.locked lk).mpr ⟨d, hd⟩)
    have hnone : (s.lock lk).cpu = none := by
      cases hcpu : (s.lock lk).cpu with
      | none => rfl
      | some d => exact absurd ((h.mem d lk).mpr (.inl hcpu)) (hno d)
    refine ⟨_, h.setLock (K := insert lk (own c)) ?_ (fun d _ => hno d) ?_ (.inr hnone) ?_ ?_ (fun _ => hnone) ?_ (h.intr c)⟩
    · intro m hm
      rw [Finset.mem_insert, or_iff_right hm]
    · exact iff_of_true rfl (Finset.mem_insert_self _ _)
    · exact iff_of_true (Finset.mem_insert_self _ _) (.inr (.inl rfl))
    · intro m hm
      rw [hpc]
      exact iff_of_false (fun hclaim => hm (claims_won.mp hclaim)) not_claims_spin
    · have hold := h.ncli c
      rw [hpc] at hold
      rw [Finset.card_insert_of_notMem (hno c)]
      show (s.cpu c).ncli = (s.cpu c).pushes + ((own c).card + 1 : Nat) + 0
      change (s.cpu c).ncli = (s.cpu c).pushes + (own c).card + 1 at hold
      omega
  · exact .inl rfl

theorem record_safe (h : Sound own s) (c : Fin n) : Safe s (.record c) (s.record c) := by
  unfold State.record
  split
  · rename_i lk hpc
    have hown : lk ∈ own c := (h.mem c lk).mpr (.inr (.inl hpc))
    refine ⟨_, h.setLock (K := own c) (fun _ _ => Iff.rfl) (h.alone hown) ?_ (.inl rfl) ?_ ?_ ?_ ?_ (h.intr c)⟩
    · exact iff_of_true ((h.locked lk).mpr ⟨c, hown⟩) hown
    · exact iff_of_true hown (.inl rfl)
    · intro m hm
      rw [hpc]
      exact iff_of_false not_claims_out fun hclaim => hm (claims_won.mp hclaim)
    · exact fun hclaim => absurd hclaim not_claims_out
    · have hold := h.ncli c
      rw [hpc] at hold
      exact hold
  · exact .inl rfl

theorem release_safe (h : Sound own s) (c : Fin n) (lk : κ) : Safe s (.release c lk) (s.release c lk) := by
  unfold State.release
  refine Sat.ite (fun hpc => ?_) fun _ => .inl rfl
  obtain ⟨y, hy, hncli, -, hpushes, hintr⟩ := h.holding (c := c) lk
  rw [hy]
  refine Sat.ite (fun hheld => ?_) fun hheld => ?_
  · have hown : lk ∈ own c := (h.mem c lk).mpr ((h.owns_iff hpc).mp hheld)
    refine ⟨_, h.setLock (K := own c) (fun _ _ => Iff.rfl) (h.alone hown) ?_ (.inr rfl) ?_ ?_ (fun _ => rfl) ?_ ?_⟩
    · exact iff_of_true ((h.locked lk).mpr ⟨c, hown⟩) hown
    · exact iff_of_true hown (.inr (.inr rfl))
    · intro m hm
      rw [hpc]
      exact iff_of_false (fun hclaim => hm (claims_free.mp hclaim)) not_claims_out
    · have hold := h.ncli c
      rw [hpc] at hold
      show y.ncli = y.pushes + (own c).card + 0
      rw [hncli, hpushes]
      exact hold
    · show y.ncli ≠ 0 → y.intr = false
      rw [hncli, hintr]
      exact h.intr c
  · exact .inr (.release fun howns => hheld ((h.owns_iff hpc).mpr howns))

theorem clear_safe (h : Sound own s) (c : Fin n) : Safe s (.clear c) (s.clear c) := by
  unfold State.clear
  split
  · rename_i lk hpc
    have hclaim : (s.cpu c).pc.Claims lk := .inr hpc
    have hown : lk ∈ own c := (h.mem c lk).mpr (.inr hclaim)
    have hnone := h.apart c lk hclaim
    refine ⟨_, h.setLock (K := (own c).erase lk) ?_ (h.alone hown) ?_ (.inr hnone) ?_ ?_ ?_ ?_ (h.intr c)⟩
    · intro m hm
      rw [Finset.mem_erase, and_iff_right hm]
    · exact iff_of_false Bool.false_ne_true (Finset.notMem_erase _ _)
    · refine iff_of_false (Finset.notMem_erase _ _) ?_
      rintro (hcpu | hclaim)
      · rw [hnone] at hcpu
        cases hcpu
      · exact not_claims_pop hclaim
    · intro m hm
      rw [hpc]
      exact iff_of_false not_claims_pop fun hclaim => hm (claims_free.mp hclaim)
    · exact fun hclaim => absurd hclaim not_claims_pop
    · have hold := h.ncli c
      rw [hpc] at hold
      have hcard := Finset.card_erase_add_one hown
      change (s.cpu c).ncli = (s.cpu c).pushes + (own c).card + 0 at hold
      show (s.cpu c).ncli = (s.cpu c).pushes + ((own c).erase lk).card + 1
      omega
  · exact .inl rfl

theorem step_safe (h : Sound own s) (a : Act n κ) : Safe s a (step s a) := by
  cases a with
  | push c =>
    unfold step
    refine outside_safe h fun _ => ?_
    refine ⟨fun _ => Iff.rfl, ?_, fun _ => rfl⟩
    show (s.cpu c).ncli + 1 - ((s.cpu c).pushes + 1 : Nat) - (s.cpu c).pc.pending = _
    omega
  | pop c => exact pop_safe h c
  | sti c =>
    unfold step
    refine outside_safe h fun _ => ?_
    refine Sat.ite (fun hz => ?_) fun _ => .inl rfl
    exact ⟨fun _ => Iff.rfl, rfl, fun hne => absurd hz hne⟩
  | cli c =>
    unfold step
    refine outside_safe h fun _ => ?_
    exact ⟨fun _ => Iff.rfl, rfl, fun _ => rfl⟩
  | sched c intena =>
    unfold step
    refine outside_safe h fun _ => ?_
    refine Sat.ite (fun _ => ?_) fun _ => .inl rfl
    exact ⟨fun _ => Iff.rfl, rfl, h.intr c⟩
  | acquire c lk => exact acquire_safe h c lk
  | xchg c => exact xchg_safe h c
  | record c => exact record_safe h c
  | release c lk => exact release_safe h c lk
  | clear c => exact clear_safe h c
  | leave c => exact leave_safe h c

/-! ## Runs -/

theorem run_sound {h : List (Event n κ)} (hr : SRun h s) : ∃ own, Sound own s := by
  refine hr.induct (I := fun s => ∃ own, Sound own s) ⟨_, start_sound⟩ ?_
  intro s a s' hI hs
  obtain ⟨own, hsound⟩ := hI
  exact Sat.of_ok (step_safe hsound a) hs

theorem acquire_owned (h : Sound own s) (hpc : (s.cpu c).pc = .out) (howns : Owns s c lk) :
    s.acquire c lk = .error .acquire := by
  obtain ⟨y, hy, -⟩ := h.holding_pushcli (c := c) lk
  rw [(h.owns_iff hpc).mpr howns] at hy
  unfold State.acquire State.outside
  rw [if_pos hpc]
  beta_reduce
  rw [hy]
  rfl

theorem release_unowned (h : Sound own s) (hpc : (s.cpu c).pc = .out) (hno : ¬ Owns s c lk) :
    s.release c lk = .error .release := by
  obtain ⟨y, hy, -⟩ := h.holding (c := c) lk
  rw [Bool.eq_false_iff.mpr fun hheld => hno ((h.owns_iff hpc).mp hheld)] at hy
  unfold State.release
  rw [if_pos hpc, hy]
  rfl

/-- **Mutual exclusion, with interrupts off**: between its `xchg` and its store of `lk->locked` a CPU is the only one that
owns the lock, and `lk->locked` says whether there is one. `ncli` counts the calls of `pushcli` that are still to be
undone: one for each lock that the CPU owns or is about to take or has just given back, and those outside. No interrupt
arrives while a CPU owns a lock. -/
theorem locks_exclusive {h : List (Event n κ)} (hr : SRun h s) :
    (∀ lk c d, Owns s c lk → Owns s d lk → c = d) ∧
    (∀ lk, (s.lock lk).locked = true ↔ ∃ c, Owns s c lk) ∧
    ∀ c, (∃ K : Finset κ, (∀ lk, lk ∈ K ↔ Owns s c lk) ∧
        (s.cpu c).ncli = (s.cpu c).pushes + K.card + (s.cpu c).pc.pending) ∧
      ((∃ lk, Owns s c lk) → (s.cpu c).intr = false) := by
  obtain ⟨own, hsound⟩ := run_sound hr
  refine ⟨?_, ?_, fun c => ⟨⟨own c, hsound.mem c, hsound.ncli c⟩, ?_⟩⟩
  · intro lk c d hc hd
    exact hsound.excl c d lk ((hsound.mem c lk).mpr hc) ((hsound.mem d lk).mpr hd)
  · intro lk
    rw [hsound.locked]
    exact exists_congr fun c => hsound.mem c lk
  · rintro ⟨lk, howns⟩
    have hcard : 0 < (own c).card := Finset.card_pos.mpr ⟨lk, (hsound.mem c lk).mpr howns⟩
    have hncli := hsound.ncli c
    have hpend := pending_nonneg (s.cpu c).pc
    exact hsound.intr c (by omega)

/-- CPU 0 owns the lock, and CPU 1 waits for it. -/
theorem locks_exclusive_two : ∃ (h : List (Event 2 Unit)) (s : State 2 Unit), SRun h s ∧ (s.cpu 1).pc = .spin () ∧
    Owns s 0 () ∧
    (s.cpu 0).intr = false ∧ ∀ c, Owns s c () → c = 0 := by
  obtain ⟨h, s, hr, hpc, hcpu⟩ := exists_run_of_exec step (start 2 Unit)
    (P := fun _ s => (s.cpu 1).pc = .spin () ∧ (s.lock ()).cpu = some 0)
    [.acquire 0 (), .xchg 0, .record 0, .acquire 1 ()] (by decide +kernel)
  obtain ⟨hexcl, -, hcpus⟩ := locks_exclusive hr
  exact ⟨h, s, hr, hpc, .inl hcpu, (hcpus 0).2 ⟨(), .inl hcpu⟩, fun c hc => hexcl () c 0 hc (.inl hcpu)⟩

/-- **The checks of `acquire` and `release` are exact**: whatever the other CPUs do, a call of `acquire` panics exactly if
the CPU owns the lock, one of `release` exactly if it does not, and `popcli` never panics. -/
theorem locks_stop {h : List (Event n κ)} (hr : SRun h s) :
    (∀ a e, step s a = .error e → e = .blocked ∨ Misused s a e) ∧
    ∀ c lk, (s.cpu c).pc = .out → (step s (.acquire c lk) = .error .acquire ↔ Owns s c lk) ∧
      (step s (.release c lk) = .error .release ↔ ¬ Owns s c lk) := by
  obtain ⟨own, hsound⟩ := run_sound hr
  have hstop : ∀ a e, step s a = .error e → e = .blocked ∨ Misused s a e :=
    fun a e he => Sat.of_error (step_safe hsound a) he
  refine ⟨hstop, fun c lk hpc => ⟨⟨fun he => ?_, fun howns => ?_⟩, fun he => ?_, fun hno => ?_⟩⟩
  · rcases hstop _ _ he with hb | hm
    · cases hb
    · cases hm with
      | acquire howns => exact howns
  · exact acquire_owned hsound hpc howns
  · rcases hstop _ _ he with hb | hm
    · cases hb
    · cases hm with
      | release hno => exact hno
  · exact release_unowned hsound hpc hno

/-- CPU 0 owns the lock: it may not take it again, and CPU 1 may not give it back. -/
theorem locks_stop_two : ∃ (h : List (Event 2 Unit)) (s : State 2 Unit), SRun h s ∧ Owns s 0 () ∧
    step s (.acquire 0 ()) = .error .acquire ∧ step s (.release 1 ()) = .error .release := by
  obtain ⟨h, s, hr, hcpu, hpc0, hpc1⟩ := exists_run_of_exec step (start 2 Unit)
    (P := fun _ s => (s.lock ()).cpu = some 0 ∧ (s.cpu 0).pc = .out ∧ (s.cpu 1).pc = .out)
    [.acquire 0 (), .xchg 0, .record 0] (by decide +kernel)
  obtain ⟨-, hexact⟩ := locks_stop hr
  refine ⟨h, s, hr, .inl hcpu, ((hexact 0 () hpc0).1).mpr (.inl hcpu), ((hexact 1 () hpc1).2).mpr ?_⟩
  rintro (hcpu1 | hclaim)
  · rw [hcpu] at hcpu1
    exact absurd hcpu1 (by decide)
  · rw [hpc1] at hclaim
    exact not_claims_out hclaim

end invariant

end Xv6Mlfq.Spin
