import Xv6Mlfq.Log.Buffers

/-!
# The log (log.c)

The disk is a function from block numbers to contents, written one block per `bwrite`; the header block
`log.start` is kept decoded, as the list `block[0..n)` (the entries from `n` on are never read). The
buffers are those of `Xv6Mlfq.Log.Buffers`. A crash loses everything but the disk.

The steps are what other processes can see between two of them. `begin_op` and `end_op` are one critical
section of `log.lock` each; a `begin_op` that goes to sleep does nothing. `log_write` tests the size of
the log before it takes the lock (`logWrite`) and records the block under it (`logRecord`); its caller
holds the lock of the buffer from before the call on, so the new contents count from `logRecord` on.
`commit` and `recover_from_log` are cut at every `bwrite`: the buffers of one pass of their loops are taken, written
and given back in one step.

Besides, processes read home blocks (`bread`) and give them back (`brelse`) at any time, except during recovery, when
there are none. An operation has the buffer from `bread` when it calls `log_write`.
-/

namespace Xv6Mlfq.Log

open Lib

/-- Max data blocks in the on-disk log (param.h). -/
abbrev LOGSIZE : Nat := MAXOPBLOCKS * 3

/-- `log.start` and `log.size`, from the superblock. -/
structure Layout where
  start : Nat
  size : Nat

/-- The layout that mkfs writes: boot block, superblock, then `nlog = LOGSIZE` blocks of log. -/
def mkfs : Layout := ⟨2, LOGSIZE⟩

def Layout.Home (L : Layout) (b : Nat) : Prop := b < L.start ∨ L.start + L.size ≤ b

instance (L : Layout) (b : Nat) : Decidable (L.Home b) := inferInstanceAs (Decidable (_ ∨ _))

/-- The block that holds entry `tail` of the log. -/
def Layout.slot (L : Layout) (tail : Nat) : Nat := L.start + tail + 1

variable {ι β : Type}

@[ext] structure Disk (β : Type) where
  head : List Nat
  block : Nat → β

/-- Where an operation is: before `begin_op`, running, between the test and the critical section of a
`log_write`, past `end_op`, or lost in a crash. -/
inductive Op (β : Type) where
  | fresh
  | running
  | writing (b : Nat) (x : β)
  | ended
  | lost
  deriving DecidableEq

/-- Where the log itself is: open, in `commit` before some `bwrite`, before `log.committing = 0`, or in
`recover_from_log` before `read_head` or some `bwrite`. -/
inductive Pc where
  | idle
  | writeLog (tail : Nat)
  | writeHead
  | install (tail : Nat)
  | clear
  | committed
  | readHead
  | reinstall (tail : Nat)
  | reclear
  deriving DecidableEq, Repr

def Pc.recovering : Pc → Bool
  | .readHead => true
  | .reinstall _ => true
  | .reclear => true
  | _ => false

/-- The disk, the buffers, `struct log` (`lh` is `lh.block[0..lh.n)`), and the operations. -/
structure State (ι β : Type) where
  disk : Disk β
  bufs : List (Buf β)
  lh : List Nat
  outstanding : Nat
  committing : Bool
  ops : ι → Op β
  pc : Pc

/-- What a process finds in a block: its buffer, or the disk. -/
def State.cache (s : State ι β) : Nat → β := seen s.disk.block s.bufs

/-- One step. The argument `o` is the operation that takes it. -/
inductive Act (ι β : Type) where
  | bread (b : Nat)
  | brelse (b : Nat)
  | beginOp (o : ι)
  | logWrite (o : ι) (b : Nat) (x : β)
  | logRecord (o : ι)
  | endOp (o : ι)
  | writeLog
  | writeHead
  | install
  | clear
  | endCommit
  | crash
  | readHead
  | reinstall
  | reclear

def State.bread (s : State ι β) (b : Nat) : Except Stop (State ι β) := do
  let l ← Log.bread s.disk.block b s.bufs
  return { s with bufs := l }

/-- `bread` of two blocks; a process that already has the buffer waits for itself. -/
def State.breads (s : State ι β) (b c : Nat) : Except Stop (State ι β) := do
  let s ← s.bread b
  if b = c then .error .notEnabled else s.bread c

def State.brelse (s : State ι β) (b : Nat) : State ι β := { s with bufs := Log.brelse b s.bufs }

def State.bwrite (s : State ι β) (b : Nat) (y : β) : State ι β :=
  { s with
    disk := { s.disk with block := Function.update s.disk.block b y }
    bufs := onBuf b (Buf.written b y) s.bufs }

/-- The references of a buffer that the caller of a `log_write` does not need. -/
def Buf.spare (x : Buf β) : Nat := if x.logging then x.refcnt - 1 else x.refcnt

def State.hasBuf (s : State ι β) (b : Nat) (p : Buf β → Bool) : Bool := (slotOf Buf.blockno s.bufs b).any p

/-! ## commit and recover_from_log -/

/-- Where the log is after entry `tail` of a loop over `lh`. -/
def State.advance (s : State ι β) (tail : Nat) (again : Nat → Pc) (after : Pc) : State ι β :=
  { s with pc := if tail + 1 < s.lh.length then again (tail + 1) else after }

def writeLog (L : Layout) (s : State ι β) (tail : Nat) : Except Stop (State ι β) :=
  match s.lh[tail]? with
  | some b => do
    let s ← s.breads (L.slot tail) b
    let s := s.bwrite (L.slot tail) (s.cache b)
    return ((s.brelse b).brelse (L.slot tail)).advance tail .writeLog .writeHead
  | none => .error .notEnabled

def install (L : Layout) (s : State ι β) (tail : Nat) (again : Nat → Pc) (after : Pc) :
    Except Stop (State ι β) :=
  match s.lh[tail]? with
  | some b => do
    let s ← s.breads (L.slot tail) b
    let s := s.bwrite b (s.cache (L.slot tail))
    return ((s.brelse (L.slot tail)).brelse b).advance tail again after
  | none => .error .notEnabled

def readHead (L : Layout) (s : State ι β) : Except Stop (State ι β) := do
  let s ← s.bread L.start
  return { s.brelse L.start with lh := s.disk.head }

def writeHead (L : Layout) (s : State ι β) : Except Stop (State ι β) := do
  let s ← s.bread L.start
  return { s.brelse L.start with disk := { s.disk with head := s.lh } }

section passes

variable {L : Layout} {s s' : State ι β} {b c : Nat}

theorem hasBuf_mem {p : Buf β → Bool} (h : s.hasBuf b p = true) : ∃ x ∈ s.bufs, x.blockno = some b ∧ p x = true := by
  unfold State.hasBuf at h
  cases hx : slotOf Buf.blockno s.bufs b with
  | none =>
    rw [hx] at h
    cases h
  | some x =>
    rw [hx] at h
    exact ⟨x, (slotOf_mem hx).1, (slotOf_mem hx).2, h⟩

theorem bread_ok (h : s.bread b = .ok s') :
    ∃ l, bread s.disk.block b s.bufs = .ok l ∧ s' = { s with bufs := l } := by
  obtain ⟨l, hl, h⟩ := bind_eq_ok h
  exact ⟨l, hl, (Except.ok.inj h).symm⟩

theorem breads_ok (h : s.breads b c = .ok s') :
    b ≠ c ∧ ∃ l l', bread s.disk.block b s.bufs = .ok l ∧ bread s.disk.block c l = .ok l' ∧ s' = { s with bufs := l' } := by
  obtain ⟨s₁, h₁, h⟩ := bind_eq_ok h
  obtain ⟨l, hl, rfl⟩ := bread_ok h₁
  split_ifs at h with hbc
  obtain ⟨l', hl', rfl⟩ := bread_ok h
  exact ⟨hbc, l, l', hl, hl', rfl⟩

theorem install_eq_ok {tail : Nat} {again : Nat → Pc} {after : Pc} (h : install L s tail again after = .ok s') :
    ∃ b l l', s.lh[tail]? = some b ∧ bread s.disk.block (L.slot tail) s.bufs = .ok l ∧
      bread s.disk.block b l = .ok l' ∧
      s' = (((State.bwrite { s with bufs := l' } b (seen s.disk.block l' (L.slot tail))).brelse (L.slot tail)).brelse
        b).advance tail again after := by
  unfold install at h
  split at h
  · rename_i b hb
    obtain ⟨s₁, h₁, h⟩ := bind_eq_ok h
    obtain ⟨-, l, l', hl, hl', rfl⟩ := breads_ok h₁
    exact ⟨b, l, l', hb, hl, hl', (Except.ok.inj h).symm⟩
  · cases h

theorem writeHead_eq_ok (h : writeHead L s = .ok s') : ∃ l, bread s.disk.block L.start s.bufs = .ok l ∧
    s' = { s with bufs := brelse L.start l, disk := { s.disk with head := s.lh } } := by
  obtain ⟨s₁, h₁, h⟩ := bind_eq_ok h
  obtain ⟨l, hl, rfl⟩ := bread_ok h₁
  exact ⟨l, hl, (Except.ok.inj h).symm⟩

end passes

/-! ## Operations -/

variable [DecidableEq ι]

def State.setOp (s : State ι β) (o : ι) (x : Op β) : State ι β :=
  { s with ops := Function.update s.ops o x }

/-- `begin_op`, when it does not go to sleep. -/
def beginOp (s : State ι β) (o : ι) : Except Stop (State ι β) :=
  match s.ops o with
  | .fresh =>
    if s.pc.recovering then .error .notEnabled
    else if s.committing then .error .notEnabled
    else if s.lh.length + (s.outstanding + 1) * MAXOPBLOCKS > LOGSIZE then .error .notEnabled
    else .ok { s.setOp o .running with outstanding := s.outstanding + 1 }
  | _ => .error .notEnabled

/-- The tests of `log_write`, which are made without the lock. Operations write home blocks only, and have the lock of
the buffer. -/
def logWrite (L : Layout) (s : State ι β) (o : ι) (b : Nat) (x : β) : Except Stop (State ι β) :=
  match s.ops o with
  | .running =>
    if L.Home b then
      if s.lh.length ≥ LOGSIZE ∨ s.lh.length ≥ L.size - 1 then .error (.panic "too big a transaction")
      else if s.outstanding < 1 then .error (.panic "log_write outside of trans")
      else if s.hasBuf b fun y => decide (0 < y.refcnt) && !y.logging then
        .ok { s.setOp o (.writing b x) with bufs := onBuf b (fun y => { y with logging := true }) s.bufs }
      else .error .notEnabled
    else .error .notEnabled
  | _ => .error .notEnabled

/-- The critical section of `log_write`, with log absorption. -/
def logRecord (s : State ι β) (o : ι) : Except Stop (State ι β) :=
  match s.ops o with
  | .writing b x =>
    let s := { s.setOp o .running with bufs := onBuf b (Buf.logged b x) s.bufs }
    if b ∈ s.lh then .ok s
    else if s.lh.length < LOGSIZE then .ok { s with lh := s.lh ++ [b] }
    else .error .outOfRange
  | _ => .error .notEnabled

/-- Where `commit` starts: it does nothing for an empty log. -/
def commitPc (lh : List Nat) : Pc := if lh.length > 0 then .writeLog 0 else .committed

/-- Where `install_trans` starts in `recover_from_log`. -/
def recoverPc (lh : List Nat) : Pc := if lh.length > 0 then .reinstall 0 else .reclear

def endOp (s : State ι β) (o : ι) : Except Stop (State ι β) :=
  match s.ops o with
  | .running =>
    let s := { s.setOp o .ended with outstanding := s.outstanding - 1 }
    if s.committing then .error (.panic "log.committing")
    else if s.outstanding = 0 then
      .ok { s with committing := true, pc := commitPc s.lh }
    else .ok s
  | _ => .error .notEnabled

def Op.crash : Op β → Op β
  | .fresh => .fresh
  | _ => .lost

/-- The machine comes up again with an empty cache and `struct log` zeroed. -/
def State.crash (s : State ι β) : State ι β where
  disk := s.disk
  bufs := binit
  lh := []
  outstanding := 0
  committing := false
  ops := fun o => (s.ops o).crash
  pc := .readHead

def step (L : Layout) (s : State ι β) : Act ι β → Except Stop (State ι β)
  | .bread b => if s.pc.recovering = false ∧ L.Home b then s.bread b else .error .notEnabled
  | .brelse b => if s.hasBuf b fun x => decide (0 < x.spare) then .ok (s.brelse b) else .error .notEnabled
  | .beginOp o => beginOp s o
  | .logWrite o b x => logWrite L s o b x
  | .logRecord o => logRecord s o
  | .endOp o => endOp s o
  | .writeLog =>
    match s.pc with
    | .writeLog tail => writeLog L s tail
    | _ => .error .notEnabled
  | .writeHead =>
    if s.pc = .writeHead then do
      let s ← writeHead L s
      return { s with pc := .install 0 }
    else .error .notEnabled
  | .install =>
    match s.pc with
    | .install tail => install L s tail .install .clear
    | _ => .error .notEnabled
  | .clear =>
    if s.pc = .clear then do
      let s ← writeHead L { s with lh := [] }
      return { s with pc := .committed }
    else .error .notEnabled
  | .endCommit =>
    if s.pc = .committed then .ok { s with committing := false, pc := .idle } else .error .notEnabled
  | .crash => .ok s.crash
  | .readHead =>
    if s.pc = .readHead then do
      let s ← readHead L s
      return { s with pc := recoverPc s.lh }
    else .error .notEnabled
  | .reinstall =>
    match s.pc with
    | .reinstall tail => install L s tail .reinstall .reclear
    | _ => .error .notEnabled
  | .reclear =>
    if s.pc = .reclear then do
      let s ← writeHead L { s with lh := [] }
      return { s with pc := .idle }
    else .error .notEnabled

/-- The first boot: the on-disk header has `n = 0`. -/
def start (d : Nat → β) : State ι β where
  disk := ⟨[], d⟩
  bufs := binit
  lh := []
  outstanding := 0
  committing := false
  ops := fun _ => .fresh
  pc := .readHead

/-- A step of a run: the state it is taken in, and the action. -/
abbrev Event (ι β : Type) : Type := State ι β × Act ι β

/-- `LRun L d h s`: from a disk with the contents `d`, the run with history `h` (latest step first) reaches
`s`. -/
abbrev LRun (L : Layout) (d : Nat → β) (h : List (Event ι β)) (s : State ι β) : Prop :=
  Run (step L) (start d) h s

/-! ## What each step needs and does -/

section inversion

variable {L : Layout} {s s' : State ι β} {o : ι}

theorem stepBread_ok {b : Nat} (h : step L s (.bread b) = .ok s') :
    ∃ l, bread s.disk.block b s.bufs = .ok l ∧ s' = { s with bufs := l } := by
  simp only [step] at h
  split_ifs at h
  exact bread_ok h

theorem stepBrelse_ok {b : Nat} (h : step L s (.brelse b) = .ok s') :
    (s.hasBuf b fun x => decide (0 < x.spare)) = true ∧ s' = s.brelse b := ok_of_ite h

theorem beginOp_ok (h : step L s (.beginOp o) = .ok s') :
    s.ops o = .fresh ∧ s.pc.recovering = false ∧ s.committing = false ∧
      s.lh.length + (s.outstanding + 1) * MAXOPBLOCKS ≤ LOGSIZE ∧
      s' = { s.setOp o .running with outstanding := s.outstanding + 1 } := by
  simp only [step, beginOp] at h
  split at h
  · rename_i hop
    split_ifs at h with h₁ h₂ h₃
    simp only [Except.ok.injEq] at h
    exact ⟨hop, by simpa using h₁, by simpa using h₂, by omega, h.symm⟩
  · cases h

theorem logWrite_ok {b : Nat} {x : β} (h : step L s (.logWrite o b x) = .ok s') :
    s.ops o = .running ∧ L.Home b ∧ s.lh.length < LOGSIZE ∧ s.lh.length < L.size - 1 ∧
      1 ≤ s.outstanding ∧ (s.hasBuf b fun y => decide (0 < y.refcnt) && !y.logging) = true ∧
      s' = { s.setOp o (.writing b x) with bufs := onBuf b (fun y => { y with logging := true }) s.bufs } := by
  simp only [step, logWrite] at h
  split at h
  · rename_i hop
    split_ifs at h with h₁ h₂ h₃ h₄
    simp only [Except.ok.injEq] at h
    exact ⟨hop, h₁, by omega, by omega, by omega, h₄, h.symm⟩
  · cases h

theorem logRecord_ok (h : step L s (.logRecord o) = .ok s') :
    ∃ b x, s.ops o = .writing b x ∧ (b ∈ s.lh ∨ s.lh.length < LOGSIZE) ∧
      s' = { s.setOp o .running with
        bufs := onBuf b (Buf.logged b x) s.bufs
        lh := if b ∈ s.lh then s.lh else s.lh ++ [b] } := by
  simp only [step, logRecord] at h
  split at h
  · rename_i b x hop
    refine ⟨b, x, hop, ?_⟩
    by_cases hm : b ∈ s.lh
    · rw [if_pos (show b ∈ (s.setOp o .running).lh from hm)] at h
      rw [if_pos hm]
      exact ⟨.inl hm, (Except.ok.inj h).symm⟩
    · rw [if_neg (show b ∉ (s.setOp o .running).lh from hm)] at h
      rw [if_neg hm]
      split_ifs at h with hn
      exact ⟨.inr hn, (Except.ok.inj h).symm⟩
  · cases h

theorem endOp_ok (h : step L s (.endOp o) = .ok s') :
    s.ops o = .running ∧ s.committing = false ∧
      (s.outstanding - 1 ≠ 0 ∧ s' = { s.setOp o .ended with outstanding := s.outstanding - 1 } ∨
        s.outstanding - 1 = 0 ∧ s' = { s.setOp o .ended with
          outstanding := s.outstanding - 1
          committing := true
          pc := commitPc s.lh }) := by
  simp only [step, endOp] at h
  split at h
  · rename_i hop
    split_ifs at h with h₁ h₂
    · exact ⟨hop, Bool.eq_false_iff.mpr h₁, .inr ⟨h₂, (Except.ok.inj h).symm⟩⟩
    · exact ⟨hop, Bool.eq_false_iff.mpr h₁, .inl ⟨h₂, (Except.ok.inj h).symm⟩⟩
  · cases h

theorem writeLog_ok (h : step L s .writeLog = .ok s') :
    ∃ tail b l l', s.pc = .writeLog tail ∧ s.lh[tail]? = some b ∧ bread s.disk.block (L.slot tail) s.bufs = .ok l ∧
      bread s.disk.block b l = .ok l' ∧
      s' = (((State.bwrite { s with bufs := l' } (L.slot tail) (seen s.disk.block l' b)).brelse b).brelse
        (L.slot tail)).advance tail .writeLog .writeHead := by
  simp only [step] at h
  split at h
  · rename_i tail hpc
    unfold writeLog at h
    split at h
    · rename_i b hb
      obtain ⟨s₁, h₁, h⟩ := bind_eq_ok h
      obtain ⟨-, l, l', hl, hl', rfl⟩ := breads_ok h₁
      exact ⟨tail, b, l, l', hpc, hb, hl, hl', (Except.ok.inj h).symm⟩
    · cases h
  · cases h

theorem install_ok (h : step L s .install = .ok s') :
    ∃ tail, s.pc = .install tail ∧ install L s tail .install .clear = .ok s' := by
  simp only [step] at h
  split at h
  · rename_i tail hpc
    exact ⟨tail, hpc, h⟩
  · cases h

theorem reinstall_ok (h : step L s .reinstall = .ok s') :
    ∃ tail, s.pc = .reinstall tail ∧ install L s tail .reinstall .reclear = .ok s' := by
  simp only [step] at h
  split at h
  · rename_i tail hpc
    exact ⟨tail, hpc, h⟩
  · cases h

theorem writeHead_ok (h : step L s .writeHead = .ok s') : s.pc = .writeHead ∧
    ∃ l, bread s.disk.block L.start s.bufs = .ok l ∧
      s' = { s with bufs := brelse L.start l, disk := { s.disk with head := s.lh }, pc := .install 0 } := by
  simp only [step] at h
  split_ifs at h with hpc
  obtain ⟨s₁, h₁, h⟩ := bind_eq_ok h
  obtain ⟨l, hl, rfl⟩ := writeHead_eq_ok h₁
  exact ⟨hpc, l, hl, (Except.ok.inj h).symm⟩

theorem clear_ok (h : step L s .clear = .ok s') : s.pc = .clear ∧
    ∃ l, bread s.disk.block L.start s.bufs = .ok l ∧
      s' = { s with bufs := brelse L.start l, disk := { s.disk with head := [] }, lh := [], pc := .committed } := by
  simp only [step] at h
  split_ifs at h with hpc
  obtain ⟨s₁, h₁, h⟩ := bind_eq_ok h
  obtain ⟨l, hl, rfl⟩ := writeHead_eq_ok h₁
  exact ⟨hpc, l, hl, (Except.ok.inj h).symm⟩

theorem readHead_ok (h : step L s .readHead = .ok s') : s.pc = .readHead ∧
    ∃ l, bread s.disk.block L.start s.bufs = .ok l ∧
      s' = { s with bufs := brelse L.start l, lh := s.disk.head, pc := recoverPc s.disk.head } := by
  simp only [step] at h
  split_ifs at h with hpc
  obtain ⟨s₁, h₁, h⟩ := bind_eq_ok h
  obtain ⟨s₂, h₂, h₁⟩ := bind_eq_ok h₁
  obtain ⟨l, hl, rfl⟩ := bread_ok h₂
  cases h₁
  exact ⟨hpc, l, hl, (Except.ok.inj h).symm⟩

theorem reclear_ok (h : step L s .reclear = .ok s') : s.pc = .reclear ∧
    ∃ l, bread s.disk.block L.start s.bufs = .ok l ∧
      s' = { s with bufs := brelse L.start l, disk := { s.disk with head := [] }, lh := [], pc := .idle } := by
  simp only [step] at h
  split_ifs at h with hpc
  obtain ⟨s₁, h₁, h⟩ := bind_eq_ok h
  obtain ⟨l, hl, rfl⟩ := writeHead_eq_ok h₁
  exact ⟨hpc, l, hl, (Except.ok.inj h).symm⟩

end inversion

end Xv6Mlfq.Log
