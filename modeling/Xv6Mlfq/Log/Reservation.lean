import Xv6Mlfq.Log.Atomic

/-!
# Log reservation

`begin_op` admits operations as long as the blocks logged so far and ten for every operation under way
fit into `LOGSIZE` blocks; `log_write` gives up when `log.size - 1` blocks are logged, and mkfs sets
`log.size = LOGSIZE`. So three operations may be admitted that log ten blocks each, and the last
`log_write` panics (`reservation_short`). The panic is reached exactly when the open group has logged 29
blocks (`reservation_iff`).
-/

namespace Xv6Mlfq.Log

open Lib

variable {ι β : Type}

/-- The distinct blocks that the operations of the open group have logged. -/
def loggedBlocks (h : List (Event ι β)) : Finset Nat := ((pending h).map fun w => w.2.1).toFinset

/-- No commit header has been written since the log was last empty. -/
def Pc.opened : Pc → Bool
  | .idle => true
  | .writeLog _ => true
  | .writeHead => true
  | _ => false

/-- The header in memory lists what the open group has logged. -/
structure Tally (h : List (Event ι β)) (s : State ι β) : Prop where
  opened : s.pc.opened = true → s.lh.Nodup ∧ s.lh.toFinset = loggedBlocks h
  shut : s.pc.opened = false → pending h = []
  empty : s.pc = .committed → s.lh = []

variable {L : Layout} {d : Nat → β} {s s' : State ι β} {a : Act ι β} {h : List (Event ι β)}

theorem loggedBlocks_quiet (ha : a.quiet = true) : loggedBlocks ((s, a) :: h) = loggedBlocks h := by
  rw [loggedBlocks, pending_quiet ha, loggedBlocks]

theorem pending_eq_nil (hb : loggedBlocks h = ∅) : pending h = [] := by
  simpa [loggedBlocks] using hb

theorem Tally.keep (ht : Tally h s) (ha : a.quiet = true) (hlh : s'.lh = s.lh)
    (hopen : s'.pc.opened = s.pc.opened) (hcom : s'.pc ≠ .committed) : Tally ((s, a) :: h) s' := by
  refine ⟨fun ho => ?_, fun ho => ?_, fun hc => absurd hc hcom⟩
  · rw [hlh, loggedBlocks_quiet ha]
    exact ht.opened (hopen ▸ ho)
  · rw [pending_quiet ha]
    exact ht.shut (hopen ▸ ho)

theorem Tally.bufs (ht : Tally h s) (ha : a.quiet = true) (l : List (Buf β)) : Tally ((s, a) :: h) { s with bufs := l } := by
  refine ⟨?_, ?_, ht.empty⟩
  · rw [loggedBlocks_quiet ha]
    exact ht.opened
  · rw [pending_quiet ha]
    exact ht.shut

theorem Tally.cleared (ht : Tally h s) (ha : a.quiet = true) (hpc : s.pc.opened = false)
    (hlh : s'.lh = []) : Tally ((s, a) :: h) s' := by
  have hnil := ht.shut hpc
  refine ⟨fun _ => ?_, fun _ => ?_, fun _ => hlh⟩
  · rw [hlh, loggedBlocks_quiet ha, loggedBlocks, hnil]
    exact ⟨List.nodup_nil, rfl⟩
  · rw [pending_quiet ha, hnil]

variable [DecidableEq ι]

theorem Tally.step (ht : Tally h s) (hops : OpsOk s) (hs : Log.step L s a = .ok s') :
    Tally ((s, a) :: h) s' := by
  cases a with
  | bread b =>
    obtain ⟨l, -, rfl⟩ := stepBread_ok hs
    exact ht.bufs rfl l
  | brelse b =>
    obtain ⟨-, rfl⟩ := stepBrelse_ok hs
    exact ht.bufs rfl _
  | beginOp o =>
    obtain ⟨-, hrec, hcom, -, rfl⟩ := beginOp_ok hs
    refine ht.keep rfl rfl rfl fun hpc => ?_
    have := hops.commit.mpr ⟨by simpa using hpc ▸ (fun h => by cases h), hrec⟩
    simp [hcom] at this
  | logWrite o b x =>
    obtain ⟨hop, -, -, -, -, -, rfl⟩ := logWrite_ok hs
    have hidle := hops.pc_idle (o := o) (by rw [hop]; trivial)
    exact ht.keep rfl rfl rfl (by show s.pc ≠ _; rw [hidle]; exact fun h => by cases h)
  | logRecord o =>
    obtain ⟨b, x, hop, -, rfl⟩ := logRecord_ok hs
    have hidle := hops.pc_idle (o := o) (by rw [hop]; trivial)
    obtain ⟨hnd, hset⟩ := ht.opened (by rw [hidle]; rfl)
    have hlog : loggedBlocks ((s, .logRecord o) :: h) = insert b (loggedBlocks h) := by
      rw [loggedBlocks, pending_record hop]
      simp [loggedBlocks]
    refine ⟨fun _ => ?_, fun ho => ?_, fun hc => ?_⟩
    · show (if b ∈ s.lh then s.lh else s.lh ++ [b]).Nodup ∧ _
      rw [hlog, ← hset]
      split_ifs with hb
      · exact ⟨hnd, (Finset.insert_eq_self.mpr (List.mem_toFinset.mpr hb)).symm⟩
      · refine ⟨?_, by ext c; simp⟩
        rw [List.nodup_append]
        refine ⟨hnd, List.nodup_singleton b, fun c hc c' hc' => ?_⟩
        rw [List.mem_singleton.mp hc']
        exact fun heq => hb (heq ▸ hc)
    · exact absurd ho (by show ¬ s.pc.opened = false; rw [hidle]; exact fun h => by cases h)
    · exact absurd hc (by show s.pc ≠ _; rw [hidle]; exact fun h => by cases h)
  | endOp o =>
    obtain ⟨hop, -, hcase⟩ := endOp_ok hs
    have hidle := hops.pc_idle (o := o) (by rw [hop]; trivial)
    obtain ⟨hnd, hset⟩ := ht.opened (by rw [hidle]; rfl)
    rcases hcase with ⟨-, rfl⟩ | ⟨-, rfl⟩
    · exact ht.keep rfl rfl rfl (by show s.pc ≠ _; rw [hidle]; exact fun h => by cases h)
    · refine ⟨fun _ => ⟨hnd, hset⟩, fun ho => ?_, fun hc => ?_⟩
      · show pending h = []
        refine pending_eq_nil ?_
        have hnil : s.lh = [] := by
          by_contra hne
          have hpos : s.lh.length > 0 := List.length_pos_iff.mpr hne
          simp [commitPc, hpos, Pc.opened] at ho
        rw [← hset, hnil]
        rfl
      · show s.lh = []
        have hzero : ¬ s.lh.length > 0 := fun hpos => by simp [commitPc, hpos] at hc
        exact List.eq_nil_of_length_eq_zero (by omega)
  | writeLog =>
    obtain ⟨tail, b, l, l', hpc, -, -, -, rfl⟩ := writeLog_ok hs
    refine ht.keep rfl rfl ?_ ?_
    · simp only [State.advance, hpc]
      split <;> rfl
    · simp only [State.advance]
      split <;> exact fun h => by cases h
  | writeHead =>
    obtain ⟨-, l, -, rfl⟩ := writeHead_ok hs
    exact ⟨(fun h => by cases h), fun _ => rfl, (fun h => by cases h)⟩
  | install =>
    obtain ⟨tail, hpc, hs⟩ := install_ok hs
    obtain ⟨b, l, l', -, -, -, rfl⟩ := install_eq_ok hs
    refine ht.keep rfl rfl ?_ ?_
    · simp only [State.advance, hpc]
      split <;> rfl
    · simp only [State.advance]
      split <;> exact fun h => by cases h
  | clear =>
    obtain ⟨hpc, l, -, rfl⟩ := clear_ok hs
    exact ht.cleared rfl (by rw [hpc]; rfl) rfl
  | endCommit =>
    obtain ⟨hpc, rfl⟩ := ok_of_ite hs
    exact ht.cleared rfl (by rw [hpc]; rfl) (ht.empty hpc)
  | crash =>
    cases hs
    exact ⟨(fun h => by cases h), fun _ => rfl, (fun h => by cases h)⟩
  | readHead =>
    obtain ⟨hpc, l, -, rfl⟩ := readHead_ok hs
    have hmoves : ∀ lh, (recoverPc lh).opened = false ∧ recoverPc lh ≠ .committed := by
      intro lh
      unfold recoverPc
      split <;> exact ⟨rfl, (fun h => by cases h)⟩
    refine ⟨fun ho => ?_, fun _ => ?_, fun hc => absurd hc (hmoves _).2⟩
    · exact absurd ((hmoves s.disk.head).1.symm.trans ho) (fun h => by cases h)
    · rw [pending_quiet rfl]
      exact ht.shut (by rw [hpc]; rfl)
  | reinstall =>
    obtain ⟨tail, hpc, hs⟩ := reinstall_ok hs
    obtain ⟨b, l, l', -, -, -, rfl⟩ := install_eq_ok hs
    refine ht.keep rfl rfl ?_ ?_
    · simp only [State.advance, hpc]
      split <;> rfl
    · simp only [State.advance]
      split <;> exact fun h => by cases h
  | reclear =>
    obtain ⟨hpc, l, -, rfl⟩ := reclear_ok hs
    exact ht.cleared rfl (by rw [hpc]; rfl) rfl

theorem LRun.tally (hr : LRun L d h s) : Tally h s := by
  induction hr with
  | start => exact ⟨nofun, fun _ => rfl, nofun⟩
  | next hr ht ih => exact ih.step (LRun.opsOk hr) ht

/-- While an operation runs, the header in memory is as long as the group's list of distinct blocks. -/
theorem LRun.length_lh {o : ι} (hr : LRun L d h s) (ho : s.ops o = .running) :
    s.lh.length = (loggedBlocks h).card := by
  have hidle := hr.opsOk.pc_idle (o := o) (by rw [ho]; trivial)
  obtain ⟨hnd, hset⟩ := hr.tally.opened (by rw [hidle]; rfl)
  rw [← hset, List.toFinset_card_of_nodup hnd]

/-- **When the reservation holds.** On a file system made by mkfs, for any interleaving of any number of
operations: a `log_write` ends in its panic if and only if the operations of the open group have logged
`LOGSIZE - 1` distinct blocks before, and `end_op` never ends in its panic. -/
theorem reservation_iff (hr : LRun mkfs d h s) :
    (∀ o b x, s.ops o = .running → mkfs.Home b →
      (Log.step mkfs s (.logWrite o b x) ≠ .error (.panic "too big a transaction") ↔
        (loggedBlocks h).card < LOGSIZE - 1)) ∧
    ∀ o, Log.step mkfs s (.endOp o) ≠ .error (.panic "log.committing") := by
  refine ⟨fun o b x ho hb => ?_, fun o hpanic => ?_⟩
  · have hlen := hr.length_lh ho
    have hsize : mkfs.size = LOGSIZE := rfl
    simp only [Log.step, logWrite, ho, if_pos hb, hsize, hlen]
    constructor
    · intro hne
      by_contra hfull
      exact hne (if_pos (.inr (Nat.not_lt.mp hfull)))
    · intro hroom
      have hlt : (loggedBlocks h).card < LOGSIZE := hroom.trans_le (Nat.sub_le _ _)
      rw [if_neg (by simp only [not_or, not_le]; exact ⟨hlt, hroom⟩)]
      split_ifs <;> simp
  · simp only [Log.step, endOp] at hpanic
    split at hpanic
    · rename_i ho
      rw [if_neg (by simpa [State.setOp] using hr.endOp_committing ho)] at hpanic
      split_ifs at hpanic
    · cases hpanic

/-- Three operations under way, and nothing logged yet. -/
theorem reservation_iff_three : ∃ (h : List (Event (Fin 3) Bool)) (s : State (Fin 3) Bool),
    LRun mkfs (fun _ => false) h s ∧ s.outstanding = 3 ∧
    Log.step mkfs s (.logWrite 2 100 true) ≠ .error (.panic "too big a transaction") ∧
    Log.step mkfs s (.endOp 2) ≠ .error (.panic "log.committing") := by
  obtain ⟨h, s, hr, hout, hcard, hop⟩ := exists_run_of_exec (α := Act (Fin 3) Bool) (step mkfs)
    (start fun _ => false)
    (P := fun h s => s.outstanding = 3 ∧ (loggedBlocks h).card < LOGSIZE - 1 ∧ s.ops 2 = .running)
    [.readHead, .reclear, .beginOp 0, .beginOp 1, .beginOp 2] (by decide +kernel)
  obtain ⟨hwrite, hend⟩ := reservation_iff hr
  have hhome : mkfs.Home 100 := by decide
  exact ⟨h, s, hr, hout, (hwrite 2 100 true hop hhome).mpr hcard, hend 2⟩

/-- **The reservation is one block short.** Two operations have logged ten blocks each and a third one nine;
its tenth `log_write` ends in the panic. -/
theorem reservation_short : ∃ (h : List (Event (Fin 3) Bool)) (s : State (Fin 3) Bool),
    LRun mkfs (fun _ => false) h s ∧ (∀ o, (writesOf o (allWrites h)).length ≤ MAXOPBLOCKS) ∧
    (writesOf 2 (allWrites h)).length < MAXOPBLOCKS ∧
    Log.step mkfs s (.logWrite 2 129 true) = .error (.panic "too big a transaction") := by
  obtain ⟨h, s, hr, hall, hten, hpanic⟩ := exists_run_of_exec (α := Act (Fin 3) Bool)
    (step mkfs) (start fun _ => false)
    (P := fun h s => (∀ o, (writesOf o (allWrites h)).length ≤ MAXOPBLOCKS) ∧
      (writesOf 2 (allWrites h)).length < MAXOPBLOCKS ∧
      Sat (step mkfs s (.logWrite 2 129 true)) (fun _ => False)
        (fun e => e = .panic "too big a transaction"))
    (List.flatten [[.readHead, .reclear, .beginOp 0, .beginOp 1, .beginOp 2],
      logActs 0 [100, 101, 102, 103, 104, 105, 106, 107, 108, 109] true,
      logActs 1 [110, 111, 112, 113, 114, 115, 116, 117, 118, 119] true,
      logActs 2 [120, 121, 122, 123, 124, 125, 126, 127, 128] true, [.bread 129]]) (by decide +kernel)
  exact ⟨h, s, hr, hall, hten, hpanic.eq_error⟩

end Xv6Mlfq.Log
