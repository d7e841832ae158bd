import Xv6Mlfq.Log.Model

/-!
# Operations and commits

`log.outstanding` counts the operations between `begin_op` and `end_op`. While there is one, the log is
neither committing nor recovering; so a commit starts when every operation of its group has ended, and
`end_op` never finds `log.committing` set (`LRun.opsOk`).
-/

namespace Xv6Mlfq.Log

open Lib

variable {ι β : Type}

/-- The operation is between `begin_op` and `end_op`. -/
def Op.Active : Op β → Prop
  | .running => True
  | .writing _ _ => True
  | _ => False

@[simp] theorem active_running : (Op.running : Op β).Active := trivial
@[simp] theorem active_writing (b : Nat) (x : β) : (Op.writing b x).Active := trivial
@[simp] theorem not_active_fresh : ¬ (Op.fresh : Op β).Active := id
@[simp] theorem not_active_ended : ¬ (Op.ended : Op β).Active := id

theorem not_active_crash (x : Op β) : ¬ x.crash.Active := by
  cases x <;> exact id

/-- The operations under way, and what the log does meanwhile. -/
structure OpsOk (s : State ι β) : Prop where
  count : ∃ l : List ι, l.Nodup ∧ l.length = s.outstanding ∧ ∀ o, o ∈ l ↔ (s.ops o).Active
  idle : 0 < s.outstanding → s.pc = .idle
  commit : s.committing = true ↔ s.pc ≠ .idle ∧ s.pc.recovering = false

variable {s s' : State ι β} {o : ι}

namespace OpsOk

theorem outstanding_pos (hs : OpsOk s) (ho : (s.ops o).Active) : 0 < s.outstanding := by
  obtain ⟨l, _, hlen, hmem⟩ := hs.count
  rw [← hlen]
  exact List.length_pos_of_mem ((hmem o).mpr ho)

theorem pc_idle (hs : OpsOk s) (ho : (s.ops o).Active) : s.pc = .idle := hs.idle (hs.outstanding_pos ho)

theorem bufs (hs : OpsOk s) (l : List (Buf β)) : OpsOk { s with bufs := l } := ⟨hs.count, hs.idle, hs.commit⟩

theorem move (hs : OpsOk s) (hops : s'.ops = s.ops) (hout : s'.outstanding = s.outstanding)
    (hzero : s.outstanding = 0) (hcommit : s'.committing = true ↔ s'.pc ≠ .idle ∧ s'.pc.recovering = false) :
    OpsOk s' := by
  refine ⟨?_, fun hpos => ?_, hcommit⟩
  · rw [hops, hout]
    exact hs.count
  · omega

variable [DecidableEq ι]

theorem setOp (hs : OpsOk s) (ho : (s.ops o).Active) {x : Op β} (hx : x.Active)
    (hops : s'.ops = Function.update s.ops o x) (hout : s'.outstanding = s.outstanding)
    (hpc : s'.pc = s.pc) (hcommit : s'.committing = s.committing) : OpsOk s' := by
  obtain ⟨l, hnd, hlen, hmem⟩ := hs.count
  refine ⟨⟨l, hnd, hlen.trans hout.symm, fun r => ?_⟩, ?_, ?_⟩
  · rw [hops, hmem r, Function.update_apply]
    split
    · rename_i heq
      rw [heq]
      exact ⟨fun _ => hx, fun _ => ho⟩
    · exact Iff.rfl
  · rw [hout, hpc]
    exact hs.idle
  · rw [hcommit, hpc]
    exact hs.commit

theorem start (hs : OpsOk s) (ho : s.ops o = .fresh) (hpc : s.pc = .idle) :
    OpsOk { s.setOp o .running with outstanding := s.outstanding + 1 } := by
  obtain ⟨l, hnd, hlen, hmem⟩ := hs.count
  have hnew : o ∉ l := by
    rw [hmem, ho]
    exact id
  refine ⟨⟨o :: l, List.nodup_cons.mpr ⟨hnew, hnd⟩, by simp [hlen], fun r => ?_⟩, fun _ => hpc, hs.commit⟩
  show _ ↔ (Function.update s.ops o .running r).Active
  rw [List.mem_cons, hmem r, Function.update_apply]
  split
  · rename_i heq
    simp [heq]
  · rename_i hne
    simp [hne]

theorem finish (hs : OpsOk s) (ho : s.ops o = .running) (hops : s'.ops = Function.update s.ops o .ended)
    (hout : s'.outstanding = s.outstanding - 1) (hpc : 0 < s'.outstanding → s'.pc = .idle)
    (hcommit : s'.committing = true ↔ s'.pc ≠ .idle ∧ s'.pc.recovering = false) : OpsOk s' := by
  obtain ⟨l, hnd, hlen, hmem⟩ := hs.count
  have hold : o ∈ l := by
    rw [hmem, ho]
    trivial
  refine ⟨⟨l.erase o, hnd.erase o, ?_, fun r => ?_⟩, hpc, hcommit⟩
  · rw [List.length_erase_of_mem hold, hlen, hout]
  · rw [hops, hnd.mem_erase_iff, hmem r, Function.update_apply]
    split
    · rename_i heq
      simp [heq]
    · rename_i hne
      simp [hne]

end OpsOk

variable [DecidableEq ι] {L : Layout} {d : Nat → β} {a : Act ι β} {h : List (Event ι β)}

theorem commitPc_moves (lh : List Nat) : commitPc lh ≠ .idle ∧ (commitPc lh).recovering = false := by
  unfold commitPc
  split <;> exact ⟨nofun, rfl⟩

theorem recoverPc_recovering (lh : List Nat) : (recoverPc lh).recovering = true := by
  unfold recoverPc
  split <;> rfl

theorem OpsOk.step (hs : OpsOk s) (ht : step L s a = .ok s') : OpsOk s' := by
  have hzero : s.pc ≠ .idle → s.outstanding = 0 := by
    intro hne
    by_contra hpos
    exact hne (hs.idle (by omega))
  have hcommitting : s.pc ≠ .idle → s.pc.recovering = false → s.committing = true :=
    fun h₁ h₂ => hs.commit.mpr ⟨h₁, h₂⟩
  have hrecovering : s.pc.recovering = true → s.committing = false := by
    intro hr
    by_contra hc
    have := (hs.commit.mp (by simpa using hc)).2
    simp [hr] at this
  cases a with
  | bread b =>
    obtain ⟨l, -, rfl⟩ := stepBread_ok ht
    exact hs.bufs l
  | brelse b =>
    obtain ⟨-, rfl⟩ := stepBrelse_ok ht
    exact hs.bufs _
  | beginOp o =>
    obtain ⟨hop, hrec, hcom, -, rfl⟩ := beginOp_ok ht
    refine hs.start hop ?_
    by_contra hne
    have := hs.commit.mpr ⟨hne, hrec⟩
    simp [hcom] at this
  | logWrite o b x =>
    obtain ⟨hop, -, -, -, -, -, rfl⟩ := logWrite_ok ht
    exact hs.setOp (o := o) (by rw [hop]; trivial) (active_writing b x) rfl rfl rfl rfl
  | logRecord o =>
    obtain ⟨b, x, hop, -, rfl⟩ := logRecord_ok ht
    exact hs.setOp (o := o) (by rw [hop]; trivial) active_running rfl rfl rfl rfl
  | endOp o =>
    obtain ⟨hop, hcom, ⟨-, rfl⟩ | ⟨hz, rfl⟩⟩ := endOp_ok ht
    · have hidle := hs.pc_idle (o := o) (by rw [hop]; trivial)
      exact hs.finish hop rfl rfl (fun _ => hidle) hs.commit
    · refine hs.finish hop rfl rfl (fun hpos => ?_) ?_
      · exact absurd hpos (by simp [hz])
      · exact ⟨fun _ => commitPc_moves s.lh, fun _ => rfl⟩
  | writeLog =>
    obtain ⟨tail, b, l, l', hpc, -, -, -, rfl⟩ := writeLog_ok ht
    refine hs.move rfl rfl (hzero (by simp [hpc])) ⟨fun _ => ?_, fun _ => hcommitting (by simp [hpc]) (by rw [hpc]; rfl)⟩
    simp only [State.advance]
    split <;> exact ⟨nofun, rfl⟩
  | writeHead =>
    obtain ⟨hpc, l, -, rfl⟩ := writeHead_ok ht
    exact hs.move rfl rfl (hzero (by simp [hpc]))
      ⟨fun _ => ⟨nofun, rfl⟩, fun _ => hcommitting (by simp [hpc]) (by rw [hpc]; rfl)⟩
  | install =>
    obtain ⟨tail, hpc, ht⟩ := install_ok ht
    obtain ⟨b, l, l', -, -, -, rfl⟩ := install_eq_ok ht
    refine hs.move rfl rfl (hzero (by simp [hpc])) ⟨fun _ => ?_, fun _ => hcommitting (by simp [hpc]) (by rw [hpc]; rfl)⟩
    simp only [State.advance]
    split <;> exact ⟨nofun, rfl⟩
  | clear =>
    obtain ⟨hpc, l, -, rfl⟩ := clear_ok ht
    exact hs.move rfl rfl (hzero (by simp [hpc]))
      ⟨fun _ => ⟨nofun, rfl⟩, fun _ => hcommitting (by simp [hpc]) (by rw [hpc]; rfl)⟩
  | endCommit =>
    obtain ⟨hpc, rfl⟩ := ok_of_ite ht
    exact hs.move rfl rfl (hzero (by simp [hpc])) ⟨nofun, fun h => absurd rfl h.1⟩
  | crash =>
    cases ht
    refine ⟨⟨[], List.nodup_nil, rfl, fun r => ⟨nofun, fun h => (not_active_crash _ h).elim⟩⟩, nofun, ?_⟩
    exact ⟨nofun, fun h => nomatch h.2⟩
  | readHead =>
    obtain ⟨hpc, l, -, rfl⟩ := readHead_ok ht
    have hfalse := hrecovering (by rw [hpc]; rfl)
    refine hs.move rfl rfl (hzero (by simp [hpc])) ⟨fun h => ?_, fun h => ?_⟩
    · exact absurd (hfalse.symm.trans h) nofun
    · exact absurd ((recoverPc_recovering s.disk.head).symm.trans h.2) nofun
  | reinstall =>
    obtain ⟨tail, hpc, ht⟩ := reinstall_ok ht
    obtain ⟨b, l, l', -, -, -, rfl⟩ := install_eq_ok ht
    have hfalse := hrecovering (by rw [hpc]; rfl)
    refine hs.move rfl rfl (hzero (by simp [hpc])) ⟨fun h => absurd (hfalse.symm.trans h) nofun, fun h => ?_⟩
    simp only [State.advance] at h
    split at h <;> exact absurd h.2 nofun
  | reclear =>
    obtain ⟨hpc, l, -, rfl⟩ := reclear_ok ht
    have hfalse := hrecovering (by rw [hpc]; rfl)
    exact hs.move rfl rfl (hzero (by simp [hpc]))
      ⟨fun h => absurd (hfalse.symm.trans h) nofun, fun h => absurd rfl h.1⟩

theorem LRun.opsOk (hr : LRun L d h s) : OpsOk s := by
  refine hr.induct (I := OpsOk) ?_ fun s a s' hs ht => hs.step ht
  refine ⟨⟨[], List.nodup_nil, rfl, fun r => ⟨nofun, fun h => h.elim⟩⟩, nofun, ?_⟩
  exact ⟨nofun, fun h => nomatch h.2⟩

theorem LRun.endOp_committing (hr : LRun L d h s) (ho : s.ops o = .running) : s.committing = false := by
  have hs := hr.opsOk
  have hidle := hs.pc_idle (o := o) (by rw [ho]; trivial)
  by_contra hc
  exact (hs.commit.mp (by simpa using hc)).1 hidle

end Xv6Mlfq.Log
