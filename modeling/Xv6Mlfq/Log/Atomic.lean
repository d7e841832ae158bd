import Xv6Mlfq.Log.Recovery

/-!
# Crash atomicity

An operation's writes become durable all at once, with the commit header of its group (`Fate`), and a
completed recovery leaves the home blocks as the durable writes say (`crash_atomic`). The log must have at
least `LOGSIZE` blocks, as mkfs gives it: two operations that both pass the test of `log_write` before either
takes the lock can fill a smaller log beyond its area, with buffers left for `write_log` to go on.
-/

namespace Xv6Mlfq.Log

open Lib

variable {ι β : Type} [DecidableEq ι]

/-! ## The writes of one operation -/

/-- The writes of operation `o` among some writes. -/
def writesOf (o : ι) (ws : List (Write ι β)) : List (Nat × β) :=
  (ws.filter fun w => w.1 = o).map fun w => w.2

/-- All writes recorded in a run, latest first. -/
def allWrites : List (Event ι β) → List (Write ι β)
  | [] => []
  | (s, a) :: h => (recorded s a).toList ++ allWrites h

/-- The operations that have ended since the last commit or crash: the group that commits next. -/
def closing : List (Event ι β) → List ι
  | [] => []
  | (_, a) :: h =>
    match a with
    | .writeHead => []
    | .crash => []
    | .endOp o => o :: closing h
    | _ => closing h

/-- The operations whose group's commit header has reached the disk. -/
def committedOps : List (Event ι β) → List ι
  | [] => []
  | (_, a) :: h =>
    match a with
    | .writeHead => closing h ++ committedOps h
    | _ => committedOps h

/-- The last step completed `recover_from_log`. -/
def recovered : List (Event ι β) → Bool
  | (_, .reclear) :: _ => true
  | _ => false

def Act.recovery : Act ι β → Bool
  | .crash => true
  | .readHead => true
  | .reinstall => true
  | .reclear => true
  | _ => false

/-- What has become of the writes of operation `o`. -/
inductive Fate (h : List (Event ι β)) (s : State ι β) (o : ι) : Prop
  | committed (hmem : o ∈ committedOps h) (hall : writesOf o (durable h) = writesOf o (allWrites h))
      (hpend : writesOf o (pending h) = []) (hop : s.ops o = .ended ∨ s.ops o = .lost)
  | grouped (hmem : o ∉ committedOps h) (hnone : writesOf o (durable h) = [])
      (hall : writesOf o (pending h) = writesOf o (allWrites h))
      (hfresh : s.ops o = .fresh → writesOf o (allWrites h) = []) (hlost : s.ops o ≠ .lost)
      (hclosing : o ∈ closing h ↔ s.ops o = .ended)
  | lost (hmem : o ∉ committedOps h) (hnone : writesOf o (durable h) = [])
      (hpend : writesOf o (pending h) = []) (hop : s.ops o = .lost) (hclosing : o ∉ closing h)

variable {L : Layout} {d : Nat → β} {s s' : State ι β} {a : Act ι β} {h : List (Event ι β)} {o r : ι}

@[simp] theorem writesOf_nil : writesOf o ([] : List (Write ι β)) = [] := rfl

theorem writesOf_append (ws ws' : List (Write ι β)) :
    writesOf o (ws ++ ws') = writesOf o ws ++ writesOf o ws' := by
  simp [writesOf]

theorem writesOf_other {b : Nat} {x : β} (hne : r ≠ o) (ws : List (Write ι β)) :
    writesOf o ((r, b, x) :: ws) = writesOf o ws := by
  simp [writesOf, hne]

theorem writesOf_self {b : Nat} {x : β} (ws : List (Write ι β)) :
    writesOf o ((o, b, x) :: ws) = (b, x) :: writesOf o ws := by
  simp [writesOf]

/-! ## One step -/

theorem Fate.keep (hf : Fate h s o) (hcom : committedOps ((s, a) :: h) = committedOps h)
    (hdur : durable ((s, a) :: h) = durable h)
    (hpend : writesOf o (pending ((s, a) :: h)) = writesOf o (pending h))
    (hall : writesOf o (allWrites ((s, a) :: h)) = writesOf o (allWrites h))
    (hclosing : o ∈ closing ((s, a) :: h) ↔ o ∈ closing h)
    (hended : s'.ops o = .ended ↔ s.ops o = .ended) (hlost : s'.ops o = .lost ↔ s.ops o = .lost)
    (hfresh : s'.ops o = .fresh → s.ops o = .fresh) : Fate ((s, a) :: h) s' o := by
  cases hf with
  | committed h₁ h₂ h₃ h₄ =>
    exact .committed (hcom ▸ h₁) (by rw [hdur, hall, h₂]) (hpend.trans h₃) (h₄.imp hended.mpr hlost.mpr)
  | grouped h₁ h₂ h₃ h₄ h₅ h₆ =>
    exact .grouped (hcom ▸ h₁) (hdur ▸ h₂) (by rw [hpend, hall, h₃]) (fun h => hall.trans (h₄ (hfresh h)))
      (fun h => h₅ (hlost.mp h)) (hclosing.trans (h₆.trans hended.symm))
  | lost h₁ h₂ h₃ h₄ h₅ =>
    exact .lost (hcom ▸ h₁) (hdur ▸ h₂) (hpend.trans h₃) (hlost.mpr h₄) (fun h => h₅ (hclosing.mp h))

theorem Fate.quiet (hf : Fate h s o) (ha : a.quiet = true) (hend : ∀ r, a ≠ .endOp r)
    (hended : s'.ops o = .ended ↔ s.ops o = .ended) (hlost : s'.ops o = .lost ↔ s.ops o = .lost)
    (hfresh : s'.ops o = .fresh → s.ops o = .fresh) : Fate ((s, a) :: h) s' o := by
  have hall : allWrites ((s, a) :: h) = allWrites h := by
    cases a <;> first | rfl | cases ha
  have hcom : committedOps ((s, a) :: h) = committedOps h := by
    cases a <;> first | rfl | cases ha
  have hclosing : closing ((s, a) :: h) = closing h := by
    cases a with
    | endOp r => exact absurd rfl (hend r)
    | writeHead => cases ha
    | crash => cases ha
    | _ => rfl
  exact hf.keep hcom (durable_quiet ha) (by rw [pending_quiet ha]) (by rw [hall]) (by rw [hclosing])
    hended hlost hfresh

theorem Fate.move (hf : Fate h s o) (ha : a.quiet = true) (hend : ∀ r, a ≠ .endOp r)
    (hops : s'.ops o = s.ops o) : Fate ((s, a) :: h) s' o :=
  hf.quiet ha hend (by rw [hops]) (by rw [hops]) (by rw [hops]; exact id)

theorem Fate.finish (hf : Fate h s o) (hr : s.ops r = .running)
    (hops : s'.ops = Function.update s.ops r .ended) : Fate ((s, .endOp r) :: h) s' o := by
  by_cases hor : o = r
  · subst hor
    have hop : s'.ops o = .ended := by
      rw [hops, Function.update_self]
    cases hf with
    | committed _ _ _ h₄ => simp [hr] at h₄
    | grouped h₁ h₂ h₃ h₄ h₅ h₆ =>
      refine .grouped h₁ h₂ h₃ (fun h => ?_) (fun h => ?_) ⟨fun _ => hop, fun _ => List.mem_cons_self⟩
      · exact absurd (hop.symm.trans h) nofun
      · exact absurd (hop.symm.trans h) nofun
    | lost _ _ _ h₄ => simp [hr] at h₄
  · have hop : s'.ops o = s.ops o := by
      rw [hops, Function.update_of_ne hor]
    refine hf.keep rfl rfl rfl rfl ?_ (by rw [hop]) (by rw [hop]) (by rw [hop]; exact id)
    show o ∈ r :: closing h ↔ _
    simp [hor]

theorem Fate.record {b : Nat} {x : β} (hf : Fate h s o) (hr : s.ops r = .writing b x)
    (hops : s'.ops = Function.update s.ops r .running) : Fate ((s, .logRecord r) :: h) s' o := by
  have hpend : pending ((s, .logRecord r) :: h) = (r, b, x) :: pending h := pending_record hr
  have hall : allWrites ((s, .logRecord r) :: h) = (r, b, x) :: allWrites h := by
    simp [allWrites, recorded, hr]
  by_cases hor : r = o
  · subst hor
    have hop : s'.ops r = .running := by
      rw [hops, Function.update_self]
    cases hf with
    | committed _ _ _ h₄ => simp [hr] at h₄
    | grouped h₁ h₂ h₃ h₄ h₅ h₆ =>
      refine .grouped h₁ h₂ ?_ (fun h => ?_) (fun h => ?_) (h₆.trans ?_)
      · rw [hpend, hall, writesOf_self, writesOf_self, h₃]
      · exact absurd (hop.symm.trans h) (fun h => by cases h)
      · exact absurd (hop.symm.trans h) (fun h => by cases h)
      · simp [hop, hr]
    | lost _ _ _ h₄ => simp [hr] at h₄
  · have hop : s'.ops o = s.ops o := by
      rw [hops, Function.update_of_ne (Ne.symm hor)]
    exact hf.keep rfl rfl (by rw [hpend, writesOf_other hor]) (by rw [hall, writesOf_other hor]) Iff.rfl
      (by rw [hop]) (by rw [hop]) (by rw [hop]; exact id)

theorem Fate.commit (hf : Fate h s o) (hno : ¬ (s.ops o).Active) (hops : s'.ops = s.ops) :
    Fate ((s, .writeHead) :: h) s' o := by
  have hdur : writesOf o (durable ((s, .writeHead) :: h)) =
      writesOf o (pending h) ++ writesOf o (durable h) := writesOf_append _ _
  have hall : allWrites ((s, .writeHead) :: h) = allWrites h := rfl
  have hmem : o ∈ committedOps ((s, .writeHead) :: h) ↔ o ∈ closing h ∨ o ∈ committedOps h :=
    List.mem_append
  cases hf with
  | committed h₁ h₂ h₃ h₄ =>
    exact .committed (hmem.mpr (.inr h₁)) (by rw [hdur, h₃, hall, List.nil_append, h₂]) rfl (hops ▸ h₄)
  | grouped h₁ h₂ h₃ h₄ h₅ h₆ =>
    by_cases hend : s.ops o = .ended
    · exact .committed (hmem.mpr (.inl (h₆.mpr hend))) (by rw [hdur, h₂, List.append_nil, h₃, hall]) rfl
        (.inl (hops ▸ hend))
    · have hfresh : s.ops o = .fresh := by
        cases hop : s.ops o with
        | fresh => rfl
        | running => simp [hop] at hno
        | writing => simp [hop] at hno
        | ended => exact absurd hop hend
        | lost => exact absurd hop h₅
      have hnil := h₄ hfresh
      refine .grouped (fun h => ?_) (by rw [hdur, h₂, h₃, hnil, List.append_nil]) ?_ (fun _ => hnil) (hops ▸ h₅) ?_
      · exact (hmem.mp h).elim (fun hc => hend (h₆.mp hc)) h₁
      · exact hnil.symm
      · rw [hops]
        exact ⟨nofun, fun h => absurd h hend⟩
  | lost h₁ h₂ h₃ h₄ h₅ =>
    refine .lost (fun h => ?_) (by rw [hdur, h₃, h₂, List.append_nil]) rfl (hops ▸ h₄) nofun
    exact (hmem.mp h).elim h₅ h₁

theorem Fate.crash (hf : Fate h s o) : Fate ((s, .crash) :: h) s.crash o := by
  have hop : s.crash.ops o = (s.ops o).crash := rfl
  cases hf with
  | committed h₁ h₂ h₃ h₄ =>
    refine .committed h₁ h₂ rfl (.inr ?_)
    rcases h₄ with h₄ | h₄ <;> rw [hop, h₄] <;> rfl
  | grouped h₁ h₂ h₃ h₄ h₅ h₆ =>
    by_cases hfresh : s.ops o = .fresh
    · have hop' : s.crash.ops o = .fresh := by
        rw [hop, hfresh]
        rfl
      refine .grouped h₁ h₂ (h₄ hfresh).symm (fun _ => h₄ hfresh) (fun h => ?_) ⟨nofun, fun h => ?_⟩
      · exact absurd (hop'.symm.trans h) nofun
      · exact absurd (hop'.symm.trans h) nofun
    · refine .lost h₁ h₂ rfl ?_ nofun
      rw [hop]
      cases hs : s.ops o with
      | fresh => exact absurd hs hfresh
      | _ => rfl
  | lost h₁ h₂ h₃ h₄ h₅ =>
    refine .lost h₁ h₂ rfl ?_ nofun
    rw [hop, h₄]
    rfl

theorem Fate.step (hf : Fate h s o) (hs : OpsOk s) (ht : Log.step L s a = .ok s') :
    Fate ((s, a) :: h) s' o := by
  -- an operation that starts, or goes on to the critical section of `log_write`
  have hgo : ∀ {r x}, a.quiet = true → (∀ r, a ≠ .endOp r) → s'.ops = Function.update s.ops r x →
      (s.ops r = .fresh ∧ x = .running ∨ s.ops r = .running ∧ ∃ b y, x = .writing b y) →
      Fate ((s, a) :: h) s' o := by
    intro r x ha hend hops hcase
    by_cases hor : o = r
    · subst hor
      have hop : s'.ops o = x := by
        rw [hops, Function.update_self]
      refine hf.quiet ha hend ?_ ?_ ?_ <;> rw [hop] <;>
        rcases hcase with ⟨h₁, rfl⟩ | ⟨h₁, b, y, rfl⟩ <;> simp [h₁]
    · exact hf.move ha hend (by rw [hops, Function.update_of_ne hor])
  cases a with
  | bread b =>
    obtain ⟨l, -, rfl⟩ := stepBread_ok ht
    exact hf.move rfl nofun rfl
  | brelse b =>
    obtain ⟨-, rfl⟩ := stepBrelse_ok ht
    exact hf.move rfl nofun rfl
  | beginOp r =>
    obtain ⟨hop, -, -, -, rfl⟩ := beginOp_ok ht
    exact hgo rfl nofun rfl (.inl ⟨hop, rfl⟩)
  | logWrite r b x =>
    obtain ⟨hop, -, -, -, -, -, rfl⟩ := logWrite_ok ht
    exact hgo rfl nofun rfl (.inr ⟨hop, b, x, rfl⟩)
  | logRecord r =>
    obtain ⟨b, x, hop, -, rfl⟩ := logRecord_ok ht
    exact hf.record hop rfl
  | endOp r =>
    obtain ⟨hop, -, ⟨-, rfl⟩ | ⟨-, rfl⟩⟩ := endOp_ok ht
    · exact hf.finish hop rfl
    · exact hf.finish hop rfl
  | writeLog =>
    obtain ⟨tail, b, l, l', -, -, -, -, rfl⟩ := writeLog_ok ht
    exact hf.move rfl nofun rfl
  | writeHead =>
    obtain ⟨hpc, l, -, rfl⟩ := writeHead_ok ht
    refine hf.commit (fun hact => ?_) rfl
    rw [hs.pc_idle hact] at hpc
    cases hpc
  | install =>
    obtain ⟨tail, -, ht⟩ := install_ok ht
    obtain ⟨b, l, l', -, -, -, rfl⟩ := install_eq_ok ht
    exact hf.move rfl nofun rfl
  | clear =>
    obtain ⟨-, l, -, rfl⟩ := clear_ok ht
    exact hf.move rfl nofun rfl
  | endCommit =>
    obtain ⟨-, rfl⟩ := ok_of_ite ht
    exact hf.move rfl nofun rfl
  | crash =>
    cases ht
    exact hf.crash
  | readHead =>
    obtain ⟨-, l, -, rfl⟩ := readHead_ok ht
    exact hf.move rfl nofun rfl
  | reinstall =>
    obtain ⟨tail, -, ht⟩ := reinstall_ok ht
    obtain ⟨b, l, l', -, -, -, rfl⟩ := install_eq_ok ht
    exact hf.move rfl nofun rfl
  | reclear =>
    obtain ⟨-, l, -, rfl⟩ := reclear_ok ht
    exact hf.move rfl nofun rfl

/-! ## Runs -/

theorem LRun.fate (hr : LRun L d h s) (o : ι) : Fate h s o := by
  induction hr with
  | start => exact .grouped nofun rfl rfl (fun _ => rfl) nofun ⟨nofun, nofun⟩
  | next hr ht ih => exact ih.step (LRun.opsOk hr) ht

theorem LRun.recovered_idle (hr : LRun L d h s) (hdone : recovered h = true) :
    s.pc = .idle ∧ s.lh = [] ∧ s.disk.head = [] := by
  cases hr with
  | start => cases hdone
  | @next h s₀ _ a _ ht =>
    cases a with
    | reclear =>
      obtain ⟨-, l, -, rfl⟩ := reclear_ok ht
      exact ⟨rfl, rfl, rfl⟩
    | _ => cases hdone

theorem recovery_again {w : List (Event ι β)} (hlh : s.lh = []) (hhead : s.disk.head = [])
    (hw : Run (Log.step L) s w s') (hrec : Always (fun _ a => a.recovery = true) w) : s'.disk = s.disk := by
  suffices hI : s'.disk = s.disk ∧ s'.lh = [] from hI.1
  refine hw.induct_of (I := fun t => t.disk = s.disk ∧ t.lh = []) hrec ⟨rfl, hlh⟩ ?_
  rintro t a t' ⟨hdisk, hnil⟩ ha ht
  cases a with
  | crash =>
    cases ht
    exact ⟨hdisk, rfl⟩
  | readHead =>
    obtain ⟨-, l, -, rfl⟩ := readHead_ok ht
    exact ⟨hdisk, by show t.disk.head = []; rw [hdisk, hhead]⟩
  | reinstall =>
    obtain ⟨tail, -, ht⟩ := reinstall_ok ht
    obtain ⟨b, l, l', hb, -⟩ := install_eq_ok ht
    rw [hnil] at hb
    cases hb
  | reclear =>
    obtain ⟨-, l, -, rfl⟩ := reclear_ok ht
    refine ⟨?_, rfl⟩
    show (⟨[], t.disk.block⟩ : Disk β) = s.disk
    rw [hdisk, ← hhead]
  | _ => cases ha

/-- **Crash atomicity.** In every run, with any number of operations and with crashes anywhere: after a
completed recovery the home blocks are what the groups make of them whose commit header has reached the
disk; an operation of such a group is wholly present, every other operation is wholly absent; and crashes
and recoveries from here on change nothing. -/
theorem crash_atomic (hL : LOGSIZE ≤ L.size) (hr : LRun L d h s) (hdone : recovered h = true) :
    (∀ b, L.Home b → s.disk.block b = replay d (durable h) b) ∧
    (∀ o, (o ∈ committedOps h → writesOf o (durable h) = writesOf o (allWrites h)) ∧
      (o ∉ committedOps h → writesOf o (durable h) = [])) ∧
    ∀ w s', Run (Log.step L) s w s' → Always (fun _ a => a.recovery = true) w → s'.disk = s.disk := by
  obtain ⟨hidle, hlh, hhead⟩ := hr.recovered_idle hdone
  refine ⟨fun b hb => ?_, fun o => ?_, fun w s' => recovery_again hlh hhead⟩
  · cases (hr.sound hL).stage with
    | collecting _ _ _ hdisk => exact hdisk b hb nofun
    | installing _ h₁ => simp [hidle] at h₁
    | committed h₁ => simp [hidle] at h₁
    | crashed h₁ => simp [hidle] at h₁
  · cases hr.fate o with
    | committed hmem hall => exact ⟨fun _ => hall, fun hn => absurd hmem hn⟩
    | grouped hmem hnone => exact ⟨fun hm => absurd hm hmem, fun _ => hnone⟩
    | lost hmem hnone => exact ⟨fun hm => absurd hm hmem, fun _ => hnone⟩

def logActs (o : ι) (bs : List Nat) (x : β) : List (Act ι β) :=
  bs.flatMap fun b => [.bread b, .logWrite o b x, .logRecord o, .brelse b]

/-- Two operations of one group, a crash right after the commit point and another one during the recovery;
then a third operation that is lost in a crash. -/
theorem crash_atomic_group : ∃ (h : List (Event (Fin 3) Bool)) (s : State (Fin 3) Bool),
    LRun mkfs (fun _ => false) h s ∧ recovered h = true ∧ committedOps h = [1, 0] ∧
    s.disk.block 100 = true ∧ s.disk.block 101 = true ∧ s.disk.block 102 = false ∧
    writesOf 0 (durable h) = [(100, true)] ∧ writesOf 2 (durable h) = [] := by
  obtain ⟨h, s, hr, hdone, hcom, h0, h100, h101, h102⟩ := exists_run_of_exec
    (α := Act (Fin 3) Bool) (step mkfs) (start fun _ => false)
    (P := fun h s => recovered h = true ∧ committedOps h = [1, 0] ∧
      writesOf 0 (allWrites h) = [(100, true)] ∧ replay (fun _ => false) (durable h) 100 = true ∧
      replay (fun _ => false) (durable h) 101 = true ∧ replay (fun _ => false) (durable h) 102 = false)
    (List.flatten [[.readHead, .reclear, .beginOp 0, .beginOp 1], logActs 0 [100] true,
      logActs 1 [101] true,
      [.endOp 0, .endOp 1, .writeLog, .writeLog, .writeHead, .crash, .readHead, .reinstall, .crash,
        .readHead, .reinstall, .reinstall, .reclear, .beginOp 2],
      logActs 2 [102] true, [.crash, .readHead, .reclear]]) (by decide +kernel)
  obtain ⟨hdisk, hops, -⟩ := crash_atomic (L := mkfs) (le_refl LOGSIZE) hr hdone
  have hhome : ∀ b, 100 ≤ b → mkfs.Home b := fun b hb => .inr (by simp only [mkfs, LOGSIZE, MAXOPBLOCKS]; omega)
  refine ⟨h, s, hr, hdone, hcom, ?_, ?_, ?_, ?_, ?_⟩
  · rw [hdisk 100 (hhome 100 (by decide)), h100]
  · rw [hdisk 101 (hhome 101 (by decide)), h101]
  · rw [hdisk 102 (hhome 102 (by decide)), h102]
  · rw [(hops 0).1 (by simp [hcom]), h0]
  · exact (hops 2).2 (by simp [hcom])

-- A log of 20 blocks is overrun: its area has room for 19 copies, two operations log 20 blocks, and `write_log` copies the
-- last one to home block 22. A crash there, before the commit header.
example : ∃ (h : List (Event (Fin 2) Bool)) (s : State (Fin 2) Bool), LRun ⟨2, 20⟩ (fun _ => false) h s ∧
    recovered h = true ∧ committedOps h = [] ∧ s.disk.block 22 ≠ replay (fun _ => false) (durable h) 22 :=
  exists_run_of_exec (step ⟨2, 20⟩) (start fun _ => false)
    (P := fun h s => recovered h = true ∧ committedOps h = [] ∧
      s.disk.block 22 ≠ replay (fun _ => false) (durable h) 22)
    (List.flatten [[.readHead, .reclear, .beginOp 0, .beginOp 1],
      logActs 0 [100, 101, 102, 103, 104, 105, 106, 107, 108] true,
      logActs 1 [110, 111, 112, 113, 114, 115, 116, 117, 118] true,
      [.bread 109, .bread 119, .logWrite 0 109 true, .logWrite 1 119 true, .logRecord 0, .logRecord 1,
        .endOp 0, .endOp 1],
      List.replicate 20 .writeLog, [.crash, .readHead, .reclear]])
    (by decide +kernel)

end Xv6Mlfq.Log
