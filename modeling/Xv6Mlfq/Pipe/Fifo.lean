import Xv6Mlfq.Pipe.Step

/-!
# A pipe is a first-in first-out channel

`stored` and `returned` read off a history the bytes that writers stored and the bytes that reads returned,
each in order; the bytes of a read that is not over yet are in its hands (`inHand`), and it holds `p->lock`.
One step adds what it stores at the end of the ring and takes what it copies from its front
(`Step.contents`), whatever the counters are.
-/

namespace Xv6Mlfq.Pipe

open Lib

variable {ι : Type} [DecidableEq ι] {w w' : World ι} {a : PAct ι} {h : List (PEvent ι)}
  {data : Fin PIPESIZE → UInt8}

/-! ## The bytes that pass -/

/-- The byte that a pass of the loop of `pipewrite` stores. -/
def storedBy (w : World ι) : PAct ι → List UInt8
  | .go t =>
    match (w.proc t).pc with
    | .at (.write addr i) .test => if w.pipe.Full then [] else addr[i]?.toList
    | _ => []
  | _ => []

/-- The byte that a pass of the loop of `piperead` copies. -/
def takenBy (w : World ι) : PAct ι → List UInt8
  | .go t =>
    match (w.proc t).pc with
    | .at (.read n addr) .copy => if addr.length < n ∧ ¬ w.pipe.Empty then [w.pipe.front] else []
    | _ => []
  | _ => []

/-- The bytes that a read returns when it releases the lock. -/
def returnedBy (w : World ι) : PAct ι → List UInt8
  | .go t =>
    match (w.proc t).pc with
    | .at (.read _ addr) (.leave _) => addr
    | _ => []
  | _ => []

/-- The bytes stored by writers, in the order stored. -/
def stored : List (PEvent ι) → List UInt8
  | [] => []
  | (w, a) :: h => stored h ++ storedBy w a

/-- The bytes returned by reads, in the order returned. -/
def returned : List (PEvent ι) → List UInt8
  | [] => []
  | (w, a) :: h => returned h ++ returnedBy w a

/-- The bytes that a process has read and not returned. -/
def Pc.inHand : Pc → List UInt8
  | .out => []
  | .at c _ => c.bytes

/-- The bytes of the read that holds `p->lock`. -/
def inHand (w : World ι) : List UInt8 :=
  match w.lock with
  | some t => (w.proc t).pc.inHand
  | none => []

/-! ## One step -/

theorem PIPESIZE_dvd : PIPESIZE ∣ 2 ^ 32 := ⟨2 ^ 23, by norm_num⟩

theorem Full_iff {p : Pipe} : p.Full ↔ p.size = PIPESIZE := Ring.full_iff (by norm_num)

/-- What is in the ring and what comes in is what goes out and what is in the ring then. -/
theorem Step.contents (h : Step w a w') (hsize : w.pipe.size ≤ PIPESIZE) :
    w.pipe.contents ++ storedBy w a = takenBy w a ++ w'.pipe.contents ∧ w'.pipe.size ≤ PIPESIZE := by
  cases h with
  | @store t addr i b hpc hi hfull =>
    have hlt : w.pipe.size < PIPESIZE := lt_of_le_of_ne hsize fun heq => hfull (Full_iff.mpr heq)
    have hpush : (w.pipe.push b).contents = w.pipe.contents ++ [b] :=
      Ring.contents_push PIPESIZE_dvd (by norm_num) hlt
    refine ⟨?_, ?_⟩
    · simp [storedBy, takenBy, hpc, hi, hfull, World.goto, hpush]
    · show (w.pipe.push b).size ≤ PIPESIZE
      have hsize : w.pipe.size < 512 := hlt
      rw [Ring.size_push (by omega)]
      exact hlt
  | @take t n addr hpc hlen hempty =>
    have hpos : 0 < w.pipe.size := Nat.pos_of_ne_zero fun h0 => hempty (Ring.empty_iff.mpr h0)
    refine ⟨?_, ?_⟩
    · simp [storedBy, takenBy, hpc, hlen, hempty, World.goto, Ring.contents_pop hpos]
    · show w.pipe.pop.size ≤ PIPESIZE
      have := Ring.size_pop hpos
      omega
  | stored hpc hi => exact ⟨by simp [storedBy, takenBy, hpc, hi, World.goto], hsize⟩
  | giveUp hpc hi hfull => exact ⟨by simp [storedBy, takenBy, hpc, hfull, World.goto], hsize⟩
  | full hpc hi hfull => exact ⟨by simp [storedBy, takenBy, hpc, hfull, World.goto], hsize⟩
  | taken hpc hend => exact ⟨by simp [storedBy, takenBy, hpc, World.goto, if_neg hend], hsize⟩
  | write => exact ⟨by simp [storedBy, takenBy, World.goto], hsize⟩
  | read => exact ⟨by simp [storedBy, takenBy, World.goto], hsize⟩
  | close => exact ⟨by simp [storedBy, takenBy, World.goto], hsize⟩
  | run => exact ⟨by simp [storedBy, takenBy], hsize⟩
  | kill => exact ⟨by simp [storedBy, takenBy, World.kill], hsize⟩
  | enter hpc => exact ⟨by simp [storedBy, takenBy, hpc, World.goto], hsize⟩
  | quit hpc => exact ⟨by simp [storedBy, takenBy, hpc, World.goto], hsize⟩
  | empty hpc => exact ⟨by simp [storedBy, takenBy, hpc, World.goto], hsize⟩
  | copy hpc => exact ⟨by simp [storedBy, takenBy, hpc, World.goto], hsize⟩
  | closeWrite hpc => exact ⟨by simp [storedBy, takenBy, hpc, World.goto], hsize⟩
  | closeRead hpc => exact ⟨by simp [storedBy, takenBy, hpc, World.goto], hsize⟩
  | wakeFull hpc => exact ⟨by simp [storedBy, takenBy, hpc, World.goto, World.wakeup1], hsize⟩
  | sleep hpc => exact ⟨by simp [storedBy, takenBy, hpc, World.goto], hsize⟩
  | hand hpc => exact ⟨by simp [storedBy, takenBy, hpc, World.goto], hsize⟩
  | down hpc => exact ⟨by simp [storedBy, takenBy, hpc], hsize⟩
  | woken hpc => exact ⟨by simp [storedBy, takenBy, hpc], hsize⟩
  | wakeEnd hpc => exact ⟨by simp [storedBy, takenBy, hpc, World.goto, World.wakeup1], hsize⟩
  | leave hpc => exact ⟨by simp [storedBy, takenBy, hpc], hsize⟩

/-- What a read has in hand and what it copies is what it returns and what it has in hand then. -/
theorem Step.inHand_proc (h : Step w a w') :
    (w.proc a.proc).pc.inHand ++ takenBy w a = returnedBy w a ++ (w'.proc a.proc).pc.inHand := by
  cases h with
  | @take t n addr hpc hlen hempty =>
    simp [takenBy, returnedBy, PAct.proc, hpc, hlen, hempty, World.goto, Pc.inHand, Call.bytes]
  | taken hpc hend => simp [takenBy, returnedBy, PAct.proc, hpc, World.goto, Pc.inHand, if_neg hend]
  | @leave t c r freed hpc =>
    cases c <;> simp [takenBy, returnedBy, PAct.proc, hpc, Pc.inHand, Call.bytes]
  | write hpc => simp [takenBy, returnedBy, PAct.proc, hpc, World.goto, Pc.inHand, Call.bytes]
  | read hpc => simp [takenBy, returnedBy, PAct.proc, hpc, World.goto, Pc.inHand, Call.bytes]
  | close hpc => simp [takenBy, returnedBy, PAct.proc, hpc, World.goto, Pc.inHand, Call.bytes]
  | run hpc => simp [takenBy, returnedBy, PAct.proc, hpc, Pc.inHand]
  | kill => simp [takenBy, returnedBy, PAct.proc, World.kill]
  | wakeFull hpc => simp [takenBy, returnedBy, PAct.proc, hpc, World.goto, Pc.inHand]
  | wakeEnd hpc => simp [takenBy, returnedBy, PAct.proc, hpc, World.goto, Pc.inHand]
  | down hpc => simp [takenBy, returnedBy, PAct.proc, hpc, Pc.inHand]
  | woken hpc => simp [takenBy, returnedBy, PAct.proc, hpc, Pc.inHand]
  | enter hpc => simp [takenBy, returnedBy, PAct.proc, hpc, World.goto, Pc.inHand]
  | stored hpc => simp [takenBy, returnedBy, PAct.proc, hpc, World.goto, Pc.inHand]
  | giveUp hpc => simp [takenBy, returnedBy, PAct.proc, hpc, World.goto, Pc.inHand]
  | full hpc => simp [takenBy, returnedBy, PAct.proc, hpc, World.goto, Pc.inHand]
  | store hpc => simp [takenBy, returnedBy, PAct.proc, hpc, World.goto, Pc.inHand, Call.bytes]
  | quit hpc => simp [takenBy, returnedBy, PAct.proc, hpc, World.goto, Pc.inHand]
  | empty hpc => simp [takenBy, returnedBy, PAct.proc, hpc, World.goto, Pc.inHand]
  | copy hpc => simp [takenBy, returnedBy, PAct.proc, hpc, World.goto, Pc.inHand]
  | closeWrite hpc => simp [takenBy, returnedBy, PAct.proc, hpc, World.goto, Pc.inHand]
  | closeRead hpc => simp [takenBy, returnedBy, PAct.proc, hpc, World.goto, Pc.inHand]
  | sleep hpc => simp [takenBy, returnedBy, PAct.proc, hpc, World.goto, Pc.inHand]
  | hand hpc => simp [takenBy, returnedBy, PAct.proc, hpc, World.goto, Pc.inHand]

omit [DecidableEq ι] in
theorem takenBy_of_not (h : (w.proc a.proc).pc.holdsLock = false) : takenBy w a = [] := by
  cases a with
  | go t =>
    simp only [takenBy]
    split
    · rename_i hpc
      simp [PAct.proc, hpc, Pc.holdsLock] at h
    · rfl
  | _ => rfl

omit [DecidableEq ι] in
theorem returnedBy_of_not (h : (w.proc a.proc).pc.holdsLock = false) : returnedBy w a = [] := by
  cases a with
  | go t =>
    simp only [returnedBy]
    split
    · rename_i hpc
      simp [PAct.proc, hpc, Pc.holdsLock] at h
    · rfl
  | _ => rfl

theorem Pc.Fresh.inHand {x : Pc} (hf : x.Fresh) (hx : x.holdsLock = false) : x.inHand = [] := by
  cases x with
  | out => rfl
  | «at» c l =>
    apply hf
    cases l <;> first | rfl | cases hx

omit [DecidableEq ι] in
theorem inHand_some {t : ι} (hl : w.lock = some t) : inHand w = (w.proc t).pc.inHand := by
  simp [inHand, hl]

omit [DecidableEq ι] in
theorem inHand_none (hl : w.lock = none) : inHand w = [] := by
  simp [inHand, hl]

theorem Step.inHand (h : Step w a w') (hw : Locked w) (hf : ∀ t, (w.proc t).pc.Fresh) :
    inHand w ++ takenBy w a = returnedBy w a ++ inHand w' := by
  obtain ⟨y, hm⟩ := h.moves
  have hproc := h.inHand_proc
  have hself : (w'.proc a.proc).pc = y := by rw [hm.pc, if_pos rfl]
  rw [hself] at hproc
  rcases hm.lock.cases with ⟨hlock, hy⟩ | ⟨hnone, hsome, -⟩ | ⟨hnone, hx, hy⟩
  · cases hx : (w.proc a.proc).pc.holdsLock with
    | true =>
      have hheld := (hw.lock _).mpr hx
      rw [inHand_some hheld, inHand_some (hlock.trans hheld), hself, hproc]
    | false =>
      -- the step is not in a section of the lock, and the process in it does nothing
      rw [takenBy_of_not hx, returnedBy_of_not hx, List.append_nil, List.nil_append]
      cases hl : w.lock with
      | none => rw [inHand_none hl, inHand_none (hlock.trans hl)]
      | some s =>
        have hne : s ≠ a.proc := fun heq => by
          have hheld := (hw.lock s).mp hl
          rw [heq, hx] at hheld
          cases hheld
        rw [inHand_some hl, inHand_some (hlock.trans hl), hm.pc, if_neg hne]
  · have hx : (w.proc a.proc).pc.holdsLock = false := by
      rw [← Bool.not_eq_true, ← hw.lock, hnone]
      simp
    rw [takenBy_of_not hx, returnedBy_of_not hx] at hproc ⊢
    rw [inHand_none hnone, inHand_some hsome, hself]
    rw [List.append_nil, List.nil_append] at hproc
    simp [← hproc, (hf _).inHand hx]
  · rw [inHand_some ((hw.lock _).mpr hx), inHand_none hnone, hproc, (hm.fresh (hf _)).inHand hy]

/-! ## Runs -/

structure Flows (h : List (PEvent ι)) (w : World ι) : Prop where
  locked : Locked w
  fresh : ∀ t, (w.proc t).pc.Fresh
  size : w.pipe.size ≤ PIPESIZE
  bytes : stored h = returned h ++ (inHand w ++ w.pipe.contents)

theorem PRun.flows (hr : PRun data h w) : Flows h w := by
  induction hr with
  | start =>
    have hempty : (pipealloc data : World ι).pipe.size = 0 := by simp [pipealloc, Ring.size]
    refine ⟨locked_pipealloc data, fun _ => trivial, by rw [hempty]; exact Nat.zero_le _, ?_⟩
    rw [inHand_none rfl, Ring.contents, hempty]
    rfl
  | @next h w w' a hr hs ih =>
    have hstep := pstep_step hs
    obtain ⟨hcontents, hsize⟩ := hstep.contents ih.size
    refine ⟨hstep.locked ih.locked, hstep.fresh ih.fresh, hsize, ?_⟩
    calc stored h ++ storedBy w a
        = returned h ++ (inHand w ++ (w.pipe.contents ++ storedBy w a)) := by simp [ih.bytes]
      _ = returned h ++ ((inHand w ++ takenBy w a) ++ w'.pipe.contents) := by simp [hcontents]
      _ = returned h ++ returnedBy w a ++ (inHand w' ++ w'.pipe.contents) := by
        simp [hstep.inHand ih.locked ih.fresh]

/-- **Pipes are exact.** At every point the bytes returned are a prefix of the bytes stored; while the lock is
free the rest is what the ring holds; and the counters are at most `PIPESIZE` apart, modulo `2 ^ 32`. -/
theorem pipe_fifo (hr : PRun data h w) :
    returned h <+: stored h ∧
    (w.lock = none → stored h = returned h ++ w.pipe.contents) ∧
    (w.pipe.nwrite - w.pipe.nread).toNat ≤ PIPESIZE := by
  have hflows := PRun.flows hr
  refine ⟨⟨_, hflows.bytes.symm⟩, fun hlock => ?_, hflows.size⟩
  rw [hflows.bytes, inHand_none hlock, List.nil_append]

/-- Two bytes written and one read. -/
theorem pipe_fifo_one : ∃ (h : List (PEvent (Fin 2))) (w : World (Fin 2)), PRun (fun _ => 0) h w ∧
    (stored h = [1, 2] ∧ returned h = [1]) ∧ w.pipe.contents = [2] := by
  obtain ⟨h, w, hr, hs, hret, hlock⟩ := exists_run_of_exec pstep (pipealloc fun _ => 0 : World (Fin 2))
    (P := fun h w => stored h = [1, 2] ∧ returned h = [1] ∧ w.lock = none)
    (List.flatten [[.write 0 [1, 2]], List.replicate 6 (.go 0), [.read 1 1], List.replicate 6 (.go 1)])
    (by decide +kernel)
  have hrest := (pipe_fifo hr).2.1 hlock
  rw [hs, hret] at hrest
  exact ⟨h, w, hr, ⟨hs, hret⟩, (List.cons.inj hrest).2.symm⟩

end Xv6Mlfq.Pipe
