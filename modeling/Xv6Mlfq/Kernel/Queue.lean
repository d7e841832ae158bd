import Xv6Mlfq.Kernel.Types

/-!
# Run queues and MLFQ logic (proc.c)

The functions of proc.c that work on the four run queues, translated statement by statement, with
`ticks` as an argument. The two loops along `next` (`add_to_queue`, `check_aging`) carry a bound on
the number of steps; running out of it is `Stop.spin`, the loop that never ends. Debug output
(`DEBUG`) changes no state and is left out.
-/

namespace Xv6Mlfq

def timeQuantum : Level → Int32 := ![10, 20, 40, 80]

/-- The body of the loop of `update_all_proc_timers` for one process. -/
def updateProcTimers (x : Proc) : Proc :=
  if x.pid = 0 then x
  else match x.state with
    | .running => { x with cpuBurst := x.cpuBurst + 1, totalCpuTime := x.totalCpuTime + 1 }
    | .runnable => { x with cpuWait := x.cpuWait + 1 }
    | .sleeping => { x with ioWaitTime := x.ioWaitTime + 1 }
    | _ => x

/-- `update_all_proc_timers`: each pass of the loop reads and writes its own process only. -/
def updateAllProcTimers (t : Ptable) : Ptable :=
  { t with proc := fun p => updateProcTimers (t.proc p) }

def initQeueus (t : Ptable) : Ptable :=
  { t with queues := fun _ => ⟨none, none⟩ }

def pIsHigher (p curr : Proc) : Bool :=
  p.ioWaitTime > curr.ioWaitTime ||
    (p.ioWaitTime == curr.ioWaitTime && p.queueEntryTime > curr.queueEntryTime)

/-- Link `p` in before `curr` (the branch `p_is_higher` of `add_to_queue`). -/
def insertBefore (t : Ptable) (p : PIdx) (l : Level) (curr : PIdx) : Ptable :=
  let before := (t.proc curr).prev
  let t := t.modify p fun x => { x with next := some curr, prev := before }
  let t := match before with
    | some a => t.modify a fun x => { x with next := some p }
    | none => t.setHead l (some p)
  t.modify curr fun x => { x with prev := some p }

/-- Link `p` in after the last process of a queue that is not empty. -/
def insertTail (t : Ptable) (p : PIdx) (l : Level) : Except Stop Ptable :=
  match (t.queues l).tail with
  | none => .error .nullDeref
  | some a =>
    let t := t.modify a fun x => { x with next := some p }
    let t := t.modify p fun x => { x with prev := some a }
    .ok (t.setTail l (some p))

/-- The loop of `add_to_queue` from `curr` on, and the insertion at the tail after it. -/
def addToQueueLoop (p : PIdx) (l : Level) : Nat → Option PIdx → Ptable → Except Stop Ptable
  | _, none, t => insertTail t p l
  | 0, some _, _ => .error .spin
  | n + 1, some curr, t =>
    if pIsHigher (t.proc p) (t.proc curr) then .ok (insertBefore t p l curr)
    else addToQueueLoop p l n (t.proc curr).next t

def addToQueue (ticks : UInt32) (t : Ptable) (p : PIdx) (level : Int32) : Except Stop Ptable :=
  match levelOf level with
  | none => .error (.panic "invalid queue level")
  | some l =>
    let t := t.modify p fun x =>
      { x with qLevel := level, queueEntryTime := ticks, next := none, prev := none }
    match (t.queues l).head with
    | none => .ok ((t.setHead l (some p)).setTail l (some p))
    | some h => addToQueueLoop p l NPROC (some h) t

/-- Link the neighbours of `p` in queue `l` to each other and clear the links of `p` (the end of
`remove_from_queue`). -/
def unlinkProc (t : Ptable) (p : PIdx) (l : Level) : Ptable :=
  let x := t.proc p
  let t := match x.prev with
    | some a => t.modify a fun y => { y with next := x.next }
    | none => t.setHead l x.next
  let t := match x.next with
    | some b => t.modify b fun y => { y with prev := x.prev }
    | none => t.setTail l x.prev
  t.modify p fun y => { y with next := none, prev := none }

/-- `remove_from_queue`. Either the test for a process on no queue or the assignment of `q` indexes
`queues` by `p->q_level`, on every path. -/
def removeFromQueue (t : Ptable) (p : PIdx) : Except Stop Ptable := do
  let l ← index .queues (t.proc p).qLevel
  if (t.proc p).prev = none ∧ (t.proc p).next = none ∧ (t.queues l).head ≠ some p then
    return t
  return unlinkProc t p l

def getNextProc (t : Ptable) : Option PIdx :=
  (List.finRange 4).findSome? fun l => (t.queues l).head

def demoteProcess (x : Proc) : Proc :=
  if x.type = .init ∨ x.type = .shell then x
  else if x.qLevel = 3 then { x with cpuBurst := 0 }
  else { x with qLevel := x.qLevel + 1, cpuBurst := 0, cpuWait := 0, ioWaitTime := 0 }

def promoteProcess (ticks : UInt32) (t : Ptable) (p : PIdx) : Except Stop Ptable :=
  if (t.proc p).type = .init ∨ (t.proc p).type = .shell ∨ (t.proc p).qLevel = 0 then .ok t
  else do
    let t ← removeFromQueue t p
    let t := t.modify p fun x => { x with qLevel := x.qLevel - 1, cpuWait := 0, cpuBurst := 0 }
    addToQueue ticks t p (t.proc p).qLevel

/-- The body of the inner loop of `check_aging`. -/
def checkAgingProc (ticks : UInt32) (t : Ptable) (tmp : PIdx) : Except Stop Ptable :=
  if (t.proc tmp).cpuWait ≥ 250 then promoteProcess ticks t tmp else .ok t

/-- The inner loop of `check_aging` from `tmp` on. -/
def checkAgingLoop (ticks : UInt32) : Nat → Option PIdx → Ptable → Except Stop Ptable
  | _, none, t => .ok t
  | 0, some _, _ => .error .spin
  | n + 1, some tmp, t => do
    -- `tmp->next` is read before `tmp` may move to another queue
    let nextProc := (t.proc tmp).next
    let t ← checkAgingProc ticks t tmp
    checkAgingLoop ticks n nextProc t

def checkAgingLevel (ticks : UInt32) (t : Ptable) (l : Level) : Except Stop Ptable :=
  checkAgingLoop ticks NPROC (t.queues l).head t

def checkAging (ticks : UInt32) (t : Ptable) : Except Stop Ptable :=
  (List.finRange 4).tail.foldlM (checkAgingLevel ticks) t

def checkTimeQuantum (t : Ptable) (p : PIdx) : Except Stop Ptable := do
  let l ← index .timeQuantum (t.proc p).qLevel
  if (t.proc p).cpuBurst ≥ timeQuantum l then
    return t.modify p demoteProcess
  return t

end Xv6Mlfq
