import Xv6Mlfq.Lib.Ring
import Xv6Mlfq.Lib.Run

/-!
# Pipes (pipe.c, with sleep, wakeup and kill of proc.c)

One pipe and the processes that use it. A step is what other processes can see: taking and releasing
`p->lock`, one pass of a loop under it, a section of `ptable.lock`. In `sleep`, which hands one lock over to
the other, the two locks are taken and released in steps of their own. A process takes steps while it is
running; `wakeup` and `kill` make it runnable, and `run` is the scheduler that switches to it.

A call on a pipe whose page is freed has no next step: the descriptor that a call runs on keeps the end
open.
-/

namespace Xv6Mlfq

open Lib

abbrev PIPESIZE : Nat := 512

instance neZeroPIPESIZE : NeZero PIPESIZE := ⟨by decide⟩

structure Pipe extends Ring PIPESIZE UInt8 where
  readopen : Bool
  writeopen : Bool

namespace Pipe

/-- The channels `&p->nread` and `&p->nwrite`. -/
inductive Chan where
  | nread
  | nwrite
  deriving DecidableEq, Repr

/-- `pipewrite(p, addr, n)` with `n` bytes at `addr`, of which the first `i` are stored; `piperead(p, addr, n)`
with the bytes read so far at `addr`; `pipeclose(p, writable)`. -/
inductive Call where
  | write (addr : List UInt8) (i : Nat)
  | read (n : Nat) (addr : List UInt8)
  | close (writable : Bool)
  deriving DecidableEq, Repr

inductive Place where
  /-- Before `acquire(&p->lock)`, at the start or at the end of `sleep`. -/
  | enter
  /-- At the test of the loop, or at the first write of `pipeclose`. -/
  | test
  /-- In the second loop of `piperead`. -/
  | copy
  /-- Before `wakeup(&p->nread)` on a full pipe. -/
  | wakeFull
  /-- Before `acquire(&ptable.lock)` in `sleep`. -/
  | sleep
  /-- Before `release(lk)`, with both locks. -/
  | hand
  /-- Before `p->state = SLEEPING`, with `ptable.lock`. -/
  | down
  /-- In `sched`. -/
  | asleep
  /-- After `sched`, with `ptable.lock`. -/
  | woken
  /-- Before the `wakeup` at the end of the call. -/
  | wakeEnd
  /-- Before `release(&p->lock)` and the return of `r`. -/
  | leave (r : Int)
  deriving DecidableEq, Repr

/-- Outside of the pipe, or at a place in a call. -/
inductive Pc where
  | out
  | at (c : Call) (l : Place)
  deriving DecidableEq, Repr

inductive PState where
  | running
  | runnable
  | sleeping
  deriving DecidableEq, Repr

structure Proc where
  pc : Pc
  state : PState
  chan : Option Chan
  killed : Bool
  deriving DecidableEq, Repr

/-- The pipe, the holders of `p->lock` and `ptable.lock`, the processes, and whether the page is freed. -/
structure World (ι : Type) where
  pipe : Pipe
  lock : Option ι
  ptable : Option ι
  proc : ι → Proc
  freed : Bool

/-- A process begins a call, goes on in it, is switched to, or is killed. -/
inductive PAct (ι : Type) where
  | write (t : ι) (addr : List UInt8)
  | read (t : ι) (n : Nat)
  | close (t : ι) (writable : Bool)
  | go (t : ι)
  | run (t : ι)
  | kill (t : ι)
  deriving DecidableEq, Repr

inductive Blocked where
  | blocked

/-- The channel that a call sleeps on, if it does. -/
def Call.chan : Call → Option Chan
  | .write _ _ => some .nwrite
  | .read _ _ => some .nread
  | .close _ => none

/-- The channel that a call wakes up at its end. -/
def Call.wakes : Call → Chan
  | .write _ _ => .nread
  | .read _ _ => .nwrite
  | .close writable => if writable then .nread else .nwrite

def Call.result : Call → Int
  | .write addr _ => addr.length
  | .read _ addr => addr.length
  | .close _ => 0

variable {ι : Type} [DecidableEq ι]

namespace World

/-- Process `t` goes on at the place `l` of the call `c`. -/
def goto (w : World ι) (t : ι) (c : Call) (l : Place) : World ι :=
  { w with proc := Function.update w.proc t { w.proc t with pc := .at c l } }

def wakeup1 (w : World ι) (chan : Chan) : World ι :=
  { w with proc := fun t =>
      if (w.proc t).state = .sleeping ∧ (w.proc t).chan = some chan then { w.proc t with state := .runnable }
      else w.proc t }

/-- `kill`, for the process that has the pid. -/
def kill (w : World ι) (t : ι) : World ι :=
  { w with proc := Function.update w.proc t { w.proc t with
      killed := true
      state := if (w.proc t).state = .sleeping then .runnable else (w.proc t).state } }

/-- One pass of the loop of `pipewrite`, the test of the loop of `piperead`, or the write of `pipeclose`. -/
def test (w : World ι) (t : ι) (c : Call) : World ι :=
  match c with
  | .write addr i =>
    match addr[i]? with
    | none => w.goto t c .wakeEnd
    | some b =>
      if w.pipe.Full then
        if w.pipe.readopen = false ∨ (w.proc t).killed then w.goto t c (.leave (-1)) else w.goto t c .wakeFull
      else { w with pipe := { w.pipe with toRing := w.pipe.push b } }.goto t (.write addr (i + 1)) .test
  | .read _ _ =>
    if w.pipe.Empty ∧ w.pipe.writeopen then
      if (w.proc t).killed then w.goto t c (.leave (-1)) else w.goto t c .sleep
    else w.goto t c .copy
  | .close true => { w with pipe := { w.pipe with writeopen := false } }.goto t c .wakeEnd
  | .close false => { w with pipe := { w.pipe with readopen := false } }.goto t c .wakeEnd

/-- One pass of the second loop of `piperead`. -/
def copy (w : World ι) (t : ι) (n : Nat) (addr : List UInt8) : World ι :=
  if addr.length < n ∧ ¬ w.pipe.Empty then
    { w with pipe := { w.pipe with toRing := w.pipe.pop } }.goto t (.read n (addr ++ [w.pipe.front])) .copy
  else w.goto t (.read n addr) .wakeEnd

/-- The next step of a process at the place `l` of the call `c`. -/
def next (w : World ι) (t : ι) (c : Call) (l : Place) : Except Blocked (World ι) :=
  match l with
  | .enter =>
    if w.lock = none ∧ w.freed = false then .ok ({ w with lock := some t }.goto t c .test)
    else .error .blocked
  | .test => .ok (w.test t c)
  | .copy =>
    match c with
    | .read n addr => .ok (w.copy t n addr)
    | _ => .error .blocked
  | .wakeFull =>
    if w.ptable = none then .ok ((w.wakeup1 .nread).goto t c .sleep) else .error .blocked
  | .sleep =>
    if w.ptable = none then .ok ({ w with ptable := some t }.goto t c .hand) else .error .blocked
  | .hand => .ok ({ w with lock := none }.goto t c .down)
  | .down =>
    .ok { w with
      ptable := none
      proc := Function.update w.proc t
        { w.proc t with pc := .at c .asleep, state := .sleeping, chan := c.chan } }
  | .asleep => .error .blocked
  | .woken =>
    .ok { w with
      ptable := none
      proc := Function.update w.proc t { w.proc t with pc := .at c .enter, chan := none } }
  | .wakeEnd =>
    if w.ptable = none then .ok ((w.wakeup1 c.wakes).goto t c (.leave c.result)) else .error .blocked
  | .leave _ =>
    .ok { w with
      lock := none
      proc := Function.update w.proc t { w.proc t with pc := .out }
      freed := match c with
        | .close _ => !w.pipe.readopen && !w.pipe.writeopen
        | _ => w.freed }

def begin (w : World ι) (t : ι) (c : Call) : Except Blocked (World ι) :=
  if (w.proc t).pc = .out ∧ (w.proc t).state = .running ∧ w.freed = false then .ok (w.goto t c .enter)
  else .error .blocked

end World

def pstep (w : World ι) : PAct ι → Except Blocked (World ι)
  | .write t addr => w.begin t (.write addr 0)
  | .read t n => w.begin t (.read n [])
  | .close t writable => w.begin t (.close writable)
  | .go t =>
    match (w.proc t).pc with
    | .out => .error .blocked
    | .at c l => if (w.proc t).state = .running then w.next t c l else .error .blocked
  | .run t =>
    match (w.proc t).pc with
    | .at c .asleep =>
      if (w.proc t).state = .runnable ∧ w.ptable = none then
        .ok { w with
          ptable := some t
          proc := Function.update w.proc t { w.proc t with pc := .at c .woken, state := .running } }
      else .error .blocked
    | _ => .error .blocked
  | .kill t => if w.ptable = none then .ok (w.kill t) else .error .blocked

/-- The pipe that `pipealloc` makes out of a page, whatever is on the page. -/
def pipealloc (data : Fin PIPESIZE → UInt8) : World ι where
  pipe := { data, nread := 0, nwrite := 0, readopen := true, writeopen := true }
  lock := none
  ptable := none
  proc := fun _ => ⟨.out, .running, none, false⟩
  freed := false

/-- A step of a run: the state it is taken in, and the step. -/
abbrev PEvent (ι : Type) : Type := World ι × PAct ι

/-- `PRun data h w`: the run with history `h` (latest step first) reaches `w`. -/
abbrev PRun (data : Fin PIPESIZE → UInt8) (h : List (PEvent ι)) (w : World ι) : Prop :=
  Run pstep (pipealloc data) h w

end Pipe

end Xv6Mlfq
