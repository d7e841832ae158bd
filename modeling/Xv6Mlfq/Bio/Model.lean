import Xv6Mlfq.Fs.Types
import Xv6Mlfq.Lib.Chain
import Xv6Mlfq.Lib.Run
import Xv6Mlfq.Log.Model

/-!
# The buffer cache (bio.c, with iderw and ideintr of ide.c and log_write of log.c)

The processes share the buffers, the list through `prev` and `next`, and the disk with its queue. A step is what other
processes can see: taking `bcache.lock`, one pass of a loop of `bget` under it, taking or releasing the sleep lock of a
buffer, a section of `idelock`, a store to `b->data`. `acquiresleep` and the waiting loop of `iderw` are steps that are
possible once the lock is free or the request is done.

A pointer into the list is `some b`, or `none` for `&bcache.head`; so `head ()` and `tail ()` of the pointers are
`bcache.head.next` and `bcache.head.prev`. The disk is the second one (`ROOTDEV`), it is there, and it answers without
errors. The header of the log is left to `Xv6Mlfq.Log`.

Outside of the cache a process does what its callers do: it changes the data of buffers that it has from `bread`, and
after a change it calls `log_write` or `bwrite` before it calls `brelse`; `pending` says that it still has to.
-/

namespace Xv6Mlfq.Bio

open Lib

abbrev NBUF : Nat := Log.NBUF
abbrev ROOTDEV : Nat := 1

abbrev BRef : Type := Fin NBUF

/-- `struct buf` without its pointers; `lock` is the holder of the sleep lock, `valid` and `dirty` are the flags. -/
structure Buf (ι : Type) where
  valid : Bool
  dirty : Bool
  dev : Nat
  blockno : Nat
  lock : Option ι
  refcnt : Nat
  data : Fs.Block

inductive Caller where
  | bread (blockno : Nat)
  | bwrite
  deriving DecidableEq, Repr

inductive Pc where
  /-- Outside of the cache. -/
  | out
  /-- Before `acquire(&bcache.lock)` in `bget`. -/
  | bget (blockno : Nat)
  /-- In the first loop of `bget`, at `b`. -/
  | find (blockno : Nat) (b : Option BRef)
  /-- In the second loop of `bget`, at `b`. -/
  | recycle (blockno : Nat) (b : Option BRef)
  /-- Before `acquiresleep(&b->lock)` in `bget`. -/
  | lock (blockno : Nat) (b : BRef)
  /-- Before the test of `B_VALID` in `bread`. -/
  | test (blockno : Nat) (b : BRef)
  /-- Before `acquire(&idelock)` in `iderw`. -/
  | iderw (c : Caller) (b : BRef)
  /-- In the waiting loop of `iderw`. -/
  | wait (c : Caller) (b : BRef)
  /-- Before the return of `b` from `bread`. -/
  | ret (blockno : Nat) (b : BRef)
  /-- After `releasesleep` in `brelse`. -/
  | relse (b : BRef)
  deriving DecidableEq, Repr

def Caller.next (b : BRef) : Caller → Pc
  | .bread n => .ret n b
  | .bwrite => .out

/-- The buffers, the pointers of the list, the holder of `bcache.lock`, the queue of the disk, the disk, the places of
the processes, and the buffers that are changed but not yet passed to `log_write` or `bwrite`. -/
structure World (ι : Type) where
  buf : BRef → Buf ι
  links : Heap Unit BRef
  bcache : Option ι
  idequeue : List BRef
  disk : Nat → Fs.Block
  pc : ι → Pc
  pending : BRef → Bool

/-- A process calls a function of the cache or stores to `b->data`, goes on in a call, or the disk interrupts. -/
inductive BAct (ι : Type) where
  | bread (t : ι) (blockno : Nat)
  | store (t : ι) (b : BRef) (d : Fs.Block)
  | logWrite (t : ι) (b : BRef)
  | bwrite (t : ι) (b : BRef)
  | brelse (t : ι) (b : BRef)
  | go (t : ι)
  | intr

inductive BStop where
  | panic (msg : String)
  /-- The step cannot be taken now. -/
  | notEnabled
  deriving DecidableEq, Repr

/-! ## The list -/

def setNext (x y : Option BRef) (h : Heap Unit BRef) : Heap Unit BRef :=
  match x with
  | some b => { h with next := Function.update h.next b y }
  | none => { h with head := fun _ => y }

def setPrev (x y : Option BRef) (h : Heap Unit BRef) : Heap Unit BRef :=
  match x with
  | some b => { h with prev := Function.update h.prev b y }
  | none => { h with tail := fun _ => y }

/-- The four assignments that put `b` behind `bcache.head`. -/
def linkFront (b : BRef) (h : Heap Unit BRef) : Heap Unit BRef :=
  let h := setNext (some b) (h.head ()) h
  let h := setPrev (some b) none h
  let h := setPrev (h.head ()) (some b) h
  setNext none (some b) h

def takeOut (b : BRef) (h : Heap Unit BRef) : Heap Unit BRef :=
  let h := setPrev (h.next b) (h.prev b) h
  setNext (h.prev b) (h.next b) h

/-! ## Steps -/

variable {ι : Type} [DecidableEq ι]

namespace World

def goto (w : World ι) (t : ι) (p : Pc) : World ι := { w with pc := Function.update w.pc t p }

def setBuf (w : World ι) (b : BRef) (f : Buf ι → Buf ι) : World ι :=
  { w with buf := Function.update w.buf b (f (w.buf b)) }

def Holding (w : World ι) (t : ι) (b : BRef) : Prop := (w.buf b).lock = some t

instance (w : World ι) (t : ι) (b : BRef) : Decidable (w.Holding t b) := inferInstanceAs (Decidable (_ = _))

/-- `idestart`: a write request takes the data to the disk. -/
def idestart (w : World ι) (b : BRef) : Except BStop (World ι) :=
  if (w.buf b).blockno ≥ Fs.FSSIZE then .error (.panic "incorrect blockno")
  else if (w.buf b).dirty then
    .ok { w with disk := Function.update w.disk (w.buf b).blockno (w.buf b).data }
  else .ok w

def iderw (w : World ι) (t : ι) (c : Caller) (b : BRef) : Except BStop (World ι) :=
  if ¬ w.Holding t b then .error (.panic "iderw: buf not locked")
  else if (w.buf b).valid ∧ (w.buf b).dirty = false then .error (.panic "iderw: nothing to do")
  else
    let w' := { w with idequeue := w.idequeue ++ [b] }.goto t (.wait c b)
    if w.idequeue = [] then w'.idestart b else .ok w'

def ideintr (w : World ι) : Except BStop (World ι) :=
  match w.idequeue with
  | [] => .ok w
  | b :: q =>
    let w' := { w with idequeue := q }.setBuf b fun x =>
      { x with
        data := if x.dirty then x.data else w.disk x.blockno
        valid := true
        dirty := false }
    match q with
    | [] => .ok w'
    | b' :: _ => w'.idestart b'

/-- The next step of process `t` in the code of the cache. -/
def next (w : World ι) (t : ι) : Except BStop (World ι) :=
  match w.pc t with
  | .out => .error .notEnabled
  | .bget n =>
    if w.bcache = none then .ok ({ w with bcache := some t }.goto t (.find n (w.links.head ())))
    else .error .notEnabled
  | .find n none => .ok (w.goto t (.recycle n (w.links.tail ())))
  | .find n (some b) =>
    if (w.buf b).dev = ROOTDEV ∧ (w.buf b).blockno = n then
      .ok (({ w with bcache := none }.setBuf b fun x => { x with refcnt := x.refcnt + 1 }).goto t (.lock n b))
    else .ok (w.goto t (.find n (w.links.next b)))
  | .recycle _ none => .error (.panic "bget: no buffers")
  | .recycle n (some b) =>
    if (w.buf b).refcnt = 0 ∧ (w.buf b).dirty = false then
      .ok (({ w with bcache := none }.setBuf b fun x =>
        { x with dev := ROOTDEV, blockno := n, valid := false, dirty := false, refcnt := 1 }).goto t (.lock n b))
    else .ok (w.goto t (.recycle n (w.links.prev b)))
  | .lock n b =>
    if (w.buf b).lock = none then .ok ((w.setBuf b fun x => { x with lock := some t }).goto t (.test n b))
    else .error .notEnabled
  | .test n b => .ok (w.goto t (if (w.buf b).valid then .ret n b else .iderw (.bread n) b))
  | .iderw c b => w.iderw t c b
  | .wait c b =>
    if (w.buf b).valid ∧ (w.buf b).dirty = false then
      .ok (w.goto t (c.next b))
    else .error .notEnabled
  | .ret _ _ => .ok (w.goto t .out)
  | .relse b =>
    if w.bcache = none then
      .ok ({ w.setBuf b fun x => { x with refcnt := x.refcnt - 1 } with
        links := if (w.buf b).refcnt - 1 = 0 then linkFront b (takeOut b w.links) else w.links }.goto t .out)
    else .error .notEnabled

end World

def bstep (w : World ι) : BAct ι → Except BStop (World ι)
  | .bread t n => if w.pc t = .out then .ok (w.goto t (.bget n)) else .error .notEnabled
  | .store t b d =>
    if w.pc t = .out ∧ w.Holding t b then
      .ok { w.setBuf b fun x => { x with data := d } with pending := Function.update w.pending b true }
    else .error .notEnabled
  | .logWrite t b =>
    if w.pc t = .out ∧ w.Holding t b then
      .ok { w.setBuf b fun x => { x with dirty := true } with pending := Function.update w.pending b false }
    else .error .notEnabled
  | .bwrite t b =>
    if w.pc t ≠ .out then .error .notEnabled
    else if ¬ w.Holding t b then .error (.panic "bwrite")
    else
      .ok ({ w.setBuf b fun x => { x with dirty := true } with
        pending := Function.update w.pending b false }.goto t (.iderw .bwrite b))
  | .brelse t b =>
    if w.pc t ≠ .out then .error .notEnabled
    else if ¬ w.Holding t b then .error (.panic "brelse")
    else if w.pending b then .error .notEnabled
    else .ok ((w.setBuf b fun x => { x with lock := none }).goto t (.relse b))
  | .go t => w.next t
  | .intr => w.ideintr

def binitLinks : Heap Unit BRef :=
  (List.finRange NBUF).foldl (fun h b => linkFront b h) ⟨fun _ => none, fun _ => none, fun _ => none, fun _ => none⟩

/-- After `binit`, with the contents of the disk. -/
def binit (disk : Nat → Fs.Block) : World ι where
  buf := fun _ => ⟨false, false, 0, 0, none, 0, fun _ => 0⟩
  links := binitLinks
  bcache := none
  idequeue := []
  disk := disk
  pc := fun _ => .out
  pending := fun _ => false

/-- A step of a run: the state it is taken in, and the step. -/
abbrev BEvent (ι : Type) : Type := World ι × BAct ι

/-- `BRun disk h w`: the run with history `h` (latest step first) reaches `w`. -/
abbrev BRun (disk : Nat → Fs.Block) (h : List (BEvent ι)) (w : World ι) : Prop := Run bstep (binit disk) h w

/-- The data that was last stored to a block; before the first store, what was on the disk. -/
def lastStored (disk : Nat → Fs.Block) : List (BEvent ι) → Nat → Fs.Block
  | [] => disk
  | (w, .store _ b d) :: h => Function.update (lastStored disk h) (w.buf b).blockno d
  | _ :: h => lastStored disk h

end Xv6Mlfq.Bio
