import Xv6Mlfq.Lib.Prog
import Xv6Mlfq.Lib.Run

/-!
# The user heap (umalloc.c)

`malloc`, `morecore` and `free` as the C code has them, over the memory of one process. A `Header` takes eight
bytes; memory is the header stored at each address, pointers are `uint`s and pointer arithmetic wraps. A load or
a store outside the pages of the process is a fault. `sbrk` does to `sz` what `sys_sbrk` and `growproc` do:
the argument is an `int`, so a request of 2³¹ bytes or more shrinks the process; `fails` says which of the
kernel's page allocations fail.
-/

namespace Xv6Mlfq.Heap

open Lib (Prog look update stop)

abbrev UINT : Nat := 4294967296

abbrev KERNBASE : Nat := 2147483648

structure Header where
  ptr : Nat
  size : Nat
deriving DecidableEq, Repr

abbrev HSIZE : Nat := 8

/-- The memory of the process, the static `freep`, and the size of the process. -/
structure Memory where
  mem : Nat → Header
  freep : Nat
  sz : Nat
  calls : Nat
  fails : Nat → Bool

/-- Ways not to return: a page fault, or a loop that goes on past `passes` rounds. -/
inductive Stop
  | fault
  | spin
deriving DecidableEq, Repr

abbrev M := Prog Memory Stop

/-- The process may use the header at `a`: its pages end at the next page boundary above `sz`. -/
def Memory.Mapped (h : Memory) (a : Nat) : Prop := a + HSIZE ≤ (h.sz + 4095) / 4096 * 4096

instance (h : Memory) (a : Nat) : Decidable (h.Mapped a) := inferInstanceAs (Decidable (_ ≤ _))

def load (a : Nat) : M Header := do
  let h ← look id
  if h.Mapped a then return h.mem a else stop .fault

def store (a : Nat) (f : Header → Header) : M Unit := do
  let h ← look id
  if h.Mapped a then update fun h => { h with mem := Function.update h.mem a (f (h.mem a)) } else stop .fault

def setFreep (p : Nat) : M Unit := update fun h => { h with freep := p }

def plus (p n : Nat) : Nat := (p + n * HSIZE) % UINT

def toInt (x : Nat) : Int := if x < KERNBASE then x else (x : Int) - UINT

/-- More rounds than any list of headers below `KERNBASE` is long. -/
@[irreducible] def passes : Nat := 2 * UINT

theorem kernbase_lt_passes : 2 * KERNBASE + 2 < passes := by
  unfold passes
  decide

/-! ## `free` -/

/-- The `for` loop of `free`: the place of `bp` in the list. -/
def findPlace (bp : Nat) : Nat → Nat → M Nat
  | 0, _ => stop .spin
  | fuel + 1, p => do
    let x ← load p
    if bp > p ∧ bp < x.ptr then return p
    else if p ≥ x.ptr ∧ (bp > p ∨ bp < x.ptr) then return p
    else findPlace bp fuel x.ptr

/-- `bp` takes over the block after it, or points to it. -/
def joinNext (bp p : Nat) : M Unit := do
  let b ← load bp
  let x ← load p
  if plus bp b.size = x.ptr then do
    let y ← load x.ptr
    store bp fun b => { ptr := y.ptr, size := (b.size + y.size) % UINT }
  else store bp fun b => { b with ptr := x.ptr }

def joinPrev (bp p : Nat) : M Unit := do
  let x ← load p
  if plus p x.size = bp then do
    let b ← load bp
    store p fun x => { ptr := b.ptr, size := (x.size + b.size) % UINT }
  else store p fun x => { x with ptr := bp }

def free (ap : Nat) : M Unit := do
  let bp := (ap + UINT - HSIZE) % UINT
  let freep ← look fun h => h.freep
  let p ← findPlace bp passes freep
  joinNext bp p
  joinPrev bp p
  setFreep p

/-! ## `morecore` -/

/-- `sbrk(n)`: the old size of the process, or `none` for `(char*)-1`. -/
def sbrk (n : Int) : M (Option Nat) := do
  let h ← look id
  let newsz := ((h.sz + n) % UINT).toNat
  if n > 0 then
    -- allocuvm: a size that wraps around is left as it was, and the call succeeds
    if newsz ≥ KERNBASE then return none
    else if newsz < h.sz then return some h.sz
    else do
      update fun h => { h with calls := h.calls + 1 }
      if h.fails h.calls then return none
      else do
        update fun h => { h with sz := newsz }
        return some h.sz
  else if n < 0 then
    -- deallocuvm; with newsz = 0 growproc reports failure, but the program's own pages are gone
    if newsz ≥ h.sz then return some h.sz
    else if newsz = 0 then stop .fault
    else do
      update fun h => { h with sz := newsz }
      return some h.sz
  else return some h.sz

def morecore (nu : Nat) : M (Option Nat) := do
  let nu := if nu < 4096 then 4096 else nu
  match ← sbrk (toInt (nu * HSIZE % UINT)) with
  | none => return none
  | some p => do
    store p fun x => { x with size := nu }
    free (plus p 1)
    let freep ← look fun h => h.freep
    return some freep

/-! ## `malloc` -/

def unitsOf (nbytes : Nat) : Nat := (nbytes + HSIZE - 1) % UINT / HSIZE + 1

/-- The block `p` is large enough: unlink it, or cut `nunits` off its end. -/
def takeBlock (nunits prevp p : Nat) : M Nat := do
  let x ← load p
  if x.size = nunits then do
    store prevp fun y => { y with ptr := x.ptr }
    setFreep prevp
    return plus p 1
  else do
    store p fun x => { x with size := x.size - nunits }
    let q := plus p (x.size - nunits)
    store q fun y => { y with size := nunits }
    setFreep prevp
    return plus q 1

def mallocLoop (nunits : Nat) : Nat → Nat → Nat → M (Option Nat)
  | 0, _, _ => stop .spin
  | fuel + 1, prevp, p => do
    let x ← load p
    if x.size ≥ nunits then do
      let q ← takeBlock nunits prevp p
      return some q
    else do
      let freep ← look fun h => h.freep
      if p = freep then
        match ← morecore nunits with
        | none => return none
        | some p => do
          let x ← load p
          mallocLoop nunits fuel p x.ptr
      else mallocLoop nunits fuel p x.ptr

def init (base : Nat) : M Unit := do
  let freep ← look fun h => h.freep
  if freep = 0 then do
    store base fun _ => { ptr := base, size := 0 }
    setFreep base
  else return ()

/-- `malloc(nbytes)`, with `base` the address of the static `base`. -/
def malloc (base nbytes : Nat) : M (Option Nat) := do
  init base
  let prevp ← look fun h => h.freep
  let x ← load prevp
  mallocLoop (unitsOf nbytes) passes prevp x.ptr

/-! ## A program that uses the heap -/

/-- A program and the regions it has been given and not freed: pointer and size asked for, latest first. -/
structure World where
  heap : Memory
  live : List (Nat × Nat)

/-- What a program may do: ask for memory, free a region it has, write the regions it has. -/
inductive Act
  | malloc (nbytes : Nat)
  | free (ap : Nat)
  | write (f : Nat → Header)

/-- A header at `a` would overlap a live region. -/
def World.Owns (w : World) (a : Nat) : Prop := ∃ x ∈ w.live, x.1 < a + HSIZE ∧ a < x.1 + x.2

instance (w : World) (a : Nat) : Decidable (w.Owns a) := inferInstanceAs (Decidable (∃ _ ∈ _, _))

/-- Why there is no next state: the call did not return, or the program may not make it. -/
inductive Halt
  | stop (e : Stop)
  | notAllowed
deriving DecidableEq, Repr

def runM {α : Type} (m : M α) (h : Memory) (f : α → Memory → World) : Except Halt World :=
  match m h with
  | .ok (a, h') => .ok (f a h')
  | .error e => .error (.stop e)

def step (base : Nat) (w : World) : Act → Except Halt World
  | .malloc n =>
    if n < UINT then
      runM (malloc base n) w.heap fun r h => ⟨h, match r with | some p => (p, n) :: w.live | none => w.live⟩
    else .error .notAllowed
  | .free ap =>
    if ∃ x ∈ w.live, x.1 = ap then
      runM (free ap) w.heap fun _ h => ⟨h, w.live.eraseP fun x => x.1 = ap⟩
    else .error .notAllowed
  | .write f =>
    .ok { w with heap := { w.heap with mem := fun a => if w.Owns a then f a else w.heap.mem a } }

/-- A process whose heap starts at `sz`, before its first `malloc`. -/
def start (mem : Nat → Header) (sz : Nat) (fails : Nat → Bool) : World :=
  ⟨⟨mem, 0, sz, 0, fails⟩, []⟩

end Xv6Mlfq.Heap
