import Mathlib

/-!
# Console input (console.c)

`struct input` and the loops of `consoleintr` and `consoleread` over it. Both run under `cons.lock`. What
`consoleintr` does for one character is `intrChar`; the second component of its result is the call of
`wakeup(&input.r)`. `intrChars` goes on up to the next such call, `readLoop` up to the next `sleep`. Echoing to
the screen is left out.
-/

namespace Xv6Mlfq.Console

abbrev INPUT_BUF : Nat := 128

structure Input where
  buf : Fin INPUT_BUF → UInt8
  r : UInt32
  w : UInt32
  e : UInt32
  deriving DecidableEq

def Input.zero : Input := ⟨fun _ => 0, 0, 0, 0⟩

def slot (x : UInt32) : Fin INPUT_BUF := ⟨x.toNat % INPUT_BUF, Nat.mod_lt _ (by decide)⟩

def ctrl (x : Char) : UInt8 := x.toUInt8 - '@'.toUInt8

def newline : UInt8 := 10

/-- The loop of control-U: at most `n` characters, of the `e - w` that can be erased. -/
def killLine : Nat → Input → Input
  | 0, i => i
  | n + 1, i =>
    if i.e ≠ i.w ∧ i.buf (slot (i.e - 1)) ≠ newline then killLine n { i with e := i.e - 1 } else i

/-- One character in `consoleintr`, and whether it wakes the readers up. -/
def intrChar (i : Input) (c : UInt8) : Input × Bool :=
  if c = ctrl 'P' then (i, false)
  else if c = ctrl 'U' then (killLine (i.e - i.w).toNat i, false)
  else if c = ctrl 'H' ∨ c = 0x7f then
    (if i.e ≠ i.w then { i with e := i.e - 1 } else i, false)
  else if c ≠ 0 ∧ i.e - i.r < 128 then
    let c := if c = 13 then newline else c
    let i := { i with buf := Function.update i.buf (slot i.e) c, e := i.e + 1 }
    if c = newline ∨ c = ctrl 'D' ∨ i.e = i.r + 128 then ({ i with w := i.e }, true) else (i, false)
  else (i, false)

/-- `consoleintr` up to its next `wakeup`: the characters that are left then, or none when it is through. -/
def intrChars (i : Input) : List UInt8 → Input × Option (List UInt8)
  | [] => (i, none)
  | c :: cs =>
    match intrChar i c with
    | (i, true) => (i, some cs)
    | (i, false) => intrChars i cs

/-- The variables of a `consoleread`: bytes still wanted, bytes asked for, bytes stored at `dst`. -/
structure Read where
  n : Nat
  target : Nat
  got : List UInt8
  deriving DecidableEq

/-- `consoleread` up to its next `sleep` (`some` reader that goes on later) or its end. -/
def readLoop (target : Nat) : Nat → List UInt8 → Input → Input × Option Read
  | 0, _, i => (i, none)
  | n + 1, got, i =>
    if i.r = i.w then (i, some ⟨n + 1, target, got⟩)
    else
      let c := i.buf (slot i.r)
      if c = ctrl 'D' then
        -- a control-D after other characters is kept for the next call
        (if n + 1 < target then i else { i with r := i.r + 1 }, none)
      else if c = newline then ({ i with r := i.r + 1 }, none)
      else readLoop target n (got ++ [c]) { i with r := i.r + 1 }

end Xv6Mlfq.Console
