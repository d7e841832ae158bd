import Xv6Mlfq.Fs.Types

/-!
# Physical pages and page tables (kalloc.c, vm.c)

Physical memory is kept by pages: a page is a physical address divided by `PGSIZE`, and `mem p` are the bytes of page
`p`, which the kernel reaches through its direct map (`P2V`). The entries of page directories and page tables are words
of their pages. The free list is the list of its pages, first page first; the links between them, in the pages
themselves, are left out. Virtual addresses and sizes are natural numbers below `2 ^ 32`, and the places where the
32-bit arithmetic of the source can wrap say so.

`oom` tells which calls of `kalloc` fail although there is a page on the free list; `calls` counts the calls.
-/

namespace Xv6Mlfq.Vm

open Lib
open Fs (word setWord memmove UINT)

abbrev PGSIZE : Nat := 4096
abbrev KERNBASE : Nat := 0x80000000
abbrev EXTMEM : Nat := 0x100000
abbrev PHYSTOP : Nat := 0xE000000
abbrev DEVSPACE : Nat := 0xFE000000
/-- Entries of a page directory, and of a page table. -/
abbrev NPDENTRIES : Nat := 1024
@[inherit_doc NPDENTRIES]
abbrev NPTENTRIES : Nat := 1024
abbrev PTE_P : Nat := 1
abbrev PTE_W : Nat := 2
abbrev PTE_U : Nat := 4

def pgRoundUp (a : Nat) : Nat := (a + (PGSIZE - 1)) % UINT / PGSIZE * PGSIZE

def pgRoundDown (a : Nat) : Nat := a / PGSIZE * PGSIZE

def pdx (va : Nat) : Nat := va / 4194304 % NPDENTRIES

def ptx (va : Nat) : Nat := va / PGSIZE % NPTENTRIES

def pgAddr (d t o : Nat) : Nat := (d * 4194304 + t * PGSIZE + o) % UINT

def Present (w : Nat) : Prop := w % 2 = 1

instance (w : Nat) : Decidable (Present w) := inferInstanceAs (Decidable (_ = _))

def User (w : Nat) : Prop := w / 4 % 2 = 1

instance (w : Nat) : Decidable (User w) := inferInstanceAs (Decidable (_ = _))

def pteAddr (w : Nat) : Nat := w / PGSIZE

def pteFlags (w : Nat) : Nat := w % PGSIZE

def mkPte (pa perm : Nat) : Nat := pa % 1048576 * PGSIZE + (perm ||| PTE_P) % PGSIZE

structure Kmap where
  virt : Nat
  physStart : Nat
  physEnd : Nat
  perm : Nat
  deriving DecidableEq

/-- What the linker and memlayout.h fix: `kmap[]`, and the first page and the end of the pages that `kfree` accepts. -/
structure Layout where
  kmap : List Kmap
  first : Nat
  last : Nat

/-- The layout of the kernel, with the addresses of `data` and `end` (kernel.ld). -/
def kernelLayout (data kend : Nat) : Layout where
  kmap :=
    [⟨KERNBASE, 0, EXTMEM, PTE_W⟩, ⟨KERNBASE + EXTMEM, EXTMEM, data - KERNBASE, 0⟩,
      ⟨data, data - KERNBASE, PHYSTOP, PTE_W⟩, ⟨DEVSPACE, DEVSPACE, 0, PTE_W⟩]
  first := (kend - KERNBASE + (PGSIZE - 1)) / PGSIZE
  last := PHYSTOP / PGSIZE

structure Phys where
  layout : Layout
  freelist : List Nat
  mem : Nat → Nat → UInt8
  calls : Nat
  oom : Nat → Bool

inductive Stop where
  | panic (msg : String)
  /-- An access through a null pointer. -/
  | fault
  /-- A loop whose bound is too small (never the case). -/
  | spin
  deriving DecidableEq, Repr

/-- Kernel code that works on physical memory. -/
abbrev M : Type → Type := Prog Phys Stop

def panic {α : Type} (msg : String) : M α := stop (.panic msg)

/-! ## The allocator (kalloc.c) -/

def fill (p : Nat) (x : UInt8) : M Unit := update fun s => { s with mem := Function.update s.mem p fun _ => x }

def kfree (p : Nat) : M Unit := do
  let s ← look id
  if s.layout.first ≤ p ∧ p < s.layout.last then do
    fill p 1
    update fun s => { s with freelist := p :: s.freelist }
  else panic "kfree"

def kalloc : M (Option Nat) := do
  let s ← look id
  update fun s => { s with calls := s.calls + 1 }
  if s.oom s.calls then return none
  else
    match s.freelist with
    | [] => return none
    | p :: l => do
      update fun s => { s with freelist := l }
      return some p

/-! ## Page tables (vm.c) -/

/-- Read entry `j` of a page directory or page table. -/
def entry (p j : Nat) : M Nat := look fun s => word (s.mem p) j

def setEntry (p j w : Nat) : M Unit :=
  update fun s => { s with mem := Function.update s.mem p (setWord j w (s.mem p)) }

/-- `walkpgdir`: the page table and the index of the entry in it. -/
def walkpgdir (pgdir va : Nat) (alloc : Bool) : M (Option (Nat × Nat)) := do
  let pde ← entry pgdir (pdx va)
  if Present pde then return some (pteAddr pde, ptx va)
  else if alloc = false then return none
  else
    match ← kalloc with
    | none => return none
    | some pgtab => do
      fill pgtab 0
      setEntry pgdir (pdx va) (mkPte pgtab (PTE_W ||| PTE_U))
      return some (pgtab, ptx va)

def mappagesLoop (pgdir last perm : Nat) : Nat → Nat → Nat → M Bool
  | 0, _, _ => stop .spin
  | fuel + 1, a, pa => do
    match ← walkpgdir pgdir a true with
    | none => return false
    | some (t, j) => do
      let pte ← entry t j
      if Present pte then panic "remap"
      else do
        setEntry t j (mkPte pa perm)
        if a = last then return true
        else mappagesLoop pgdir last perm fuel ((a + PGSIZE) % UINT) (pa + 1)

def mappages (pgdir va size pa perm : Nat) : M Bool :=
  let a := pgRoundDown va
  let last := pgRoundDown ((va + size - 1) % UINT)
  mappagesLoop pgdir last perm ((last + UINT - a) % UINT / PGSIZE + 1) a pa

/-- One pass of the loop of `deallocuvm`; the value of `a` before `a += PGSIZE`. -/
def deallocStep (pgdir a : Nat) : M Nat := do
  match ← walkpgdir pgdir a false with
  | none => return (pgAddr (pdx a + 1) 0 0 + UINT - PGSIZE) % UINT
  | some (t, j) => do
    let pte ← entry t j
    if Present pte then
      if pteAddr pte = 0 then panic "kfree"
      else do
        kfree (pteAddr pte)
        setEntry t j 0
        return a
    else return a

def deallocLoop (pgdir oldsz : Nat) : Nat → Nat → M Unit
  | 0, a => if a < oldsz then stop .spin else return ()
  | fuel + 1, a =>
    if a < oldsz then do
      let a ← deallocStep pgdir a
      deallocLoop pgdir oldsz fuel ((a + PGSIZE) % UINT)
    else return ()

/-- `deallocuvm`. Each pass moves `a` on by a page at least. -/
def deallocuvm (pgdir oldsz newsz : Nat) : M Nat :=
  if newsz ≥ oldsz then return oldsz
  else do
    deallocLoop pgdir oldsz (oldsz / PGSIZE + 1) (pgRoundUp newsz)
    return newsz

def freeTable (pgdir i : Nat) : M Unit := do
  let pde ← entry pgdir i
  if Present pde then kfree (pteAddr pde) else return ()

def freevm (pgdir : Nat) : M Unit := do
  let _ ← deallocuvm pgdir KERNBASE 0
  each (List.range NPDENTRIES) (freeTable pgdir)
  kfree pgdir

def mapKernel (pgdir : Nat) : List Kmap → M Bool
  | [] => return true
  | k :: l => do
    let ok ← mappages pgdir k.virt ((k.physEnd + UINT - k.physStart) % UINT) (k.physStart / PGSIZE) k.perm
    if ok then mapKernel pgdir l else return false

def setupkvm : M (Option Nat) := do
  match ← kalloc with
  | none => return none
  | some pgdir => do
    fill pgdir 0
    let kmap ← look fun s => s.layout.kmap
    let ok ← mapKernel pgdir kmap
    if ok then return some pgdir
    else do
      freevm pgdir
      return none

def allocLoop (pgdir oldsz newsz : Nat) : Nat → Nat → M Nat
  | 0, a => if a < newsz then stop .spin else return newsz
  | fuel + 1, a =>
    if a < newsz then do
      match ← kalloc with
      | none => do
        let _ ← deallocuvm pgdir newsz oldsz
        return 0
      | some p => do
        fill p 0
        let ok ← mappages pgdir a PGSIZE p (PTE_W ||| PTE_U)
        if ok then allocLoop pgdir oldsz newsz fuel ((a + PGSIZE) % UINT)
        else do
          let _ ← deallocuvm pgdir newsz oldsz
          kfree p
          return 0
    else return newsz

def allocuvm (pgdir oldsz newsz : Nat) : M Nat :=
  if newsz ≥ KERNBASE then return 0
  else if newsz < oldsz then return oldsz
  else allocLoop pgdir oldsz newsz (newsz / PGSIZE + 1) (pgRoundUp oldsz)

/-- The loop of `copyuvm` into the new page table `d`; `false` for `goto bad`. -/
def copyLoop (pgdir d sz : Nat) : Nat → Nat → M Bool
  | 0, i => if i < sz then stop .spin else return true
  | fuel + 1, i =>
    if i < sz then do
      match ← walkpgdir pgdir i false with
      | none => panic "copyuvm: pte should exist"
      | some (t, j) => do
        let pte ← entry t j
        if Present pte then do
          match ← kalloc with
          | none => return false
          | some p => do
            update fun s => { s with mem := Function.update s.mem p (s.mem (pteAddr pte)) }
            let ok ← mappages d i PGSIZE p (pteFlags pte)
            if ok then copyLoop pgdir d sz fuel ((i + PGSIZE) % UINT)
            else do
              kfree p
              return false
        else panic "copyuvm: page not present"
    else return true

def copyuvm (pgdir sz : Nat) : M (Option Nat) := do
  match ← setupkvm with
  | none => return none
  | some d => do
    let ok ← copyLoop pgdir d sz (sz / PGSIZE + 1) 0
    if ok then return some d
    else do
      freevm d
      return none

def clearpteu (pgdir uva : Nat) : M Unit := do
  match ← walkpgdir pgdir uva false with
  | none => panic "clearpteu"
  | some (t, j) => do
    let pte ← entry t j
    setEntry t j (if User pte then pte - PTE_U else pte)

/-- `uva2ka`. The result of `walkpgdir` is used unchecked. -/
def uva2ka (pgdir uva : Nat) : M (Option Nat) := do
  match ← walkpgdir pgdir uva false with
  | none => stop .fault
  | some (t, j) => do
    let pte ← entry t j
    if ¬ Present pte then return none
    else if ¬ User pte then return none
    else return some (pteAddr pte)

/-- The loop of `copyout` over the bytes `buf` that are left; `false` for -1. Each pass writes at least one byte. -/
def copyoutLoop (pgdir : Nat) : Nat → Nat → List UInt8 → M Bool
  | 0, _, _ => return true
  | fuel + 1, va, buf =>
    if buf = [] then return true
    else do
      let va0 := pgRoundDown va
      match ← uva2ka pgdir va0 with
      | none => return false
      | some p => do
        let n := min (PGSIZE - (va - va0)) buf.length
        update fun s => { s with mem := Function.update s.mem p (memmove (va - va0) (buf.take n) (s.mem p)) }
        copyoutLoop pgdir fuel ((va0 + PGSIZE) % UINT) (buf.drop n)

def copyout (pgdir va : Nat) (buf : List UInt8) : M Bool := copyoutLoop pgdir buf.length va buf

end Xv6Mlfq.Vm
