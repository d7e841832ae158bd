import Xv6Mlfq.Vm.Exec

/-!
# The calls that take and give pages (proc.c, file.c, pipe.c, sysfile.c, main.c)

`fork`, `exec`, `sbrk`, `pipe`, `close`, `exit` and `wait`, one call at a time, and the part of `main` that sets up
memory and the first process. Of a file only what decides when a pipe is freed is kept.
-/

namespace Xv6Mlfq.Vm

open Lib
open Fs (UINT)

/-! ## Files (file.c) and pipes (pipe.c) -/

def setFile (f : Nat) (g : File → File) : K Unit :=
  update fun s => { s with file := Function.update s.file f (g (s.file f)) }

def setPipe (q : Nat) (x : Pipe) : K Unit := update fun s => { s with pipe := Function.update s.pipe q x }

def filealloc : K (Option Nat) := do
  let s ← look id
  match (List.range NFILE).find? fun f => decide ((s.file f).ref = 0) with
  | none => return none
  | some f => do
    setFile f fun x => { x with ref := 1 }
    return some f

def filedup (f : Nat) : K Unit := do
  let x ← look fun s => s.file f
  if x.ref < 1 then stop (.panic "filedup")
  else setFile f fun x => { x with ref := x.ref + 1 }

/-- `struct pipe` after one of its ends is closed. -/
def Pipe.close (x : Pipe) (writable : Bool) : Pipe :=
  if writable then { x with writeopen := false } else { x with readopen := false }

def pipeclose (q : Nat) (writable : Bool) : K Unit := do
  let x ← look fun s => s.pipe q
  setPipe q (x.close writable)
  if (x.close writable).readopen = false ∧ (x.close writable).writeopen = false then mem (kfree q) else return ()

def fileclose (f : Nat) : K Unit := do
  let x ← look fun s => s.file f
  if x.ref < 1 then stop (.panic "fileclose")
  else if x.ref - 1 > 0 then setFile f fun x => { x with ref := x.ref - 1 }
  else do
    setFile f fun x => { x with ref := 0, type := .none }
    if x.type = .pipe then pipeclose x.pipe x.writable else return ()

def pipealloc : K (Option (Nat × Nat)) := do
  match ← filealloc with
  | none => return none
  | some f0 => do
    match ← filealloc with
    | none => do
      fileclose f0
      return none
    | some f1 => do
      match ← mem kalloc with
      | none => do
        fileclose f0
        fileclose f1
        return none
      | some q => do
        setPipe q ⟨true, true⟩
        setFile f0 fun x => { x with type := .pipe, writable := false, pipe := q }
        setFile f1 fun x => { x with type := .pipe, writable := true, pipe := q }
        return some (f0, f1)

/-! ## Descriptors (sysfile.c) -/

def setFd (p fd : Nat) (f : Option Nat) : K Unit := setProc p fun q => { q with ofile := Function.update q.ofile fd f }

def fdalloc (p f : Nat) : K (Option Nat) := do
  let q ← look fun s => s.proc p
  match (List.range NOFILE).find? fun fd => (q.ofile fd).isNone with
  | none => return none
  | some fd => do
    setFd p fd (some f)
    return some fd

def sysPipe (p : Nat) : K Int := do
  match ← pipealloc with
  | none => return -1
  | some (rf, wf) => do
    match ← fdalloc p rf with
    | none => do
      fileclose rf
      fileclose wf
      return -1
    | some fd0 => do
      match ← fdalloc p wf with
      | none => do
        setFd p fd0 none
        fileclose rf
        fileclose wf
        return -1
      | some _ => return 0

def sysClose (p fd : Nat) : K Int := do
  let q ← look fun s => s.proc p
  match if fd < NOFILE then q.ofile fd else none with
  | none => return -1
  | some f => do
    setFd p fd none
    fileclose f
    return 0

/-! ## Processes (proc.c) -/

def allocproc : K (Option Nat) := do
  let s ← look id
  match (List.range NPROC).find? fun p => decide ((s.proc p).state = .unused) with
  | none => return none
  | some p => do
    setProc p fun q => { q with state := .embryo }
    match ← mem kalloc with
    | none => do
      setProc p fun q => { q with kstack := 0, state := .unused }
      return none
    | some kstack => do
      setProc p fun q => { q with kstack }
      return some p

def dupFd (p np fd : Nat) : K Unit := do
  match ← look fun s => (s.proc p).ofile fd with
  | none => return ()
  | some f => do
    filedup f
    setFd np fd (some f)

def fork (p : Nat) : K Int := do
  match ← allocproc with
  | none => return -1
  | some np => do
    let q ← look fun s => s.proc p
    match ← mem (copyuvm q.pgdir q.sz) with
    | none => do
      let k ← look fun s => (s.proc np).kstack
      mem (kfree k)
      setProc np fun q => { q with pgdir := 0, kstack := 0, state := .unused }
      return -1
    | some d => do
      setProc np fun x => { x with pgdir := d, sz := q.sz, parent := some p }
      each (List.range NOFILE) (dupFd p np)
      setProc np fun x => { x with state := .live }
      return np

def closeFd (p fd : Nat) : K Unit := do
  match ← look fun s => (s.proc p).ofile fd with
  | none => return ()
  | some f => do
    fileclose f
    setFd p fd none

def exit (p : Nat) : K Unit := do
  let i ← look fun s => s.initproc
  if p = i then stop (.panic "init exiting")
  else do
    each (List.range NOFILE) (closeFd p)
    update fun s => { s with
      proc := fun c => if (s.proc c).parent = some p then { s.proc c with parent := some i } else s.proc c }
    setProc p fun q => { q with state := .zombie }

/-- `wait` of process `p`; `none` when it has to sleep. -/
def wait (p : Nat) : K (Option Int) := do
  let s ← look id
  match (List.range NPROC).find? fun c => decide ((s.proc c).parent = some p ∧ (s.proc c).state = .zombie) with
  | some c => do
    mem (kfree (s.proc c).kstack)
    setProc c fun q => { q with kstack := 0 }
    mem (freevm (s.proc c).pgdir)
    setProc c fun q => { q with parent := none, state := .unused }
    return some c
  | none =>
    if ∃ c < NPROC, (s.proc c).parent = some p then return none else return some (-1)

/-! ## One call at a time -/

inductive Call where
  | fork
  | exec (img : Option (List UInt8)) (args : List (List UInt8))
  | sbrk (n : Int)
  | pipe
  | close (fd : Nat)
  | exit
  | wait

def call (p : Nat) : Call → K Unit
  | .fork => do
    let _ ← fork p
    return ()
  | .exec img args => do
    let _ ← exec p img args
    return ()
  | .sbrk n => do
    let _ ← growproc p n
    return ()
  | .pipe => do
    let _ ← sysPipe p
    return ()
  | .close fd => do
    let _ ← sysClose p fd
    return ()
  | .exit => exit p
  | .wait => do
    let _ ← wait p
    return ()

def callStep (s : Sys) (a : Nat × Call) : Except Stop Sys :=
  if a.1 < NPROC ∧ (s.proc a.1).state = .live then (call a.1 a.2 s).map Prod.snd else .error .spin

/-! ## main -/

def freerange (lo hi : Nat) : M Unit := each (List.range' lo (hi - lo)) kfree

/-- `kvmalloc`; a null directory cannot be used. -/
def kvmalloc : K Unit := do
  match ← mem setupkvm with
  | none => stop .fault
  | some d => update fun s => { s with kpgdir := d }

def startother : K Unit := do
  match ← mem kalloc with
  | none => return ()
  | some stack => update fun s => { s with apstacks := stack :: s.apstacks }

/-- `inituvm`; what `mappages` returns is not checked. -/
def inituvm (pgdir : Nat) (init : List UInt8) : M Unit := do
  if init.length ≥ PGSIZE then panic "inituvm: more than a page"
  else
    match ← kalloc with
    | none => stop .fault
    | some p => do
      fill p 0
      let _ ← mappages pgdir 0 PGSIZE p (PTE_W ||| PTE_U)
      update fun s => { s with mem := Function.update s.mem p (Fs.memmove 0 init (s.mem p)) }

def userinit (init : List UInt8) : K Unit := do
  match ← allocproc with
  | none => stop .fault
  | some p => do
    update fun s => { s with initproc := p }
    match ← mem setupkvm with
    | none => stop (.panic "userinit: out of memory?")
    | some d => do
      setProc p fun q => { q with pgdir := d }
      mem (inituvm d init)
      setProc p fun q => { q with sz := PGSIZE }
      setProc p fun q => { q with state := .live }

def poweron (L : Layout) (mem : Nat → Nat → UInt8) (oom : Nat → Bool) : Sys where
  phys := ⟨L, [], mem, 0, oom⟩
  proc := fun _ => ⟨.unused, 0, 0, 0, none, fun _ => none⟩
  file := fun _ => ⟨.none, 0, false, 0⟩
  pipe := fun _ => ⟨false, false⟩
  kpgdir := 0
  initproc := 0
  apstacks := []

/-- `main`: `kinit1` frees the pages up to `mid`, `kinit2` the rest. -/
def main (mid others : Nat) (init : List UInt8) : K Unit := do
  let L ← look fun s => s.phys.layout
  mem (freerange L.first mid)
  kvmalloc
  each (List.range others) fun _ => startother
  mem (freerange mid L.last)
  userinit init

end Xv6Mlfq.Vm
