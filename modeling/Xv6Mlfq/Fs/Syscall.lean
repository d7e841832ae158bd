import Xv6Mlfq.Fs.Name
import Xv6Mlfq.Lib.Run

/-!
# Open files and system calls (file.c, sysfile.c, sys_lseek.c)

The system calls after their arguments have been fetched, with their return values, as calls by process `p`.
Pipes are opened and closed here; what goes through them, and what a device returns, is an argument of the call
(`dev`). `fork`, `exit` and `exec` are kept as far as they touch files and inodes; `reads` are the ranges of the
program file that `exec` reads.
-/

namespace Xv6Mlfq.Fs

open Lib

/-! ## Open files (file.c) -/

def setFile (f : FRef) (g : File → File) : M Unit :=
  update fun s => { s with ftable := Function.update s.ftable f (g (s.ftable f)) }

def setProc (p : PIdx) (g : ProcFiles → ProcFiles) : M Unit :=
  update fun s => { s with proc := Function.update s.proc p (g (s.proc p)) }

def filealloc : M (Option FRef) := do
  let s ← look id
  match (List.finRange NFILE).find? fun f => decide ((s.ftable f).ref = 0) with
  | some f => do
    setFile f fun x => { x with ref := 1 }
    return some f
  | none => return none

def filedup (f : FRef) : M Unit := do
  let x ← look fun s => s.ftable f
  if x.ref < 1 then panic "filedup" else setFile f fun x => { x with ref := x.ref + 1 }

/-- What `fileclose` does with the last reference to a file. -/
def filelast (ff : File) : M Unit :=
  match ff.type with
  | .inode => do
    beginOp
    iput ff.ip
    endOp
  | _ => return ()

def fileclose (f : FRef) : M Unit := do
  let ff ← look fun s => s.ftable f
  if ff.ref < 1 then panic "fileclose"
  else if ff.ref - 1 > 0 then setFile f fun x => { x with ref := x.ref - 1 }
  else do
    setFile f fun x => { x with ref := 0, type := .none }
    filelast ff

/-- `filestat`, without the copy to user space. -/
def filestat (f : FRef) : M Int := do
  let x ← look fun s => s.ftable f
  if x.type = .inode then do
    ilock x.ip
    iunlock x.ip
    return 0
  else return -1

def readResult : Option (List UInt8) → Int
  | some bs => bs.length
  | none => -1

def advance (r : Nat) (x : File) : File := if r > 0 then { x with off := (x.off + r) % UINT } else x

def fileread (f : FRef) (n : Nat) (dev : Option (List UInt8)) : M (Option (List UInt8)) := do
  let x ← look fun s => s.ftable f
  if x.readable = false then return none
  else
    match x.type with
    | .pipe => return dev
    | .inode => do
      ilock x.ip
      let r ← readi x.ip x.off n dev
      setFile f (advance (r.getD []).length)
      iunlock x.ip
      return r
    | .none => panic "fileread"

def writeMax : Nat := (10 - 1 - 1 - 2) / 2 * 512

def filewriteChunk (f : FRef) (ip : IRef) (src : List UInt8) : M (Option Nat) := do
  beginOp
  ilock ip
  let off ← look fun s => (s.ftable f).off
  let r ← writei ip src off
  setFile f (advance (r.getD 0))
  iunlock ip
  endOp
  return r

/-- The loop of `filewrite` over the bytes `src` that are left; whether all were written. Each pass writes at
least one byte. -/
def filewriteLoop (f : FRef) (ip : IRef) : Nat → List UInt8 → M Bool
  | 0, _ => return true
  | fuel + 1, src =>
    if src = [] then return true
    else do
      let n1 := min src.length writeMax
      let r ← filewriteChunk f ip (src.take n1)
      match r with
      | none => return false
      | some m => if m ≠ n1 then panic "short filewrite" else filewriteLoop f ip fuel (src.drop n1)

def filewrite (f : FRef) (src : List UInt8) (dev : Int) : M Int := do
  let x ← look fun s => s.ftable f
  if x.writable = false then return -1
  else
    match x.type with
    | .pipe => return dev
    | .inode => do
      let ok ← filewriteLoop f x.ip src.length src
      return if ok then src.length else -1
    | .none => panic "filewrite"

/-! ## System calls (sysfile.c) -/

def argfd (p : PIdx) (fd : Int) : M (Option (Fin NOFILE × FRef)) := do
  let x ← look fun s => s.proc p
  if h : 0 ≤ fd ∧ fd < NOFILE then
    let i : Fin NOFILE := ⟨fd.toNat, by omega⟩
    return (x.ofile i).map fun f => (i, f)
  else return none

def fdalloc (p : PIdx) (f : FRef) : M (Option (Fin NOFILE)) := do
  let x ← look fun s => s.proc p
  match (List.finRange NOFILE).find? fun fd => (x.ofile fd).isNone with
  | some fd => do
    setProc p fun x => { x with ofile := Function.update x.ofile fd (some f) }
    return some fd
  | none => return none

def sysDup (p : PIdx) (fd : Int) : M Int := do
  match ← argfd p fd with
  | none => return -1
  | some (_, f) =>
    match ← fdalloc p f with
    | none => return -1
    | some fd => do
      filedup f
      return fd.val

def sysRead (p : PIdx) (fd : Int) (n : Nat) (dev : Option (List UInt8)) : M (Option (List UInt8)) := do
  match ← argfd p fd with
  | none => return none
  | some (_, f) => fileread f n dev

def sysWrite (p : PIdx) (fd : Int) (src : List UInt8) (dev : Int) : M Int := do
  match ← argfd p fd with
  | none => return -1
  | some (_, f) => filewrite f src dev

def sysClose (p : PIdx) (fd : Int) : M Int := do
  match ← argfd p fd with
  | none => return -1
  | some (i, f) => do
    setProc p fun x => { x with ofile := Function.update x.ofile i none }
    fileclose f
    return 0

def sysFstat (p : PIdx) (fd : Int) : M Int := do
  match ← argfd p fd with
  | none => return -1
  | some (_, f) => filestat f

/-- The value of an expression stored in an `int`. -/
def int (x : Int) : Int := Int.bmod x UINT

/-- `new_offset` of `sys_lseek`, if `whence` is `SEEK_SET`, `SEEK_CUR` or `SEEK_END`. -/
def newOffset (off size : Nat) (offset whence : Int) : Option Int :=
  if whence = 0 then some offset
  else if whence = 1 then some (int (off + offset))
  else if whence = 2 then some (int (size + offset))
  else none

def sysLseek (p : PIdx) (fd offset whence : Int) : M Int := do
  match ← argfd p fd with
  | none => return -1
  | some (_, f) => do
    let x ← look fun s => s.ftable f
    if x.type ≠ .inode then return -1
    else do
      acquire x.ip
      let ip ← inode x.ip
      release x.ip
      match newOffset x.off ip.copy.size offset whence with
      | none => return -1
      | some new =>
        if new < 0 then return -1
        else do
          setFile f fun x => { x with off := new.toNat }
          return new

/-- The assignments to the fields of a locked inode, and the `iupdate` that follows them. -/
def iwrite (k : IRef) (f : Dinode → Dinode) : M Unit := do
  setCopy k f
  iupdate k

def addNlink (k : IRef) (x : Int) : M Unit := iwrite k fun d => { d with nlink := short (d.nlink + x) }

def linkBad (ip : IRef) : M Int := do
  ilock ip
  addNlink ip (-1)
  iunlockput ip
  endOp
  return -1

/-- `sys_link` from the look-up of the new name on. -/
def linkNew (p : PIdx) (ip : IRef) (new : List UInt8) : M Int := do
  match ← nameiparent p new with
  | none => linkBad ip
  | some (dp, name) => do
    ilock dp
    let x ← inode ip
    let r ← dirlink dp name x.inum
    if r < 0 then do
      iunlockput dp
      linkBad ip
    else do
      iunlockput dp
      iput ip
      endOp
      return 0

def sysLink (p : PIdx) (old new : List UInt8) : M Int := do
  beginOp
  match ← namei p old with
  | none => do
    endOp
    return -1
  | some ip => do
    ilock ip
    let x ← inode ip
    if x.copy.type = .dir then do
      iunlockput ip
      endOp
      return -1
    else do
      addNlink ip 1
      iunlock ip
      linkNew p ip new

def isdiremptyLoop (dp : IRef) : Nat → Nat → M Bool
  | 0, _ => return true
  | fuel + 1, off => do
    let de ← readDirent dp off "isdirempty: readi"
    if de.inum ≠ 0 then return false else isdiremptyLoop dp fuel (off + DESIZE)

def isdirempty (dp : IRef) : M Bool := do
  let d ← inode dp
  isdiremptyLoop dp (direntsIn d.copy.size - 2) (2 * DESIZE)

def unlinkBad (dp : IRef) : M Int := do
  iunlockput dp
  endOp
  return -1

def nonEmptyDir (ip : IRef) : M Bool := do
  let x ← inode ip
  if x.copy.type = .dir then do
    let e ← isdirempty ip
    return !e
  else return false

/-- `if(ip->type == T_DIR){ dp->nlink--; iupdate(dp); }`. -/
def dropParent (dp ip : IRef) : M Unit := do
  let x ← inode ip
  if x.copy.type = .dir then addNlink dp (-1) else return ()

/-- `sys_unlink` once the entry at `off` is known to name `ip`. -/
def unlinkEntry (dp ip : IRef) (off : Nat) : M Int := do
  ilock ip
  let x ← inode ip
  if x.copy.nlink < 1 then panic "unlink: nlink < 1"
  else if ← nonEmptyDir ip then do
    iunlockput ip
    unlinkBad dp
  else do
    let r ← writei dp Dirent.zero.encode off
    if r ≠ some DESIZE then panic "unlink: writei"
    else do
      dropParent dp ip
      iunlockput dp
      addNlink ip (-1)
      iunlockput ip
      endOp
      return 0

def sysUnlink (p : PIdx) (path : List UInt8) : M Int := do
  beginOp
  match ← nameiparent p path with
  | none => do
    endOp
    return -1
  | some (dp, name) => do
    ilock dp
    if namecmp name dot = 0 ∨ namecmp name dotdot = 0 then unlinkBad dp
    else
      match ← dirlookup dp name with
      | none => unlinkBad dp
      | some (ip, off) => unlinkEntry dp ip off

def createOld (dp ip : IRef) (type : FType) : M (Option IRef) := do
  iunlockput dp
  ilock ip
  let x ← inode ip
  if type = .file ∧ x.copy.type = .file then return some ip
  else do
    iunlockput ip
    return none

def createDots (dp ip : IRef) : M Unit := do
  addNlink dp 1
  let x ← inode ip
  let d ← inode dp
  let r₁ ← dirlink ip dot x.inum
  if r₁ < 0 then panic "create dots"
  else do
    let r₂ ← dirlink ip dotdot d.inum
    if r₂ < 0 then panic "create dots" else return ()

def createDir (dp ip : IRef) (type : FType) : M Unit := if type = .dir then createDots dp ip else return ()

def createNew (dp : IRef) (name : Name) (type : FType) (major minor : Int) : M (Option IRef) := do
  let ip ← ialloc type
  ilock ip
  iwrite ip fun d => { d with major := short major, minor := short minor, nlink := 1 }
  createDir dp ip type
  let x ← inode ip
  let r ← dirlink dp name x.inum
  if r < 0 then panic "create: dirlink"
  else do
    iunlockput dp
    return some ip

def create (p : PIdx) (path : List UInt8) (type : FType) (major minor : Int) : M (Option IRef) := do
  match ← nameiparent p path with
  | none => return none
  | some (dp, name) => do
    ilock dp
    match ← dirlookup dp name with
    | some (ip, _) => createOld dp ip type
    | none => createNew dp name type major minor

/-- `O_WRONLY`, `O_RDWR` and `O_CREATE` in `omode`. -/
def hasFlag (omode flag : Nat) : Bool := omode &&& flag != 0

/-- `f->type = FD_INODE; f->ip = ip; f->off = 0; ...` -/
def openFile (omode : Nat) (ip : IRef) (x : File) : File :=
  { x with
    type := .inode
    ip := ip
    off := 0
    readable := !hasFlag omode 1
    writable := hasFlag omode 1 || hasFlag omode 2 }

/-- `sys_open` once it has the inode, locked. -/
def openInode (p : PIdx) (ip : IRef) (omode : Nat) : M Int := do
  match ← filealloc with
  | none => do
    iunlockput ip
    endOp
    return -1
  | some f =>
    match ← fdalloc p f with
    | none => do
      fileclose f
      iunlockput ip
      endOp
      return -1
    | some fd => do
      iunlock ip
      endOp
      setFile f (openFile omode ip)
      return fd.val

def sysOpen (p : PIdx) (path : List UInt8) (omode : Nat) : M Int := do
  beginOp
  if hasFlag omode 0x200 then
    match ← create p path .file 0 0 with
    | none => do
      endOp
      return -1
    | some ip => openInode p ip omode
  else
    match ← namei p path with
    | none => do
      endOp
      return -1
    | some ip => do
      ilock ip
      let x ← inode ip
      if x.copy.type = .dir ∧ omode ≠ 0 then do
        iunlockput ip
        endOp
        return -1
      else openInode p ip omode

/-- `sys_mkdir` and `sys_mknod` after `create`. -/
def made (r : Option IRef) : M Int :=
  match r with
  | none => do
    endOp
    return -1
  | some ip => do
    iunlockput ip
    endOp
    return 0

def sysMkdir (p : PIdx) (path : List UInt8) : M Int := do
  beginOp
  let r ← create p path .dir 0 0
  made r

def sysMknod (p : PIdx) (path : List UInt8) (major minor : Int) : M Int := do
  beginOp
  let r ← create p path .dev major minor
  made r

def iputCwd (p : PIdx) : M Unit := do
  match ← look fun s => (s.proc p).cwd with
  | some cwd => iput cwd
  | none => stop .notEnabled

def sysChdir (p : PIdx) (path : List UInt8) : M Int := do
  beginOp
  match ← namei p path with
  | none => do
    endOp
    return -1
  | some ip => do
    ilock ip
    let x ← inode ip
    if x.copy.type ≠ .dir then do
      iunlockput ip
      endOp
      return -1
    else do
      iunlock ip
      iputCwd p
      endOp
      setProc p fun x => { x with cwd := some ip }
      return 0

/-- The part of `exec` that works on the program file. -/
def sysExec (p : PIdx) (path : List UInt8) (reads : List (Nat × Nat)) (dev : Option (List UInt8)) : M Int := do
  beginOp
  match ← namei p path with
  | none => do
    endOp
    return -1
  | some ip => do
    ilock ip
    each reads fun r => do
      let _ ← readi ip r.1 r.2 dev
      return ()
    iunlockput ip
    endOp
    return 0

/-- `pipealloc`; `ok` tells whether `kalloc` succeeds. -/
def pipealloc (ok : Bool) : M (Option (FRef × FRef)) := do
  match ← filealloc with
  | none => return none
  | some f0 =>
    match ← filealloc with
    | none => do
      fileclose f0
      return none
    | some f1 =>
      if ok then do
        setFile f0 fun x => { x with type := .pipe, readable := true, writable := false }
        setFile f1 fun x => { x with type := .pipe, readable := false, writable := true }
        return some (f0, f1)
      else do
        fileclose f0
        fileclose f1
        return none

def sysPipe (p : PIdx) (ok : Bool) : M Int := do
  match ← pipealloc ok with
  | none => return -1
  | some (rf, wf) =>
    match ← fdalloc p rf with
    | none => do
      fileclose rf
      fileclose wf
      return -1
    | some fd0 =>
      match ← fdalloc p wf with
      | none => do
        setProc p fun x => { x with ofile := Function.update x.ofile fd0 none }
        fileclose rf
        fileclose wf
        return -1
      | some _ => return 0

def forkFile (p np : PIdx) (fd : Fin NOFILE) : M Unit := do
  match ← look fun s => (s.proc p).ofile fd with
  | some f => do
    filedup f
    setProc np fun x => { x with ofile := Function.update x.ofile fd (some f) }
  | none => return ()

/-- `fork` of `p` into the free process `np`, once memory has been copied. -/
def sysFork (p np : PIdx) : M Int := do
  let x ← look fun s => s.proc np
  if x.cwd ≠ none ∨ ∃ fd, x.ofile fd ≠ none then stop .notEnabled
  else do
    each (List.finRange NOFILE) (forkFile p np)
    match ← look fun s => (s.proc p).cwd with
    | some cwd => do
      let k ← idup cwd
      setProc np fun x => { x with cwd := some k }
      return 1
    | none => stop .notEnabled

def exitFile (p : PIdx) (fd : Fin NOFILE) : M Unit := do
  match ← look fun s => (s.proc p).ofile fd with
  | some f => do
    fileclose f
    setProc p fun x => { x with ofile := Function.update x.ofile fd none }
  | none => return ()

/-- `exit`, as far as files go. Process 0 is init. -/
def sysExit (p : PIdx) : M Int :=
  if p.val = 0 then panic "init exiting"
  else do
    each (List.finRange NOFILE) (exitFile p)
    beginOp
    iputCwd p
    endOp
    setProc p fun x => { x with cwd := none }
    return 0

/-! ## Runs -/

inductive Call where
  | open (path : List UInt8) (omode : Nat)
  | close (fd : Int)
  | dup (fd : Int)
  | read (fd : Int) (n : Nat) (dev : Option (List UInt8))
  | write (fd : Int) (src : List UInt8) (dev : Int)
  | lseek (fd offset whence : Int)
  | fstat (fd : Int)
  | link (old new : List UInt8)
  | unlink (path : List UInt8)
  | mkdir (path : List UInt8)
  | mknod (path : List UInt8) (major minor : Int)
  | chdir (path : List UInt8)
  | exec (path : List UInt8) (reads : List (Nat × Nat)) (dev : Option (List UInt8))
  | pipe (ok : Bool)
  | fork (np : PIdx)
  | exit

/-- A system call by process `p`, with its return value. -/
def syscall (p : PIdx) : Call → M Int
  | .open path omode => sysOpen p path omode
  | .close fd => sysClose p fd
  | .dup fd => sysDup p fd
  | .read fd n dev => do
    let r ← sysRead p fd n dev
    return readResult r
  | .write fd src dev => sysWrite p fd src dev
  | .lseek fd offset whence => sysLseek p fd offset whence
  | .fstat fd => sysFstat p fd
  | .link old new => sysLink p old new
  | .unlink path => sysUnlink p path
  | .mkdir path => sysMkdir p path
  | .mknod path major minor => sysMknod p path major minor
  | .chdir path => sysChdir p path
  | .exec path reads dev => sysExec p path reads dev
  | .pipe ok => sysPipe p ok
  | .fork np => sysFork p np
  | .exit => sysExit p

abbrev Act : Type := PIdx × Call

/-- One system call of a live process, as a whole. -/
def step (s : FS) (a : Act) : Except Stop FS :=
  if (s.proc a.1).cwd = none then .error .notEnabled
  else
    match syscall a.1 a.2 s with
    | .ok (_, s') => .ok s'
    | .error e => .error e

structure Image where
  sb : Superblock
  inode : Nat → Dinode
  bitmap : Nat → Bool
  data : Nat → Block

/-- The kernel has booted from the image: init runs, its current directory is the root directory. -/
def start (img : Image) : FS where
  sb := img.sb
  inode := img.inode
  bitmap := img.bitmap
  data := img.data
  icache := fun k => ⟨if k.val = 0 then ROOTINO else 0, if k.val = 0 then 1 else 0, false, false, .zero⟩
  ftable := fun _ => ⟨.none, 0, false, false, 0, 0⟩
  proc := fun p => ⟨fun _ => none, if p.val = 0 then some 0 else none⟩
  outstanding := 0
  logged := []

/-- A system call of a run: the state it is made in, and the call. -/
abbrev Event : Type := FS × Act

/-- `FRun img h s`: booted from `img`, the system calls in `h` (latest first) lead to `s`. -/
abbrev FRun (img : Image) (h : List Event) (s : FS) : Prop := Run step (start img) h s

end Xv6Mlfq.Fs
