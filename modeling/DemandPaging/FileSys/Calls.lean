/-
The file-system calls of `sysfile.c` and `file.c`: the file table, the descriptors and the current
directory of each process, and what fork, exec, exit and a page fault do to them. Each call is one
step; of `filewrite` one round of its loop is, for each round is a transaction of its own.
-/
import DemandPaging.FileSys.Dir
import DemandPaging.FileSys.Log
import DemandPaging.Kernel.State

namespace DemandPaging.FileSys

open Function

/-! ## State -/

/-- `NFILE`: open files of the system. -/
abbrev nFile : Nat := 100
/-- `NOFILE`: open files of a process. -/
abbrev nOFile : Nat := 16

instance : NeZero nFile := ⟨by decide⟩

instance : NeZero nOFile := ⟨by decide⟩

/-- `type` of a `struct file`. -/
inductive FdType
  | none
  | pipe
  | inode
  deriving DecidableEq, Repr

abbrev FileIdx := Fin nFile
abbrev Fd := Fin nOFile

/-- `struct file`. -/
structure File where
  type : FdType
  ref : Nat
  readable : Bool
  writable : Bool
  ip : InodeIdx
  off : Nat
  deriving DecidableEq

/-- The fields of `struct proc` that name files: the current directory, the descriptors, and the inode
of the program, of which `exec` keeps the numbers only. -/
structure Task where
  cwd : InodeIdx
  ofile : Fd → Option FileIdx
  dev : Nat
  inum : Nat

/-- A process that has not started, or has exited, has no task. -/
structure Sys where
  fs : Fsys
  ftable : FileIdx → File
  task : ProcIdx → Option Task

abbrev SysM (α : Type) := StateT Sys (Except Stuck) α

/-- A part of a call that only looks at the disk and the inode cache. -/
def onFs {α : Type} (x : FsM α) : SysM α := fun s => do
  let (a, fs) ← x s.fs
  return (a, { s with fs })

/-- `myproc()`. -/
def curproc (p : ProcIdx) : SysM Task := fun s =>
  match s.task p with
  | some t => .ok (t, s)
  | none => .error .badPtr

def setTask (p : ProcIdx) (t : Option Task) : SysM Unit := modify fun s => { s with task := update s.task p t }

def setFile (f : FileIdx) (g : File → File) : SysM Unit :=
  modify fun s => { s with ftable := update s.ftable f (g (s.ftable f)) }

/-! ## The file table -/

/-- `filealloc`. -/
def filealloc : SysM (Option FileIdx) := do
  let s ← get
  match (List.finRange nFile).find? fun f => (s.ftable f).ref == 0 with
  | some f =>
    setFile f fun ff => { ff with ref := 1 }
    return some f
  | none => return none

/-- `filedup`. -/
def filedup (f : FileIdx) : SysM Unit := do
  if ((← get).ftable f).ref < 1 then onFs (stuck "filedup")
  else setFile f fun ff => { ff with ref := ff.ref + 1 }

/-- `fileclose`. -/
def fileclose (f : FileIdx) : SysM Unit := do
  let ff := (← get).ftable f
  if ff.ref < 1 then onFs (stuck "fileclose")
  else if 1 < ff.ref then setFile f fun ff => { ff with ref := ff.ref - 1 }
  else do
    setFile f fun ff => { ff with ref := 0, type := .none }
    if ff.type = .inode then onFs (iput ff.ip) else return ()

/-- `fdalloc`. -/
def fdalloc (p : ProcIdx) (f : FileIdx) : SysM (Option Fd) := do
  let t ← curproc p
  match (List.finRange nOFile).find? fun fd => t.ofile fd == none with
  | some fd =>
    setTask p (some { t with ofile := update t.ofile fd (some f) })
    return some fd
  | none => return none

/-! ## Inodes -/

/-- Change the inode in the cache and on the disk. -/
def setUpdate (i : InodeIdx) (g : Dinode → Dinode) : FsM Unit := do
  setDinode i g
  iupdate i

/-- `readi`; `dev` is what the device returns. -/
def readInode (i : InodeIdx) (off n : Nat) (dev : Option (List UInt8)) : FsM (Option (List UInt8)) := do
  let d := ((← get).icache i).d
  if d.type = tDev then
    return if d.major < 0 ∨ nDev ≤ d.major then none else dev
  else readi i off n

/-- `writei`; `dev` is what the device returns. -/
def writeInode (i : InodeIdx) (src : List UInt8) (off : Nat) (dev : Option Nat) : FsM (Option Nat) := do
  let d := ((← get).icache i).d
  if d.type = tDev then
    return if d.major < 0 ∨ nDev ≤ d.major then none else dev
  else writei i src off

/-- The loop of `isdirempty` from `off`. -/
def emptyLoop (i : InodeIdx) : Nat → Nat → FsM Bool
  | 0, _ => return true
  | n + 1, off => do
    if ((← get).icache i).d.size ≤ off then return true
    else do
      let de ← readEntry i off "isdirempty: readi"
      if de.inum ≠ 0 then return false
      else emptyLoop i n (off + direntSize)

/-- `isdirempty`. -/
def isdirempty (i : InodeIdx) : FsM Bool := do
  emptyLoop i ((← get).icache i).d.size (2 * direntSize)

/-! ## Names -/

/-- A name that `create` adds, which the caller has made sure is not there. -/
def mustLink (dp : InodeIdx) (name : List UInt8) (inum : Nat) (msg : String) : FsM Unit := do
  if ← dirlink dp name inum then return () else stuck msg

/-- The part of `create` that makes `.` and `..`. -/
def createDots (dp ip : InodeIdx) : FsM Unit := do
  setUpdate dp fun d => { d with nlink := short (d.nlink + 1) }
  mustLink ip [46] ((← get).icache ip).inum "create dots"
  mustLink ip [46, 46] ((← get).icache dp).inum "create dots"

/-- The part of `create` that makes a new inode. -/
def createNew (dp : InodeIdx) (name : List UInt8) (type : Nat) (major minor : Int) : FsM InodeIdx := do
  let ip ← ialloc ((← get).icache dp).dev type
  ilock ip
  setUpdate ip fun d => { d with major, minor, nlink := 1 }
  if type = tDir then createDots dp ip else pure ()
  mustLink dp name ((← get).icache ip).inum "create: dirlink"
  iput dp
  return ip

/-- The part of `create` for a name that is there. -/
def createOld (dp ip : InodeIdx) (type : Nat) : FsM (Option InodeIdx) := do
  iput dp
  ilock ip
  if type = tFile ∧ ((← get).icache ip).d.type = tFile then return some ip
  else do
    iput ip
    return none

/-- `create`. -/
def create (cwd : InodeIdx) (path : List UInt8) (type : Nat) (major minor : Int) : FsM (Option InodeIdx) := do
  match ← nameiparent cwd path with
  | none => return none
  | some (dp, name) => do
    ilock dp
    match ← dirlookup dp name with
    | some (ip, _) => createOld dp ip type
    | none => return some (← createNew dp name type major minor)

/-- The undoing of `sys_link`. -/
def linkUndo (ip : InodeIdx) : FsM Unit := do
  ilock ip
  setUpdate ip fun d => { d with nlink := short (d.nlink - 1) }
  iput ip

/-- The part of `sys_link` that adds the new name. -/
def linkTo (cwd ip : InodeIdx) (new : List UInt8) : FsM Unit := do
  match ← nameiparent cwd new with
  | none => linkUndo ip
  | some (dp, name) => do
    ilock dp
    let s ← get
    if (s.icache dp).dev ≠ (s.icache ip).dev then do
      iput dp
      linkUndo ip
    else if ← dirlink dp name (s.icache ip).inum then do
      iput dp
      iput ip
    else do
      iput dp
      linkUndo ip

/-- `sys_link`. -/
def link (cwd : InodeIdx) (old new : List UInt8) : FsM Unit := do
  match ← namei cwd old with
  | none => return ()
  | some ip => do
    ilock ip
    if ((← get).icache ip).d.type = tDir then iput ip
    else do
      setUpdate ip fun d => { d with nlink := short (d.nlink + 1) }
      linkTo cwd ip new

/-- The part of `sys_unlink` that removes the entry at `off`. -/
def unlinkAt (dp ip : InodeIdx) (off : Nat) : FsM Unit := do
  match ← writei dp (List.replicate direntSize 0) off with
  | none => stuck "unlink: writei"
  | some n =>
    if n ≠ direntSize then stuck "unlink: writei"
    else do
      if ((← get).icache ip).d.type = tDir then setUpdate dp fun d => { d with nlink := short (d.nlink - 1) } else pure ()
      iput dp
      setUpdate ip fun d => { d with nlink := short (d.nlink - 1) }
      iput ip

/-- The part of `sys_unlink` for a name that is there. -/
def unlinkFound (dp ip : InodeIdx) (off : Nat) : FsM Unit := do
  ilock ip
  let d := ((← get).icache ip).d
  if d.nlink < 1 then stuck "unlink: nlink < 1"
  else do
    let keep ← if d.type = tDir then not <$> isdirempty ip else pure false
    if keep then do
      iput ip
      iput dp
    else unlinkAt dp ip off

/-- `sys_unlink`. -/
def unlink (cwd : InodeIdx) (path : List UInt8) : FsM Unit := do
  match ← nameiparent cwd path with
  | none => return ()
  | some (dp, name) => do
    ilock dp
    if namecmp name [46] ∨ namecmp name [46, 46] then iput dp
    else
      match ← dirlookup dp name with
      | none => iput dp
      | some (ip, off) => unlinkFound dp ip off

/-- The inode that `sys_open` opens. -/
def openInode (cwd : InodeIdx) (path : List UInt8) (omode : Nat) : FsM (Option InodeIdx) := do
  if omode.testBit 9 then create cwd path tFile 0 0
  else
    match ← namei cwd path with
    | none => return none
    | some ip => do
      ilock ip
      if ((← get).icache ip).d.type = tDir ∧ omode ≠ 0 then do
        iput ip
        return none
      else return some ip

/-! ## System calls -/

/-- `sys_open`. -/
def sysOpen (p : ProcIdx) (path : List UInt8) (omode : Nat) : SysM Unit := do
  match ← onFs (openInode (← curproc p).cwd path omode) with
  | none => return ()
  | some ip =>
    match ← filealloc with
    | none => onFs (iput ip)
    | some f =>
      match ← fdalloc p f with
      | none => do
        fileclose f
        onFs (iput ip)
      | some _ => setFile f fun ff =>
          { ff with type := .inode, ip, off := 0, readable := !omode.testBit 0, writable := omode.testBit 0 || omode.testBit 1 }

/-- What is done with the inode that `create` has returned to `sys_mkdir` and `sys_mknod`. -/
def putNew : Option InodeIdx → FsM Unit
  | some ip => iput ip
  | none => return ()

/-- `sys_mkdir`. -/
def sysMkdir (p : ProcIdx) (path : List UInt8) : SysM Unit := do
  let t ← curproc p
  onFs do putNew (← create t.cwd path tDir 0 0)

/-- `sys_mknod`. -/
def sysMknod (p : ProcIdx) (path : List UInt8) (major minor : Int) : SysM Unit := do
  let t ← curproc p
  onFs do putNew (← create t.cwd path tDev (short major) (short minor))

def sysLink (p : ProcIdx) (old new : List UInt8) : SysM Unit := do
  onFs (link (← curproc p).cwd old new)

def sysUnlink (p : ProcIdx) (path : List UInt8) : SysM Unit := do
  onFs (unlink (← curproc p).cwd path)

/-- The directory that `sys_chdir` goes to. -/
def chdirInode (cwd : InodeIdx) (path : List UInt8) : FsM (Option InodeIdx) := do
  match ← namei cwd path with
  | none => return none
  | some ip => do
    ilock ip
    if ((← get).icache ip).d.type ≠ tDir then do
      iput ip
      return none
    else do
      iput cwd
      return some ip

/-- `sys_chdir`. -/
def sysChdir (p : ProcIdx) (path : List UInt8) : SysM Unit := do
  let t ← curproc p
  match ← onFs (chdirInode t.cwd path) with
  | none => return ()
  | some ip => setTask p (some { t with cwd := ip })

/-- `argfd`. -/
def argfd (p : ProcIdx) (fd : Fd) : SysM (Option FileIdx) := do
  return (← curproc p).ofile fd

/-- `sys_close`. -/
def sysClose (p : ProcIdx) (fd : Fd) : SysM Unit := do
  let t ← curproc p
  match t.ofile fd with
  | none => return ()
  | some f => do
    setTask p (some { t with ofile := update t.ofile fd none })
    fileclose f

/-- `sys_dup`. -/
def sysDup (p : ProcIdx) (fd : Fd) : SysM Unit := do
  match ← argfd p fd with
  | none => return ()
  | some f =>
    match ← fdalloc p f with
    | none => return ()
    | some _ => filedup f

/-- `fileread`. -/
def fileread (f : FileIdx) (n : Nat) (dev : Option (List UInt8)) : SysM Unit := do
  let ff := (← get).ftable f
  if !ff.readable then return ()
  else
    match ff.type with
    | .none => onFs (stuck "fileread")
    | .pipe => return ()
    | .inode => do
      onFs (ilock ff.ip)
      match ← onFs (readInode ff.ip ff.off n dev) with
      | none => return ()
      | some bs => setFile f fun ff => { ff with off := (ff.off + bs.length) % wordSize }

def sysRead (p : ProcIdx) (fd : Fd) (n : Nat) (dev : Option (List UInt8)) : SysM Unit := do
  match ← argfd p fd with
  | none => return ()
  | some f => fileread f n dev

/-- `filestat`. -/
def filestat (f : FileIdx) : SysM Unit := do
  let ff := (← get).ftable f
  if ff.type = .inode then onFs (ilock ff.ip) else return ()

def sysFstat (p : ProcIdx) (fd : Fd) : SysM Unit := do
  match ← argfd p fd with
  | none => return ()
  | some f => filestat f

/-- `max` of `filewrite`, the bytes that it writes in one transaction. -/
def maxWrite : Nat := (maxOpBlocks - 1 - 1 - 2) / 2 * 512

/-- One round of the loop of `filewrite`. -/
def filewrite (f : FileIdx) (src : List UInt8) (dev : Option Nat) : SysM Unit := do
  let ff := (← get).ftable f
  if !ff.writable then return ()
  else
    match ff.type with
    | .none => onFs (stuck "filewrite")
    | .pipe => return ()
    | .inode => do
      onFs (ilock ff.ip)
      match ← onFs (writeInode ff.ip (src.take maxWrite) ff.off dev) with
      | none => return ()
      | some r => do
        setFile f fun ff => { ff with off := (ff.off + r) % wordSize }
        if r ≠ (src.take maxWrite).length then onFs (stuck "short filewrite") else return ()

def sysWrite (p : ProcIdx) (fd : Fd) (src : List UInt8) (dev : Option Nat) : SysM Unit := do
  match ← argfd p fd with
  | none => return ()
  | some f => filewrite f src dev

/-- The two files of `pipealloc`; `mem` tells whether there is memory for the pipe. -/
def pipealloc (mem : Bool) : SysM (Option (FileIdx × FileIdx)) := do
  match ← filealloc with
  | none => return none
  | some f0 =>
    match ← filealloc with
    | none => do
      fileclose f0
      return none
    | some f1 =>
      if mem then do
        setFile f0 fun ff => { ff with type := .pipe, readable := true, writable := false }
        setFile f1 fun ff => { ff with type := .pipe, readable := false, writable := true }
        return some (f0, f1)
      else do
        fileclose f0
        fileclose f1
        return none

/-- `sys_pipe`. -/
def sysPipe (p : ProcIdx) (mem : Bool) : SysM Unit := do
  match ← pipealloc mem with
  | none => return ()
  | some (rf, wf) =>
    match ← fdalloc p rf with
    | none => do
      fileclose rf
      fileclose wf
    | some fd0 =>
      match ← fdalloc p wf with
      | none => do
        let t ← curproc p
        setTask p (some { t with ofile := update t.ofile fd0 none })
        fileclose rf
        fileclose wf
      | some _ => return ()

/-! ## Processes -/

/-- What `exec` reads of the file: the header, and then `n` program headers, after which its loop ends or
the call fails. -/
def execReads (ip : InodeIdx) (dev : Option (List UInt8)) : List (Nat × Nat) → FsM Unit
  | [] => return ()
  | (off, n) :: rs => do
    let _ ← readInode ip off n dev
    execReads ip dev rs

/-- The file-system part of `exec`, which lets go of the inode on each of its ways out. -/
def execInode (cwd : InodeIdx) (path : List UInt8) (reads : List (Nat × Nat)) (dev : Option (List UInt8)) :
    FsM (Option (Nat × Nat)) := do
  match ← namei cwd path with
  | none => return none
  | some ip => do
    ilock ip
    let ino := (← get).icache ip
    execReads ip dev reads
    iput ip
    return some (ino.dev, ino.inum)

/-- `exec`; `getinode` keeps the numbers of the inode, whether the rest succeeds or not. -/
def sysExec (p : ProcIdx) (path : List UInt8) (reads : List (Nat × Nat)) (dev : Option (List UInt8)) : SysM Unit := do
  let t ← curproc p
  match ← onFs (execInode t.cwd path reads dev) with
  | none => return ()
  | some (dev, inum) => setTask p (some { t with dev, inum })

/-- The part of `pgflt_handler` that loads a page from the program's file. -/
def faultInode (dev inum : Nat) (reads : List (Nat × Nat)) : FsM Unit := do
  let ip ← iget dev inum
  execReads ip none reads

def pgfault (p : ProcIdx) (reads : List (Nat × Nat)) : SysM Unit := do
  let t ← curproc p
  onFs (faultInode t.dev t.inum reads)

/-- The loop of `fork` over the descriptors. -/
def dupAll : List (Option FileIdx) → SysM Unit
  | [] => return ()
  | none :: fs => dupAll fs
  | some f :: fs => do
    filedup f
    dupAll fs

/-- `fork` into the slot `q` of the process table, in which `dev` and `inum` are left from before. -/
def sysFork (p q : ProcIdx) (dev inum : Nat) : SysM Unit := do
  let t ← curproc p
  if ((← get).task q).isSome then return ()
  else do
    dupAll ((List.finRange nOFile).map t.ofile)
    let cwd ← onFs (idup t.cwd)
    setTask q (some { t with cwd, dev, inum })

/-- The loop of `exit` over the descriptors, which closes each of them. -/
def closeAll (p : ProcIdx) : List Fd → SysM Unit
  | [] => return ()
  | fd :: fds => do
    sysClose p fd
    closeAll p fds

/-- `exit`; the first process must not. -/
def sysExit (p : ProcIdx) : SysM Unit := do
  if p = 0 then onFs (stuck "init exiting")
  else do
    closeAll p (List.finRange nOFile)
    let t ← curproc p
    onFs (iput t.cwd)
    setTask p none

/-! ## Runs -/

/-- A step of a process. -/
inductive Call
  | open (path : List UInt8) (omode : Nat)
  | mkdir (path : List UInt8)
  | mknod (path : List UInt8) (major minor : Int)
  | link (old new : List UInt8)
  | unlink (path : List UInt8)
  | chdir (path : List UInt8)
  | close (fd : Fd)
  | dup (fd : Fd)
  | read (fd : Fd) (n : Nat) (dev : Option (List UInt8))
  | fstat (fd : Fd)
  | write (fd : Fd) (src : List UInt8) (dev : Option Nat)
  | pipe (mem : Bool)
  | exec (path : List UInt8) (reads : List (Nat × Nat)) (dev : Option (List UInt8))
  | fault (reads : List (Nat × Nat))
  | fork (q : ProcIdx) (dev inum : Nat)
  | exit

def Call.run (p : ProcIdx) : Call → SysM Unit
  | .open path omode => sysOpen p path omode
  | .mkdir path => sysMkdir p path
  | .mknod path major minor => sysMknod p path major minor
  | .link old new => sysLink p old new
  | .unlink path => sysUnlink p path
  | .chdir path => sysChdir p path
  | .close fd => sysClose p fd
  | .dup fd => sysDup p fd
  | .read fd n dev => sysRead p fd n dev
  | .fstat fd => sysFstat p fd
  | .write fd src dev => sysWrite p fd src dev
  | .pipe mem => sysPipe p mem
  | .exec path reads dev => sysExec p path reads dev
  | .fault reads => pgfault p reads
  | .fork q dev inum => sysFork p q dev inum
  | .exit => sysExit p

/-- The system when the first process has been set up, with `namei("/")` for its current directory. -/
def Sys.boot (fs : Fsys) : Except Stuck Sys := do
  match ← namei 0 [slash] fs with
  | (some cwd, fs) => return ⟨fs, fun _ => ⟨.none, 0, false, false, 0, 0⟩, update (fun _ => none) 0 (some ⟨cwd, fun _ => none, 0, 0⟩)⟩
  | (none, _) => .error .badPtr

/-- A run of calls by any processes in any order, none of which panics. -/
inductive Runs : List (ProcIdx × Call) → Sys → Sys → Prop
  | nil (s : Sys) : Runs [] s s
  | cons {p : ProcIdx} {c : Call} {cs : List (ProcIdx × Call)} {s s₁ s' : Sys} :
      c.run p s = .ok ((), s₁) → Runs cs s₁ s' → Runs ((p, c) :: cs) s s'

/-- The calls one after the other. -/
def runCalls : List (ProcIdx × Call) → Sys → Except Stuck Sys
  | [], s => .ok s
  | (p, c) :: cs, s => do
    let (_, s) ← c.run p s
    runCalls cs s

theorem runs_of_runCalls : ∀ {cs : List (ProcIdx × Call)} {s s' : Sys}, runCalls cs s = .ok s' → Runs cs s s'
  | [], s, s', h => by
    cases h
    exact .nil s
  | (p, c) :: cs, s, s', h => by
    unfold runCalls at h
    cases hc : c.run p s with
    | error e =>
      rw [hc] at h
      cases h
    | ok r =>
      rw [hc] at h
      exact .cons hc (runs_of_runCalls h)

/-- A run that is found by evaluation. -/
theorem exists_run {fs : Fsys} {cs : List (ProcIdx × Call)} {P : Sys → Prop} [DecidablePred P]
    (h : (Sys.boot fs >>= runCalls cs).toOption.any (decide <| P ·) = true) : ∃ s₀ s, Sys.boot fs = .ok s₀ ∧ Runs cs s₀ s ∧ P s := by
  cases hb : Sys.boot fs with
  | error e =>
    rw [hb] at h
    cases h
  | ok s₀ =>
    rw [hb] at h
    cases hr : runCalls cs s₀ with
    | error e =>
      have h' : (runCalls cs s₀).toOption.any (decide <| P ·) = true := h
      rw [hr] at h'
      cases h'
    | ok s =>
      have h' : (runCalls cs s₀).toOption.any (decide <| P ·) = true := h
      rw [hr] at h'
      exact ⟨s₀, s, rfl, runs_of_runCalls hr, of_decide_eq_true h'⟩

end DemandPaging.FileSys
