/-
Open files: the file table, the descriptors of the processes, and the pipes with their pages. Every
reference of a `struct file` is a descriptor, whatever call fails for want of a descriptor, a file or a
page, and the page of a pipe is freed once, when the last of its two ends is closed. The inodes behind
files are not part of the model; whether `sys_open` finds one is an argument of the call.
-/
import DemandPaging.FileSys.Calls
import DemandPaging.Ipc.Pipe
import DemandPaging.Lib.Tally

namespace DemandPaging.Ipc

open FileSys (FdType FileIdx Fd nFile nOFile)
open Function Tally

/-! ## The code -/

/-- `struct file`; `pipe` is the page of the pipe. -/
structure File where
  type : FdType
  ref : Nat
  readable : Bool
  writable : Bool
  pipe : Nat

/-- The file table, the descriptors, the pages as pipes and the free pages. `made` and `freed` count how
often a page has become a pipe and how often `pipeclose` has freed it. -/
structure Files where
  ftable : FileIdx → File
  ofile : ProcIdx × Fd → Option FileIdx
  alive : ProcIdx → Bool
  pipes : Nat → Pipe
  free : List Nat
  made : Nat → Nat
  freed : Nat → Nat

namespace Files

def setFile (s : Files) (f : FileIdx) (ff : File) : Files := { s with ftable := update s.ftable f ff }

/-- `filealloc`. -/
@[irreducible] def filealloc (s : Files) : Option FileIdx × Files :=
  match Fin.find? fun f => (s.ftable f).ref = 0 with
  | some f => (some f, s.setFile f { s.ftable f with ref := 1 })
  | none => (none, s)

/-- `filedup`. -/
def filedup (f : FileIdx) (s : Files) : Except Stuck Files :=
  if (s.ftable f).ref < 1 then .error (.panic "filedup")
  else .ok (s.setFile f { s.ftable f with ref := (s.ftable f).ref + 1 })

/-- `pipeclose` of the pipe on page `k`. -/
def closePipe (k : Nat) (writable : Bool) (s : Files) : Files :=
  let (p, gone) := pipeclose (s.pipes k) writable
  let s := { s with pipes := update s.pipes k p }
  if gone then { s with free := k :: s.free, freed := update s.freed k (s.freed k + 1) } else s

/-- `fileclose`. -/
def fileclose (f : FileIdx) (s : Files) : Except Stuck Files :=
  let ff := s.ftable f
  if ff.ref < 1 then .error (.panic "fileclose")
  else if 1 < ff.ref then .ok (s.setFile f { ff with ref := ff.ref - 1 })
  else
    let s := s.setFile f { ff with ref := 0, type := .none }
    .ok (if ff.type = .pipe then s.closePipe ff.pipe ff.writable else s)

/-- `fdalloc`. -/
@[irreducible] def fdalloc (p : ProcIdx) (f : FileIdx) (s : Files) : Option Fd × Files :=
  match Fin.find? fun fd => s.ofile (p, fd) = none with
  | some fd => (some fd, { s with ofile := update s.ofile (p, fd) (some f) })
  | none => (none, s)

/-- The rest of `pipealloc` when there are two files and a page. -/
def makePipe (f0 f1 : FileIdx) (k : Nat) (fl : List Nat) (s : Files) : Files :=
  let s := { s with free := fl, pipes := update s.pipes k (Ipc.pipealloc (s.pipes k).data), made := update s.made k (s.made k + 1) }
  let s := s.setFile f0 { s.ftable f0 with type := .pipe, readable := true, writable := false, pipe := k }
  s.setFile f1 { s.ftable f1 with type := .pipe, readable := false, writable := true, pipe := k }

/-- `pipealloc`. -/
def pipealloc (s : Files) : Except Stuck (Option (FileIdx × FileIdx) × Files) :=
  match s.filealloc with
  | (none, s) => .ok (none, s)
  | (some f0, s) =>
    match s.filealloc with
    | (none, s) => do return (none, ← fileclose f0 s)
    | (some f1, s) =>
      match s.free with
      | [] => do return (none, ← fileclose f1 (← fileclose f0 s))
      | k :: fl => .ok (some (f0, f1), s.makePipe f0 f1 k fl)

/-- `sys_pipe`. -/
def sysPipe (p : ProcIdx) (s : Files) : Except Stuck Files := do
  match ← pipealloc s with
  | (none, s) => return s
  | (some (rf, wf), s) =>
    match fdalloc p rf s with
    | (none, s) => fileclose wf (← fileclose rf s)
    | (some fd0, s) =>
      match fdalloc p wf s with
      | (none, s) => fileclose wf (← fileclose rf { s with ofile := update s.ofile (p, fd0) none })
      | (some _, s) => return s

/-- `sys_open` once it has an inode, or has not. -/
def sysOpen (p : ProcIdx) (found : Bool) (omode : Nat) (s : Files) : Except Stuck Files :=
  if found then
    match s.filealloc with
    | (none, s) => .ok s
    | (some f, s) =>
      match fdalloc p f s with
      | (none, s) => fileclose f s
      | (some _, s) => .ok (s.setFile f { s.ftable f with
          type := .inode, readable := !omode.testBit 0, writable := omode.testBit 0 || omode.testBit 1 })
  else .ok s

/-- `sys_dup`. -/
def sysDup (p : ProcIdx) (fd : Fd) (s : Files) : Except Stuck Files :=
  match s.ofile (p, fd) with
  | none => .ok s
  | some f =>
    match fdalloc p f s with
    | (none, s) => .ok s
    | (some _, s) => filedup f s

/-- `sys_close`. -/
def sysClose (p : ProcIdx) (fd : Fd) (s : Files) : Except Stuck Files :=
  match s.ofile (p, fd) with
  | none => .ok s
  | some f => fileclose f { s with ofile := update s.ofile (p, fd) none }

/-- The loop of `fork` over the descriptors; where the parent has none the entry of the child is left
as it was. -/
def dupLoop (p q : ProcIdx) : List Fd → Files → Except Stuck Files
  | [], s => .ok s
  | fd :: fds, s =>
    match s.ofile (p, fd) with
    | none => dupLoop p q fds s
    | some f => do
      let s ← filedup f s
      dupLoop p q fds { s with ofile := update s.ofile (q, fd) (some f) }

/-- `fork` into entry `q` of the process table; `mem` tells whether there is memory for it. -/
def fork (p q : ProcIdx) (mem : Bool) (s : Files) : Except Stuck Files :=
  if s.alive q || !mem then .ok s
  else do
    let s ← dupLoop p q (List.finRange nOFile) s
    return { s with alive := update s.alive q true }

/-- The loop of `exit` over the descriptors. -/
def closeLoop (p : ProcIdx) : List Fd → Files → Except Stuck Files
  | [], s => .ok s
  | fd :: fds, s =>
    match s.ofile (p, fd) with
    | none => closeLoop p fds s
    | some f => do
      let s ← fileclose f s
      closeLoop p fds { s with ofile := update s.ofile (p, fd) none }

/-- `exit`. -/
def exit (p : ProcIdx) (s : Files) : Except Stuck Files :=
  if p = 0 then .error (.panic "init exiting")
  else do
    let s ← closeLoop p (List.finRange nOFile) s
    return { s with alive := update s.alive p false }

/-! ## Runs -/

/-- The file is open and is an end of the pipe on page `k`, the one that writes or the one that reads. -/
def IsEnd (s : Files) (k : Nat) (writable : Bool) (f : FileIdx) : Prop :=
  (s.ftable f).type = .pipe ∧ 0 < (s.ftable f).ref ∧ (s.ftable f).pipe = k ∧ (s.ftable f).writable = writable

instance (s : Files) (k : Nat) (writable : Bool) (f : FileIdx) : Decidable (s.IsEnd k writable f) :=
  inferInstanceAs (Decidable (_ ∧ _ ∧ _ ∧ _))

/-- Page `k` is a pipe that has an open end. -/
def InUse (s : Files) (k : Nat) : Prop := ∃ writable f, s.IsEnd k writable f

instance (s : Files) (k : Nat) : Decidable (s.InUse k) := inferInstanceAs (Decidable (∃ _ _, _))

end Files

inductive Call
  | open (found : Bool) (omode : Nat)
  | dup (fd : Fd)
  | pipe
  | close (fd : Fd)
  | fork (q : ProcIdx) (mem : Bool)
  | exit
  /-- The rest of the kernel takes pages and gives pages back, never one that is a pipe. -/
  | pages (free : List Nat)

open Files in
def Call.run (p : ProcIdx) (c : Call) (s : Files) : Except Stuck Files :=
  if s.alive p then
    match c with
    | .open found omode => sysOpen p found omode s
    | .dup fd => sysDup p fd s
    | .pipe => sysPipe p s
    | .close fd => sysClose p fd s
    | .fork q mem => Files.fork p q mem s
    | .exit => Files.exit p s
    | .pages free => if free.Nodup ∧ ∀ k ∈ free, ¬s.InUse k then .ok { s with free } else .ok s
  else .ok s

/-- The first process, without open files. -/
def Files.boot (pages : Nat → Pipe) (free : List Nat) : Files where
  ftable := fun _ => ⟨.none, 0, false, false, 0⟩
  ofile := fun _ => none
  alive := fun p => p = 0
  pipes := pages
  free := free
  made := fun _ => 0
  freed := fun _ => 0

def runCalls : List (ProcIdx × Call) → Files → Except Stuck Files
  | [], s => .ok s
  | (p, c) :: cs, s => do runCalls cs (← c.run p s)

end DemandPaging.Ipc
