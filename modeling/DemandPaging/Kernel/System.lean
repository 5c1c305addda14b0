/-
The machine as a whole: what a process can ask of the kernel, pipes, and how `main` starts it all.
Evictions are not calls of their own: `get_lru` makes them inside a fault or a `fork`.
-/
import DemandPaging.Kernel.Exec
import DemandPaging.Kernel.Process

namespace DemandPaging

/-! ## System calls and faults -/

/-- A system call of a process, or a page fault it takes. -/
inductive SysCall
  | fork (p : ProcIdx)
  | exec (p : ProcIdx) (path : List UInt8) (argv : List (List UInt8))
  | growproc (p : ProcIdx) (n : Int)
  | fault (p : ProcIdx) (cr2 : Nat)
  | exit (p : ProcIdx)
  | wait (p : ProcIdx)

namespace SysCall

/-- The process that makes the call. -/
def actor : SysCall → ProcIdx
  | .fork p | .exec p _ _ | .growproc p _ | .fault p _ | .exit p | .wait p => p

def run : SysCall → Kernel → Except Stuck Kernel
  | .fork p, s => do return (← DemandPaging.fork p s).2
  | .exec p path argv, s => do return (← DemandPaging.exec p path argv s).2
  | .growproc p n, s => do return (← DemandPaging.growproc p n s).2
  | .fault p cr2, s => pgfltHandler p cr2 s
  | .exit p, s => DemandPaging.exit p s
  | .wait p, s => do return (← DemandPaging.wait p s).2

end SysCall

/-! ## Pipes -/

/-- `struct pipe`: the page it is in, and which ends are open. -/
structure Pipe where
  frame : Nat
  readopen : Bool
  writeopen : Bool
  deriving DecidableEq, Repr

/-- The kernel with its pipes, its own page directory and the stacks of the other CPUs. -/
structure Machine where
  kernel : Kernel
  pipes : List Pipe
  kpgdir : PageDir
  cpuStacks : List Nat

/-- `pipealloc`: `files` says whether `filealloc` finds two entries. -/
def pipealloc (files : Bool) (t : Machine) : Int × Machine :=
  if files then
    match kallocPage t.kernel.phys with
    | (none, _) => (-1, t)
    | (some f, m) => (0, { t with kernel := { t.kernel with phys := m }, pipes := ⟨f, true, true⟩ :: t.pipes })
  else (-1, t)

/-- `pipeclose`: the page is freed with the second end. -/
def pipeclose (pipe : Pipe) (writable : Bool) (t : Machine) : Except Stuck Machine :=
  let pipe' := if writable then { pipe with writeopen := false } else { pipe with readopen := false }
  if pipe'.readopen = false ∧ pipe'.writeopen = false then do
    let m ← kfree pipe.frame t.kernel.phys
    return { t with kernel := { t.kernel with phys := m }, pipes := t.pipes.erase pipe }
  else .ok { t with pipes := pipe' :: t.pipes.erase pipe }

/-! ## Starting -/

/-- `inituvm`. What `mappages` returns is not looked at. -/
def inituvm (pd : PageDir) (init : List UInt8) (m : Phys) : Except Stuck (PageDir × Phys) :=
  if pgSize ≤ init.length then .error (.panic "inituvm: more than a page")
  else match kallocPage m with
    | (none, _) => .error .badPtr
    | (some f, m) =>
      let (_, pd, m) := mappages pd 0 pgSize (f * pgSize) ⟨false, true, true⟩ true (m.setPage f zeroPage)
      .ok (pd, m.setPage f fun i => init.getD i.val 0)

/-- `userinit`, with the bytes of `initcode`. -/
def userinit (init : List UInt8) (s : Kernel) : Except Stuck Kernel := do
  let (p, s) := allocproc s
  let p ← deref p
  let (d, m) ← setupkvm s.phys
  match d with
  | none => .error (.panic "userinit: out of memory?")
  | some d =>
    let (d, m) ← inituvm d init m
    return { s.setProc p { s.ptable p with
      pgdir := some d, sz := pgSize, swapList := none, eip := 0, esp := pgSize, name := "initcode".toUTF8.toList
      state := .runnable } with phys := m, initproc := some p }

/-- `freerange`: the pages between two addresses of the kernel, one after another. -/
def freerange (vstart vend : Nat) (m : Phys) : Except Stuck Phys :=
  let p := pgRoundUp vstart
  (List.range' ((p - kernBase) / pgSize) ((vend - p) / pgSize)).foldlM (fun m f => kfree f m) m

/-- The stacks that `startothers` allocates, one for each CPU that is left. -/
def startothers : Nat → Phys → Except Stuck (List Nat × Phys)
  | 0, m => .ok ([], m)
  | n + 1, m => do
    let (f, m) := kallocPage m
    let f ← deref f
    let (fs, m) ← startothers n m
    return (f :: fs, m)

/-- `P2V(4*1024*1024)`: the memory that `entrypgdir` maps ends here. -/
abbrev entryEnd : Nat := kernBase + 4 * 1024 * 1024

/-- `main`, as far as it allocates, on a machine with `ncpu` CPUs. -/
def boot (ncpu : Nat) (init : List UInt8) (s : Kernel) : Except Stuck Machine := do
  let m ← freerange s.phys.layout.kernEnd entryEnd s.phys
  let (d, m) ← setupkvm m
  let kpgdir ← deref d
  let (cpuStacks, m) ← startothers (ncpu - 1) m
  let m ← freerange entryEnd (kernBase + physTop) m
  let s ← userinit init { s with phys := m, lru := lruInit, swap := swapInit }
  return ⟨s, [], kpgdir, cpuStacks⟩

/-- An entry of the process table that has never been used. -/
def Proc.zero : Proc where
  sz := 0
  pgdir := none
  kstack := none
  state := .unused
  pid := 0
  parent := none
  killed := false
  name := []
  path := []
  cdbSize := 0
  ph := ⟨0, 0, 0, 0⟩
  ip := ⟨0, 0⟩
  swapList := none
  forked := false
  writeBuffer := zeroPage
  stackBuffer := zeroPage
  heapBuffer := zeroPage
  eip := 0
  esp := 0

/-- The kernel as the boot loader leaves it. -/
def loadedKernel (l : Layout) (mem : Nat → Page) (disk : Nat → Block) (fs : Fs) : Kernel where
  lru := lruInit
  swap := swapInit
  phys := ⟨l, [], mem⟩
  disk := disk
  fs := fs
  ptable := fun _ => Proc.zero
  nextpid := 1
  initproc := none

end DemandPaging
