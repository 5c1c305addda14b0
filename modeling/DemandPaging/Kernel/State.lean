/-
The kernel's state: the process table of `proc.c`, the LRU ring and the swap table of
`lru_swap.c`, physical memory, the disk, and the files `exec` and the fault handler read.
-/
import DemandPaging.Kernel.Lru
import DemandPaging.Kernel.Memory
import DemandPaging.Kernel.Swap

namespace DemandPaging

/-! ## Disk and files -/

abbrev Block := Fin bSize → UInt8

/-- `struct inode_info`. -/
structure InodeInfo where
  dev : Nat
  inum : Nat
  deriving DecidableEq, Repr

/-- The bytes of an inode, at most `MAXFILE` blocks of them. -/
structure File where
  size : Nat
  data : Nat → UInt8
  size_le : size ≤ maxFileBytes

/-- What the file system shows to `exec` and to the fault handler. -/
structure Fs where
  namei : List UInt8 → Option InodeInfo
  file : InodeInfo → File

/-- `readi` of `n` bytes from `off`: the count it returns, null for `-1`. -/
def readi (file : File) (off n : Nat) : Option Nat :=
  if file.size < off ∨ (off + n) % wordSize < off then none
  else if file.size < off + n then some (file.size - off)
  else some n

/-! ## Processes -/

abbrev ProcIdx := Fin nProc

inductive ProcState
  | unused
  | embryo
  | sleeping
  | runnable
  | running
  | zombie
  deriving DecidableEq, Repr

/-- `struct ph_info`. -/
structure PhInfo where
  filesz : Nat
  memsz : Nat
  vaddr : Nat
  off : Nat
  deriving DecidableEq, Repr

/-- `struct proc`, without the fields that only scheduling, system calls and open files use. Of `ph`
only the first element is ever used. `pgdir` and `kstack` are null also after the page they
point to has been freed. -/
structure Proc where
  sz : Nat
  pgdir : Option PageDir
  kstack : Option Nat
  state : ProcState
  pid : Int
  parent : Option ProcIdx
  killed : Bool
  name : List UInt8
  path : List UInt8
  cdbSize : Nat
  ph : PhInfo
  ip : InodeInfo
  swapList : Option SlotIdx
  forked : Bool
  writeBuffer : Page
  stackBuffer : Page
  heapBuffer : Page
  eip : Nat
  esp : Nat

/-! ## The state -/

structure Kernel where
  lru : Lru
  swap : Swap
  phys : Phys
  disk : Nat → Block
  fs : Fs
  ptable : ProcIdx → Proc
  nextpid : Int
  initproc : Option ProcIdx

namespace Kernel

def setProc (s : Kernel) (p : ProcIdx) (pr : Proc) : Kernel := { s with ptable := Function.update s.ptable p pr }

def setPgdir (s : Kernel) (p : ProcIdx) (pd : PageDir) : Kernel :=
  s.setProc p { s.ptable p with pgdir := some pd }

/-- The `swap_list` of a process and the table. -/
def setSwap (s : Kernel) (p : ProcIdx) (list : Option SlotIdx) (sw : Swap) : Kernel :=
  { s.setProc p { s.ptable p with swapList := list } with swap := sw }

variable (s : Kernel) (p q : ProcIdx)

theorem setProc_ptable (pr : Proc) : (s.setProc p pr).ptable q = if q = p then pr else s.ptable q := by
  simp [setProc, Function.update_apply]

@[simp] theorem setProc_same (pr : Proc) : (s.setProc p pr).ptable p = pr := by simp [setProc]

theorem setPgdir_ptable (pd : PageDir) : (s.setPgdir p pd).ptable q =
    if q = p then { s.ptable p with pgdir := some pd } else s.ptable q := by
  rw [setPgdir, setProc_ptable]

theorem setSwap_ptable (list : Option SlotIdx) (sw : Swap) : (s.setSwap p list sw).ptable q =
    if q = p then { s.ptable p with swapList := list } else s.ptable q := by
  simp [setSwap, setProc_ptable]

@[simp] theorem setProc_lru (pr : Proc) : (s.setProc p pr).lru = s.lru := rfl
@[simp] theorem setProc_swap (pr : Proc) : (s.setProc p pr).swap = s.swap := rfl
@[simp] theorem setProc_phys (pr : Proc) : (s.setProc p pr).phys = s.phys := rfl
@[simp] theorem setProc_disk (pr : Proc) : (s.setProc p pr).disk = s.disk := rfl
@[simp] theorem setProc_fs (pr : Proc) : (s.setProc p pr).fs = s.fs := rfl

end Kernel

/-! ## A small machine -/

def smallLayout : Layout := ⟨kernLink + pgSize, kernLink + 2 * pgSize, by decide, by decide, by decide, by decide⟩

/-- The first four megabytes of a process: nothing present. -/
def smallDir : PageDir where
  frame := 998
  tables := fun i => if i = 0 then some ⟨999, fun _ => ⟨⟨false, true, true⟩, 0⟩⟩ else none

/-- Process 1, with two pages; every other entry of the table is unused. -/
def smallProc : Proc where
  sz := 2 * pgSize
  pgdir := some smallDir
  kstack := some 997
  state := .running
  pid := 1
  parent := none
  killed := false
  name := []
  path := []
  cdbSize := 0
  ph := ⟨0, 0, 0, 0⟩
  ip := ⟨0, 0⟩
  swapList := none
  forked := false
  writeBuffer := zeroPage
  stackBuffer := zeroPage
  heapBuffer := zeroPage
  eip := 0
  esp := 0

/-- One process after boot: an empty ring, an empty swap table and two hundred free pages. -/
def smallKernel : Kernel where
  lru := lruInit
  swap := swapInit
  phys := ⟨smallLayout, List.range' 1000 200, fun _ => zeroPage⟩
  disk := fun _ _ => 0
  fs := ⟨fun _ => none, fun _ => ⟨0, fun _ => 0, Nat.zero_le maxFileBytes⟩⟩
  ptable := fun i => if i = 0 then smallProc else
    { smallProc with sz := 0, pgdir := none, kstack := none, state := .unused, pid := 0 }
  nextpid := 2
  initproc := some 0

/-- `get_proc`: the first entry of the table with the pid, in whatever state. -/
@[irreducible] def getProc (pid : Int) (s : Kernel) : Option ProcIdx := Fin.find? fun i => (s.ptable i).pid = pid

theorem getProc_congr (s s' : Kernel) (h : ∀ q, (s'.ptable q).pid = (s.ptable q).pid) (pid : Int) :
    getProc pid s' = getProc pid s := by
  unfold getProc; simp only [h]

end DemandPaging
