/-
How `syscall.c` fetches the arguments of a system call. They are read from user memory in kernel
mode: an address that is not mapped takes a page fault, and the access is made again. Addresses and
arguments are 32-bit words.
-/
import DemandPaging.Kernel.Paging
import DemandPaging.Lib.Bytes

namespace DemandPaging

/-- The frame that an access of the kernel to an address of the process reaches without a fault. -/
def kernelFrame (p : ProcIdx) (a : Nat) (s : Kernel) : Option Nat := do
  let pd ← (s.ptable p).pgdir
  let pte ← pd.pte? a
  if pte.present then some pte.frame else none

/-- A byte of the process, read by the kernel. -/
def kernelLoad (p : ProcIdx) (a : Nat) (s : Kernel) : Except Stuck (UInt8 × Kernel) :=
  match kernelFrame p a s with
  | some f => .ok (s.phys.mem f (pgOffset a), s)
  | none => do
    let s ← pgfltHandler p a s
    match kernelFrame p a s with
    | some f => return (s.phys.mem f (pgOffset a), s)
    | none => .error .diverge

def kernelLoads (p : ProcIdx) : List Nat → Kernel → Except Stuck (List UInt8 × Kernel)
  | [], s => .ok ([], s)
  | a :: as, s => do
    let (b, s) ← kernelLoad p a s
    let (bs, s) ← kernelLoads p as s
    return (b :: bs, s)

/-- The addresses of a word. -/
def wordAddrs (addr : Nat) : List Nat := (List.range 4).map fun i => (addr + i) % wordSize

/-- `fetchint`: the word, or `-1`. -/
def fetchint (p : ProcIdx) (addr : Nat) (s : Kernel) : Except Stuck (Option Nat × Kernel) :=
  let sz := (s.ptable p).sz
  if sz ≤ addr ∨ sz < (addr + 4) % wordSize then .ok (none, s)
  else do
    let (bs, s) ← kernelLoads p (wordAddrs addr) s
    return (some (Bytes.leVal bs), s)

/-- The loop of `fetchstr`, at `a`, with the bytes that are left before the end of the process. -/
def fetchstrLoop (p : ProcIdx) (addr : Nat) : Nat → Nat → Kernel → Except Stuck (Option Nat × Kernel)
  | 0, _, s => .ok (none, s)
  | n + 1, a, s => do
    let (b, s) ← kernelLoad p a s
    if b = 0 then return (some (a - addr), s) else fetchstrLoop p addr n (a + 1) s

/-- `fetchstr`: the length of the string, or `-1`. -/
def fetchstr (p : ProcIdx) (addr : Nat) (s : Kernel) : Except Stuck (Option Nat × Kernel) :=
  let sz := (s.ptable p).sz
  if sz ≤ addr then .ok (none, s) else fetchstrLoop p addr (sz - addr) addr s

/-- The address of the `n`th argument on the user stack. -/
def argAddr (p : ProcIdx) (n : Int) (s : Kernel) : Nat := (((s.ptable p).esp + 4 + 4 * n) % (wordSize : Int)).toNat

/-- `argint`. -/
def argint (p : ProcIdx) (n : Int) (s : Kernel) : Except Stuck (Option Nat × Kernel) := fetchint p (argAddr p n s) s

/-- `argptr`: the pointer, or `-1`. -/
def argptr (p : ProcIdx) (n size : Int) (s : Kernel) : Except Stuck (Option Nat × Kernel) := do
  match ← argint p n s with
  | (none, s) => return (none, s)
  | (some i, s) =>
    let sz := (s.ptable p).sz
    if size < 0 ∨ sz ≤ i ∨ sz < ((i + size) % (wordSize : Int)).toNat then return (none, s) else return (some i, s)

/-- `argstr`: the pointer and the length of the string, or `-1`. -/
def argstr (p : ProcIdx) (n : Int) (s : Kernel) : Except Stuck (Option (Nat × Nat) × Kernel) := do
  match ← argint p n s with
  | (none, s) => return (none, s)
  | (some addr, s) =>
    let (len, s) ← fetchstr p addr s
    return (len.map fun len => (addr, len), s)

end DemandPaging
