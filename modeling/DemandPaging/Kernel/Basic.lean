/-
The constants of `param.h`, `mmu.h`, `memlayout.h` and `lru_swap.h`, the ways in which a kernel
function can fail to return, and 32-bit address arithmetic.
-/
import Mathlib.Tactic

namespace DemandPaging

/-! ## Constants -/

/-- `PGSIZE`: bytes mapped by a page. -/
abbrev pgSize : Nat := 4096
/-- `BSIZE`: bytes in a disk block. -/
abbrev bSize : Nat := 512
/-- `MAX_FRAME_LRU`: entries of the LRU ring. -/
abbrev maxFrameLru : Nat := 1000
/-- `MAX_FRAME_SWAP`: swap slots. -/
abbrev maxFrameSwap : Nat := 2560
/-- `NPROC`: entries of the process table. -/
abbrev nProc : Nat := 64
/-- `MAXARG`: arguments of `exec`. -/
abbrev maxArg : Nat := 32
/-- `KERNBASE`: first kernel virtual address. -/
abbrev kernBase : Nat := 0x80000000
/-- `EXTMEM`: start of extended memory. -/
abbrev extMem : Nat := 0x100000
/-- `KERNLINK`: address where the kernel is linked. -/
abbrev kernLink : Nat := kernBase + extMem
/-- `PHYSTOP`: top of physical memory. -/
abbrev physTop : Nat := 0xE000000
/-- `DEVSPACE`: devices at high addresses. -/
abbrev devSpace : Nat := 0xFE000000
/-- `SWAP1_START`, the first block of the generic swap space. -/
abbrev swap1Start : Nat := 1000
/-- `SWAP2_START`, the first block of the stack swap space. -/
abbrev swap2Start : Nat := 3000
/-- `SWAP3_START`, the first block of the heap swap space. -/
abbrev swap3Start : Nat := 3280
/-- `MAXFILE * BSIZE`: the largest file. -/
abbrev maxFileBytes : Nat := 140 * bSize
/-- `ELF_MAGIC`. -/
abbrev elfMagic : Nat := 0x464C457F
/-- `ELF_PROG_LOAD`. -/
abbrev elfProgLoad : Nat := 1

/-- The range of a 32-bit word. -/
abbrev wordSize : Nat := 2 ^ 32

instance neZero1024 : NeZero 1024 := ⟨by decide⟩

instance : NeZero maxFrameLru := ⟨by decide⟩

instance : NeZero maxFrameSwap := ⟨by decide⟩

instance : NeZero nProc := ⟨by decide⟩

/-! ## Address arithmetic -/

/-- `PGROUNDUP`, on 32-bit words. -/
def pgRoundUp (sz : Nat) : Nat := (sz + pgSize - 1) % wordSize / pgSize * pgSize

/-- `PGROUNDDOWN`. -/
def pgRoundDown (a : Nat) : Nat := a / pgSize * pgSize

/-- `PDX`: the page directory index of an address. -/
def pdx (va : Nat) : Fin 1024 := ⟨va / 2 ^ 22 % 1024, Nat.mod_lt _ (by decide)⟩

/-- `PTX`: the page table index of an address. -/
def ptx (va : Nat) : Fin 1024 := ⟨va / 2 ^ 12 % 1024, Nat.mod_lt _ (by decide)⟩

/-- The offset of an address in its page. -/
def pgOffset (va : Nat) : Fin pgSize := ⟨va % pgSize, Nat.mod_lt _ (by decide)⟩

/-- Subtraction of 32-bit words. -/
def subWord (a b : Nat) : Nat := (a + (wordSize - b % wordSize)) % wordSize

/-! ## Stuck executions -/

/-- How a kernel function fails to return: a call of `panic`, a use of a pointer that names no
object, a store past the end of the object it starts in, or a loop that never ends. -/
inductive Stuck
  | panic (msg : String)
  | badPtr
  | overrun
  | diverge
  deriving DecidableEq, Repr

/-- Following a pointer. -/
def deref {α : Type} : Option α → Except Stuck α
  | none => .error .badPtr
  | some a => .ok a

@[simp] theorem deref_some {α : Type} (a : α) : deref (some a) = .ok a := rfl

theorem deref_eq_ok {α : Type} {o : Option α} {a : α} : deref o = .ok a ↔ o = some a := by
  cases o <;> simp [deref]

theorem bind_eq_ok {α β : Type} {x : Except Stuck α} {f : α → Except Stuck β} {b : β} :
    (x >>= f) = .ok b ↔ ∃ a, x = .ok a ∧ f a = .ok b := by
  cases x <;> simp [bind, Except.bind]

theorem exists_of_isOk {α : Type} {x : Except Stuck α} (h : x.isOk = true) : ∃ a, x = .ok a := by
  cases x with
  | error e => cases h
  | ok a => exact ⟨a, rfl⟩

@[simp] theorem ok_bind {α β : Type} (a : α) (f : α → Except Stuck β) : (Except.ok a >>= f) = f a := rfl

@[simp] theorem pure_ok {α : Type} (a : α) : (pure a : Except Stuck α) = .ok a := rfl

end DemandPaging
