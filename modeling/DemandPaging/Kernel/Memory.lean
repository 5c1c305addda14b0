/-
Physical memory and page tables: `kalloc.c`, and the functions of `vm.c` that build a page
directory and take it down.

A physical page is named by its frame number; `mem` gives the bytes of the pages. A page directory
is a tree of page tables, each with the frame it lives in: the entries are kept in the tree and not
in `mem`. Of a page table entry the model has the frame and the flags `PTE_P`, `PTE_W`, `PTE_U`.
-/
import DemandPaging.Kernel.Basic

namespace DemandPaging

/-! ## The page allocator -/

abbrev Page := Fin pgSize → UInt8

def zeroPage : Page := fun _ => 0

/-- Where `kernel.ld` puts `data` and `end`: the text starts at `KERNLINK` and is not empty. -/
structure Layout where
  data : Nat
  kernEnd : Nat
  data_aligned : data % pgSize = 0
  link_lt : kernLink < data
  data_le : data ≤ kernEnd
  end_lt : kernEnd < kernBase + physTop

/-- `kmem` and the physical pages. -/
structure Phys where
  layout : Layout
  freelist : List Nat
  mem : Nat → Page

def Phys.setPage (m : Phys) (f : Nat) (pg : Page) : Phys := { m with mem := Function.update m.mem f pg }

/-- A page as `kfree` leaves it: ones, with the address of the next free page in front. -/
def runPage (next : Option Nat) : Page := fun i =>
  if i.val < 4 then UInt8.ofNat ((next.elim 0 fun f => f * pgSize + kernBase) / 256 ^ i.val) else 1

/-- `kfree`, on the frame of the address it is given. -/
def kfree (f : Nat) (m : Phys) : Except Stuck Phys :=
  if f * pgSize + kernBase < m.layout.kernEnd ∨ physTop ≤ f * pgSize then .error (.panic "kfree")
  else .ok { m.setPage f (runPage m.freelist.head?) with freelist := f :: m.freelist }

/-- `kalloc(-1, _)`: a page off the free list, null when there is none. -/
def kallocPage (m : Phys) : Option Nat × Phys :=
  match m.freelist with
  | [] => (none, m)
  | f :: fs => (some f, { m with freelist := fs })

/-! ## Page tables -/

structure Flags where
  present : Bool
  write : Bool
  user : Bool
  deriving DecidableEq, Repr

structure Pte extends Flags where
  frame : Nat
  deriving DecidableEq, Repr

def Pte.zero : Pte := ⟨⟨false, false, false⟩, 0⟩

structure PageTable where
  frame : Nat
  ptes : Fin 1024 → Pte

structure PageDir where
  frame : Nat
  tables : Fin 1024 → Option PageTable

namespace PageDir

/-- `*walkpgdir(pgdir, va, 0)`, null when there is no page table for the address. -/
def pte? (pd : PageDir) (va : Nat) : Option Pte := (pd.tables (pdx va)).map fun t => t.ptes (ptx va)

/-- A store through the entry that `walkpgdir` returned. -/
def setPte (pd : PageDir) (va : Nat) (pte : Pte) : PageDir :=
  match pd.tables (pdx va) with
  | none => pd
  | some t =>
    { pd with tables := Function.update pd.tables (pdx va) (some { t with ptes := Function.update t.ptes (ptx va) pte }) }

end PageDir

/-- `walkpgdir(pgdir, va, 1)`: the directory, with a page table for the address; null when there
is no page for one. -/
def walkpgdir (pd : PageDir) (va : Nat) (m : Phys) : Option PageDir × Phys :=
  match pd.tables (pdx va) with
  | some _ => (some pd, m)
  | none =>
    match kallocPage m with
    | (none, m) => (none, m)
    | (some f, m) =>
      (some { pd with tables := Function.update pd.tables (pdx va) (some ⟨f, fun _ => Pte.zero⟩) }, m.setPage f zeroPage)

/-- The loop of `mappages`, with `n` rounds to go after this one. -/
def mappagesLoop (flags : Flags) (n a pa : Nat) (pd : PageDir) (m : Phys) : Int × PageDir × Phys :=
  match walkpgdir pd a m with
  | (none, m) => (-1, pd, m)
  | (some pd, m) =>
    let pd := pd.setPte a { flags with frame := pa / pgSize }
    match n with
    | 0 => (0, pd, m)
    | n + 1 => mappagesLoop flags n ((a + pgSize) % wordSize) ((pa + pgSize) % wordSize) pd m

/-- `mappages`: `a` steps through the pages until it equals `last`. -/
def mappages (pd : PageDir) (va size pa : Nat) (perm : Flags) (setPte : Bool) (m : Phys) : Int × PageDir × Phys :=
  let a := pgRoundDown va
  let last := pgRoundDown ((va + size - 1) % wordSize)
  mappagesLoop { perm with present := perm.present || setPte } (subWord last a / pgSize) a pa pd m

/-- The loop of `deallocuvm`. A page directory entry without a page table is skipped at once; a
step goes up by a page at least, so the walk ends within the pages of a 32-bit space or never. -/
def deallocuvmLoop (oldsz : Nat) : Nat → Nat → PageDir → Phys → Except Stuck (PageDir × Phys)
  | 0, _, _, _ => .error .diverge
  | fuel + 1, a, pd, m =>
    if a < oldsz then
      match pd.pte? a with
      | none => deallocuvmLoop oldsz fuel ((a / 2 ^ 22 + 1) * 2 ^ 22 % wordSize) pd m
      | some pte =>
        if pte.present then
          if pte.frame = 0 then .error (.panic "kfree")
          else do
            let m ← kfree pte.frame m
            deallocuvmLoop oldsz fuel ((a + pgSize) % wordSize) (pd.setPte a Pte.zero) m
        else deallocuvmLoop oldsz fuel ((a + pgSize) % wordSize) pd m
    else .ok (pd, m)

/-- `deallocuvm`. -/
def deallocuvm (pd : PageDir) (oldsz newsz : Nat) (m : Phys) : Except Stuck (Nat × PageDir × Phys) := do
  if oldsz ≤ newsz then return (oldsz, pd, m)
  else
    let (pd, m) ← deallocuvmLoop oldsz (2 ^ 20 + 1) (pgRoundUp newsz) pd m
    return (newsz, pd, m)

/-- `freevm`, for a directory that is there. -/
def freevm (pd : PageDir) (m : Phys) : Except Stuck Phys := do
  let (_, pd, m) ← deallocuvm pd kernBase 0 m
  let m ← (List.finRange 1024).foldlM (fun m i => match pd.tables i with
    | none => pure m
    | some t => kfree t.frame m) m
  kfree pd.frame m

/-- `struct kmap`. -/
structure KMap where
  virt : Nat
  physStart : Nat
  physEnd : Nat
  write : Bool

/-- The kernel's mappings. -/
def kmap (l : Layout) : List KMap :=
  [⟨kernBase, 0, extMem, true⟩, ⟨kernLink, kernLink - kernBase, l.data - kernBase, false⟩,
    ⟨l.data, l.data - kernBase, physTop, true⟩, ⟨devSpace, devSpace, 0, true⟩]

/-- The loop of `setupkvm`. -/
def setupkvmLoop : List KMap → PageDir → Phys → Int × PageDir × Phys
  | [], pd, m => (0, pd, m)
  | k :: ks, pd, m =>
    match mappages pd k.virt (subWord k.physEnd k.physStart) k.physStart ⟨false, k.write, false⟩ true m with
    | (r, pd, m) => if r < 0 then (-1, pd, m) else setupkvmLoop ks pd m

/-- `setupkvm`. -/
def setupkvm (m : Phys) : Except Stuck (Option PageDir × Phys) :=
  match kallocPage m with
  | (none, m) => .ok (none, m)
  | (some f, m) => do
    let m := m.setPage f zeroPage
    if kernBase + physTop > devSpace then .error (.panic "PHYSTOP too high")
    else
      let (r, pd, m) := setupkvmLoop (kmap m.layout) ⟨f, fun _ => none⟩ m
      if r < 0 then return (none, ← freevm pd m) else return (some pd, m)

/-- `clearpteu`. -/
def clearpteu (pd : PageDir) (uva : Nat) : Except Stuck PageDir :=
  match pd.pte? uva with
  | none => .error (.panic "clearpteu")
  | some pte => .ok (pd.setPte uva { pte with user := false })

end DemandPaging
