/-
Demand paging: swapping pages out and in (`lru_swap.c`, `fs.c`, the end of `vm.c`), the page
allocator with eviction (`kalloc`), the page fault handler (`demandpage.c`), `growproc`, and what a
user access does with them.
-/
import DemandPaging.Kernel.State

namespace DemandPaging

/-! ## Swapping out -/

/-- Byte `i` of block `b` of a page in the buffer of a process. -/
def pageBlock (pg : Page) (b : Fin 8) : Block := fun i => pg ⟨b * bSize + i, by simp only [bSize, pgSize]; omega⟩

/-- `writeswap`: eight consecutive blocks take the bytes of a page. -/
def writeswap (pg : Page) (bno : Nat) (disk : Nat → Block) : Nat → Block := fun n =>
  if h : bno ≤ n ∧ n < bno + 8 then pageBlock pg ⟨n - bno, by omega⟩ else disk n

/-- `demappages_swap_out`. -/
def demappagesSwapOut (p : ProcIdx) (vaddr : Nat) (s : Kernel) : Except Stuck Kernel := do
  let pd ← deref (s.ptable p).pgdir
  match pd.pte? vaddr with
  | none => .error (.panic "address should exist")
  | some pte => return s.setPgdir p (pd.setPte vaddr { pte with present := false })

/-- `klru_free_swap`: an address that is not a page of the allocator's is taken for a page of the
process, and only its LRU entry goes. -/
def klruFreeSwap (p : ProcIdx) (v : Nat) (s : Kernel) : Except Stuck Kernel :=
  if v % pgSize ≠ 0 ∨ v < s.phys.layout.kernEnd ∨ physTop ≤ v - kernBase then do
    return { s with lru := ← lruFreeFrame (s.ptable p).pid v s.lru }
  else
    let f := (v - kernBase) / pgSize
    .ok { s with phys :=
      { s.phys.setPage f (runPage s.phys.freelist.head?) with freelist := f :: s.phys.freelist } }

/-- The buffer of a process from which a swap space is written. -/
def SwapKind.buffer : SwapKind → Proc → Page
  | .generic, pr => pr.writeBuffer
  | .stack, pr => pr.stackBuffer
  | .heap, pr => pr.heapBuffer

/-- The common body of the three `swap_out` functions: they differ in the swap space and in the
buffer that is written. Returns `-1` when no slot is free. -/
def swapOutWith (kind : SwapKind) (p : ProcIdx) (vaddr : Nat) (s : Kernel) : Except Stuck (Int × Kernel) := do
  let (slot, list, sw) ← linkSlot kind vaddr (s.ptable p).swapList s.swap
  let s := s.setSwap p list sw
  match slot with
  | none => return (-1, s)
  | some findex =>
    let s := { s with disk := writeswap (kind.buffer (s.ptable p)) (kind.start + findex * 8) s.disk }
    let s ← demappagesSwapOut p vaddr s
    return (1, ← klruFreeSwap p vaddr s)

def swapOut : ProcIdx → Nat → Kernel → Except Stuck (Int × Kernel) := swapOutWith .generic

def swapOutStack : ProcIdx → Nat → Kernel → Except Stuck (Int × Kernel) := swapOutWith .stack

def swapOutHeap : ProcIdx → Nat → Kernel → Except Stuck (Int × Kernel) := swapOutWith .heap

/-- The first column of `swapfunc_ptr_arr`. -/
def swapOutFunc : SwapKind → ProcIdx → Nat → Kernel → Except Stuck (Int × Kernel)
  | .generic => swapOut
  | .stack => swapOutStack
  | .heap => swapOutHeap

/-- `read_vaddr`: the page goes to `write_buffer`. Its test `*pte && PTE_P` lets every entry but
the zero one through. -/
def readVaddr (p : ProcIdx) (vaddr : Nat) (s : Kernel) : Except Stuck (Int × Kernel) := do
  let pd ← deref (s.ptable p).pgdir
  match pd.pte? vaddr with
  | none => return (-1, s)
  | some pte =>
    if pte = Pte.zero then return (-1, s)
    else return (0, s.setProc p { s.ptable p with writeBuffer := s.phys.mem pte.frame })

/-- `swap_free`. -/
def swapFree (pid : Int) (s : Kernel) : Except Stuck Kernel :=
  match getProc pid s with
  | none => .ok s
  | some p =>
    if (s.ptable p).forked then .ok (s.setSwap p none s.swap)
    else do
      let (list, sw) ← freeSlots (s.ptable p).swapList s.swap
      return s.setSwap p list sw

/-- The body of the loop of `get_lru`: evict the oldest entry of the ring. -/
def evict (s : Kernel) : Except Stuck Kernel := do
  let (index, lru) ← lruDelete s.lru
  match index with
  | none => .error (.panic "LRU full as well as empty.")
  | some index =>
    let pidLru ← lruGetPidFrame index lru
    let vaddrLru ← lruGetVaddrFrame index lru
    let s := { s with lru := ← lruReleaseFrame index lru }
    match getProc pidLru s with
    | none =>
      let s := { s with lru := ← lruFree pidLru s.lru }
      swapFree pidLru s
    | some pr =>
      let (r, s) ← readVaddr pr vaddrLru s
      if r < 0 then return s
      else
        let (r, s) ← swapOutFunc .generic pr vaddrLru s
        if r < 0 then .error (.panic "Swap Space is Full") else return s

/-- The loop of `get_lru`. -/
def getLruLoop (pid : Int) (vaddr : Nat) : Nat → Kernel → Except Stuck Kernel
  | 0, _ => .error .diverge
  | fuel + 1, s => do
    let (r, lru) ← lruInsert pid vaddr s.lru
    let s := { s with lru := lru }
    if r < 0 then getLruLoop pid vaddr fuel (← evict s) else return s

/-- `get_lru`. An eviction frees an entry, so that the second insertion finds one. -/
def getLru (pid : Int) (vaddr : Nat) (s : Kernel) : Except Stuck Kernel := getLruLoop pid vaddr 2 s

/-- `kalloc`. -/
def kalloc (pid lru : Int) (s : Kernel) : Except Stuck (Option Nat × Kernel) :=
  match kallocPage s.phys with
  | (none, _) => .ok (none, s)
  | (some f, m) => do
    let s := { s with phys := m }
    if pid ≠ -1 ∧ lru ≠ -1 then return (some f, ← getLru pid lru.toNat s) else return (some f, s)

/-! ## Swapping in -/

theorem mod_bSize_lt (i : Fin pgSize) : i.val % bSize < bSize := Nat.mod_lt _ (by decide)

/-- The page that eight consecutive blocks hold. -/
def diskPage (disk : Nat → Block) (bno : Nat) : Page := fun i =>
  disk (bno + i / bSize) ⟨i % bSize, mod_bSize_lt i⟩

/-- `readswap`: the blocks are read into a fresh page. -/
def readswap (p : ProcIdx) (bno : Nat) (s : Kernel) : Except Stuck (Nat × Kernel) := do
  match ← kalloc (s.ptable p).pid (-1) s with
  | (none, _) => .error (.panic "No Free Page")
  | (some f, s) => return (f, { s with phys := s.phys.setPage f (diskPage s.disk bno) })

/-- `mappages` in the page directory of a process. -/
def mappagesProc (p : ProcIdx) (va size pa : Nat) (perm : Flags) (setPte : Bool) (s : Kernel) :
    Except Stuck (Int × Kernel) := do
  let pd ← deref (s.ptable p).pgdir
  let (r, pd, m) := mappages pd va size pa perm setPte s.phys
  return (r, { s.setPgdir p pd with phys := m })

/-- `mappages_swap_in`. -/
def mappagesSwapIn (p : ProcIdx) (f vaddr : Nat) (s : Kernel) : Except Stuck (Int × Kernel) := do
  let (r, s) ← mappagesProc p vaddr pgSize (f * pgSize) ⟨false, true, true⟩ true s
  return (if r < 0 then -1 else 0, s)

/-- The common body of the three `swap_in` functions. The slot's blocks are read in the space of the
function called, not in that of the slot. -/
def swapInWith (kind : SwapKind) (p : ProcIdx) (vaddr : Nat) (s : Kernel) : Except Stuck (Int × Kernel) := do
  let (slot, list, sw) ← takeSlot vaddr (s.ptable p).swapList s.swap
  let s := s.setSwap p list sw
  match slot with
  | none => return (-1, s)
  | some findex =>
    let (f, s) ← readswap p (kind.start + findex * 8) s
    mappagesSwapIn p f vaddr s

def swapIn : ProcIdx → Nat → Kernel → Except Stuck (Int × Kernel) := swapInWith .generic

def swapInStack : ProcIdx → Nat → Kernel → Except Stuck (Int × Kernel) := swapInWith .stack

def swapInHeap : ProcIdx → Nat → Kernel → Except Stuck (Int × Kernel) := swapInWith .heap

/-- The second column of `swapfunc_ptr_arr`. -/
def swapInFunc : SwapKind → ProcIdx → Nat → Kernel → Except Stuck (Int × Kernel)
  | .generic => swapIn
  | .stack => swapInStack
  | .heap => swapInHeap

/-! ## Page faults -/

/-- `memmove` into a physical page at an offset; bytes past the end of the page are another
page's. -/
def copyInto (f off n : Nat) (src : Nat → UInt8) (m : Phys) : Except Stuck Phys :=
  if pgSize < off + n then .error .overrun
  else .ok (m.setPage f fun i => if off ≤ i.val ∧ i.val < off + n then src (i.val - off) else m.mem f i)

/-- The loop of `loaduvm`, with the rounds that are left. -/
def loaduvmLoop (pd : PageDir) (addr : Nat) (file : File) (offset sz : Nat) : Nat → Nat → Phys → Except Stuck (Int × Phys)
  | 0, _, m => .ok (0, m)
  | n + 1, i, m =>
    match pd.pte? ((addr + i) % wordSize) with
    | none => .error (.panic "loaduvm: address should exist")
    | some pte =>
      let cnt := if sz - i < pgSize then sz - i else pgSize
      match readi file ((offset + i) % wordSize) cnt with
      | none => .ok (-1, m)
      | some r => do
        let m ← copyInto pte.frame 0 r (fun j => file.data ((offset + i) % wordSize + j)) m
        if r ≠ cnt then return (-1, m) else loaduvmLoop pd addr file offset sz n (i + pgSize) m

/-- `loaduvm`. -/
def loaduvm (pd : PageDir) (addr : Nat) (file : File) (offset sz : Nat) (m : Phys) : Except Stuck (Int × Phys) :=
  if addr % pgSize ≠ 0 then .error (.panic "loaduvm: addr must be page aligned")
  else loaduvmLoop pd addr file offset sz ((sz + pgSize - 1) / pgSize) 0 m

/-- The body of the loop of `pgflt_handler`: fill the page at `addr`, which is in frame `f`, from the
segment. The result of `loaduvm` is not looked at. -/
def fillPage (pd : PageDir) (ph : PhInfo) (file : File) (addr f : Nat) (m : Phys) : Except Stuck Phys :=
  if ph.vaddr ≤ addr ∧ addr ≤ (ph.vaddr + ph.memsz) % wordSize then
    if (addr + pgSize) % wordSize ≤ (ph.vaddr + ph.filesz) % wordSize then do
      return (← loaduvm pd ((ph.vaddr + addr) % wordSize) file ((ph.off + addr) % wordSize) pgSize m).2
    else if ph.filesz ≤ addr then
      if (addr + pgSize) % wordSize ≤ ph.memsz then copyInto f 0 pgSize (fun _ => 0) m
      else copyInto f 0 (subWord ph.memsz addr) (fun _ => 0) m
    else do
      let (_, m) ← loaduvm pd ((ph.vaddr + addr) % wordSize) file ((ph.off + addr) % wordSize) (ph.filesz - addr) m
      copyInto f (ph.filesz - addr) (subWord pgSize (ph.filesz - addr)) (fun _ => 0) m
  else .ok m

/-- `pgflt_handler`, for a fault of the process at the address in `cr2`. -/
def pgfltHandler (p : ProcIdx) (cr2 : Nat) (s : Kernel) : Except Stuck Kernel := do
  let addr := pgRoundDown cr2
  if kernBase < addr then .error (.panic "Over the KERNBASE!")
  else
    let (swapno, sw) ← swapCheck addr (s.ptable p).swapList s.swap
    let s := { s with swap := sw }
    match swapno with
    | some kind =>
      let s ← getLru (s.ptable p).pid addr s
      let (r, s) ← swapInFunc kind p addr s
      if r < 0 then .error (.panic "Swap In not working!") else return s
    | none =>
      match ← kalloc (-1) (-1) s with
      | (none, _) => .error (.panic "No Free Page")
      | (some f, s) =>
        let (r, s) ← mappagesProc p addr pgSize (f * pgSize) ⟨true, true, true⟩ true s
        if r < 0 then .error (.panic "Error in Mappages")
        else
          let pd ← deref (s.ptable p).pgdir
          let pr := s.ptable p
          let m ← fillPage pd pr.ph (s.fs.file pr.ip) addr f s.phys
          let m ← fillPage pd pr.ph (s.fs.file pr.ip) addr f m
          return { s with phys := m }

/-! ## User accesses -/

/-- The frame a user access to the address reaches without a fault. -/
def userFrame (p : ProcIdx) (a : Nat) (wr : Bool) (s : Kernel) : Option Nat := do
  let pd ← (s.ptable p).pgdir
  let pte ← pd.pte? a
  if pte.present && pte.user && (!wr || pte.write) then some pte.frame else none

/-- An access of the process to an address: a fault runs the handler and the access is made
again. -/
def touch (p : ProcIdx) (a : Nat) (wr : Bool) (s : Kernel) : Except Stuck (Nat × Kernel) :=
  match userFrame p a wr s with
  | some f => .ok (f, s)
  | none => do
    let s ← pgfltHandler p a s
    match userFrame p a wr s with
    | some f => return (f, s)
    | none => .error .diverge

def userLoad (p : ProcIdx) (a : Nat) (s : Kernel) : Except Stuck (UInt8 × Kernel) := do
  let (f, s) ← touch p a false s
  return (s.phys.mem f (pgOffset a), s)

def userStore (p : ProcIdx) (a : Nat) (v : UInt8) (s : Kernel) : Except Stuck Kernel := do
  let (f, s) ← touch p a true s
  return { s with phys := s.phys.setPage f (Function.update (s.phys.mem f) (pgOffset a) v) }

/-! ## Growing a process -/

/-- The loop of `allocuvm`, with the rounds that are left: `mem` is the address mapped when no page
is allocated. -/
def allocuvmLoop (p : ProcIdx) (setpte : Bool) : Nat → Nat → PageDir → Kernel → Except Stuck (Bool × PageDir × Kernel)
  | 0, _, pd, s => .ok (true, pd, s)
  | n + 1, a, pd, s => do
    let (f, s) ← if setpte then do
        let pr := s.ptable p
        let (mem, s) ← kalloc pr.pid (if pr.cdbSize < a then (a : Int) else -1) s
        let f ← deref mem
        pure (f, { s with phys := s.phys.setPage f zeroPage })
      else pure (0, s)
    let (r, pd, m) := mappages pd a pgSize (f * pgSize) ⟨false, true, true⟩ setpte s.phys
    let s := { s with phys := m }
    if r < 0 then return (false, pd, s) else allocuvmLoop p setpte n (a + pgSize) pd s

/-- `allocuvm`, called by the process: the new size, and `0` on error. The directory is returned also
on error. -/
def allocuvm (p : ProcIdx) (pd : PageDir) (oldsz newsz : Nat) (setpte : Bool) (s : Kernel) :
    Except Stuck (Nat × PageDir × Kernel) := do
  if kernBase ≤ newsz then return (0, pd, s)
  else if newsz < oldsz then return (oldsz, pd, s)
  else
    let a := pgRoundUp oldsz
    let (done, pd, s) ← allocuvmLoop p setpte ((newsz - a + pgSize - 1) / pgSize) a pd s
    return (if done then newsz else 0, pd, s)

/-- `switchuvm`: only its checks matter here. -/
def switchuvm (p : ProcIdx) (s : Kernel) : Except Stuck Unit :=
  if (s.ptable p).kstack = none then .error (.panic "switchuvm: no kstack")
  else match (s.ptable p).pgdir with
    | none => .error (.panic "switchuvm: no pgdir")
    | some _ => .ok ()

/-- The loop of `growproc` over the new pages, with the pages that are left: each one starts as a
page of zeros on the heap swap space. -/
def growprocLoop (p : ProcIdx) : Nat → Nat → Kernel → Except Stuck (Int × Kernel)
  | 0, _, s => .ok (0, s)
  | n + 1, i, s => do
    let s := s.setProc p { s.ptable p with heapBuffer := zeroPage }
    let (r, s) ← swapOutFunc .heap p (((s.ptable p).sz + i * pgSize) % wordSize) s
    if r < 0 then return (-1, s) else growprocLoop p n (i + 1) s

/-- `growproc`. -/
def growproc (p : ProcIdx) (n : Int) (s : Kernel) : Except Stuck (Int × Kernel) := do
  let pr := s.ptable p
  let newsz := ((pr.sz + n) % wordSize).toNat
  if n = 0 then return (0, s)
  else
    let pd ← deref pr.pgdir
    if 0 < n then
      let (sz, pd, s) ← allocuvm p pd pr.sz newsz false s
      let s := s.setPgdir p pd
      if sz = 0 then return (-1, s)
      else
        let (r, s) ← growprocLoop p (subWord (pgRoundUp sz) (pgRoundUp pr.sz) / pgSize) 0 s
        if r < 0 then return (-1, s)
        else
          let s := s.setProc p { s.ptable p with sz := sz }
          switchuvm p s
          return (0, s)
    else
      let (sz, pd, m) ← deallocuvm pd pr.sz newsz s.phys
      let s := { s.setPgdir p pd with phys := m }
      if sz = 0 then return (-1, s)
      else
        let s := s.setProc p { s.ptable p with sz := sz }
        switchuvm p s
        return (0, s)

end DemandPaging
