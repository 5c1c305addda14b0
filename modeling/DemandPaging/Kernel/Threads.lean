/-
The calls that change page tables, cut where a process can leave its CPU: the disk driver `ide.c`
puts it to sleep until the transfer is done, in every `bwrite` and in every `bread` of a block that is
not cached. A step runs up to the next such place, and shows what matters to the other CPUs: the
copy of a page made by `read_vaddr`, the entry cleared by `demappages_swap_out`, and `lcr3`.

Run without interruption the threads are the calls of the sequential model.
-/
import DemandPaging.Kernel.System
import DemandPaging.Lib.Thread

namespace DemandPaging

/-- `NCPU`. -/
abbrev nCpu : Nat := 8

instance : NeZero nCpu := ⟨by decide⟩

abbrev CpuIdx := Fin nCpu

inductive Event
  | quiet
  /-- `read_vaddr` has copied the page to `write_buffer`. -/
  | readVaddr (q : ProcIdx) (vaddr : Nat)
  /-- `demappages_swap_out` has cleared `PTE_P`. -/
  | demap (q : ProcIdx) (vaddr : Nat)
  /-- The process has gone to sleep, and the CPU is back in `scheduler`. -/
  | sleep
  /-- `switchuvm` has loaded the page directory of the process. -/
  | lcr3
  deriving DecidableEq

abbrev KThread (α : Type) := Thread Stuck Kernel Event α

/-- What a call finds that is not in the state: how often `get_lru` looks for a free entry before it
gets one, and which of its blocks are not cached. -/
structure Timing where
  rounds : Nat
  miss : Nat → Bool

namespace Threaded

abbrev doing {α : Type} (f : Kernel → Except Stuck (α × Kernel)) : KThread α := Thread.atomic .quiet f

def get : KThread Kernel := doing fun s => .ok (s, s)

def stop {α : Type} (x : Stuck) : KThread α := doing fun _ => .error x

/-- The process sleeps if its block is not cached. -/
def nap (miss : Bool) : KThread Unit := if miss then Thread.atomic .sleep fun s => .ok ((), s) else pure ()

/-! ## Swapping out -/

def storeBlock (pg : Page) (bno : Nat) (disk : Nat → Block) (i : Fin 8) : Nat → Block :=
  Function.update disk (bno + i) (pageBlock pg i)

/-- The loop of `writeswap`: each block is copied from the buffer when its turn comes. -/
def writeswap (kind : SwapKind) (p : ProcIdx) (bno : Nat) : List (Fin 8) → KThread Unit
  | [] => pure ()
  | i :: is => do
    Thread.atomic .sleep fun s => .ok ((), { s with disk := storeBlock (kind.buffer (s.ptable p)) bno s.disk i })
    writeswap kind p bno is

def swapOut (kind : SwapKind) (p : ProcIdx) (vaddr : Nat) : KThread Int := do
  let slot ← doing fun s => do
    let (slot, list, sw) ← linkSlot kind vaddr (s.ptable p).swapList s.swap
    return (slot, s.setSwap p list sw)
  match slot with
  | none => return -1
  | some findex =>
    writeswap kind p (kind.start + findex * 8) (List.finRange 8)
    Thread.atomic (.demap p vaddr) fun s => do return ((), ← demappagesSwapOut p vaddr s)
    doing fun s => do return ((), ← klruFreeSwap p vaddr s)
    return 1

/-- The body of the loop of `get_lru` up to the copy: the page to be swapped out, null when there is
none. -/
def evictStart (s : Kernel) : Except Stuck (Event × Option (ProcIdx × Nat) × Kernel) := do
  let (index, lru) ← lruDelete s.lru
  match index with
  | none => .error (.panic "LRU full as well as empty.")
  | some index =>
    let pidLru ← lruGetPidFrame index lru
    let vaddrLru ← lruGetVaddrFrame index lru
    let s := { s with lru := ← lruReleaseFrame index lru }
    match getProc pidLru s with
    | none =>
      let s := { s with lru := ← lruFree pidLru s.lru }
      return (.quiet, none, ← swapFree pidLru s)
    | some pr =>
      let (r, s) ← readVaddr pr vaddrLru s
      if r < 0 then return (.quiet, none, s) else return (.readVaddr pr vaddrLru, some (pr, vaddrLru), s)

def evict : KThread Unit := do
  match ← Thread.step evictStart .done with
  | none => pure ()
  | some (pr, vaddr) =>
    let r ← swapOut .generic pr vaddr
    if r < 0 then stop (.panic "Swap Space is Full") else pure ()

def getLru (pid : Int) (vaddr : Nat) : Nat → KThread Unit
  | 0 => stop .diverge
  | rounds + 1 => do
    let r ← doing fun s => do
      let (r, lru) ← lruInsert pid vaddr s.lru
      return (r, { s with lru := lru })
    if r < 0 then do
      evict
      getLru pid vaddr rounds
    else pure ()

def kalloc (rounds : Nat) (pid lru : Int) : KThread (Option Nat) := do
  let mem ← doing fun s => .ok ((kallocPage s.phys).1, { s with phys := (kallocPage s.phys).2 })
  match mem with
  | none => return none
  | some f =>
    if pid ≠ -1 ∧ lru ≠ -1 then do
      getLru pid lru.toNat rounds
      return some f
    else return some f

/-! ## Swapping in -/

/-- A block of a page. -/
def copyBlock (f : Nat) (i : Fin 8) (block : Block) (m : Phys) : Phys :=
  m.setPage f fun j => if j.val / bSize = i then block ⟨j % bSize, mod_bSize_lt j⟩ else m.mem f j

/-- The loop of `readswap`. -/
def readswapLoop (miss : Nat → Bool) (f bno : Nat) : List (Fin 8) → KThread Unit
  | [] => pure ()
  | i :: is => do
    nap (miss i)
    doing fun s => .ok ((), { s with phys := copyBlock f i (s.disk (bno + i)) s.phys })
    readswapLoop miss f bno is

def readswap (miss : Nat → Bool) (p : ProcIdx) (bno : Nat) : KThread Nat := do
  let s ← get
  match ← kalloc 0 (s.ptable p).pid (-1) with
  | none => stop (.panic "No Free Page")
  | some f =>
    readswapLoop miss f bno (List.finRange 8)
    return f

def swapIn (miss : Nat → Bool) (kind : SwapKind) (p : ProcIdx) (vaddr : Nat) : KThread Int := do
  let slot ← doing fun s => do
    let (slot, list, sw) ← takeSlot vaddr (s.ptable p).swapList s.swap
    return (slot, s.setSwap p list sw)
  match slot with
  | none => return -1
  | some findex =>
    let f ← readswap miss p (kind.start + findex * 8)
    doing fun s => mappagesSwapIn p f vaddr s

/-- One round of the loop of `pgflt_handler`. -/
def fillRound (miss : Bool) (p : ProcIdx) (addr f : Nat) : KThread Unit := do
  nap miss
  doing fun s => do
    let pd ← deref (s.ptable p).pgdir
    let pr := s.ptable p
    return ((), { s with phys := ← fillPage pd pr.ph (s.fs.file pr.ip) addr f s.phys })

def pgfltHandler (tm : Timing) (p : ProcIdx) (cr2 : Nat) : KThread Unit := do
  let addr := pgRoundDown cr2
  if kernBase < addr then stop (.panic "Over the KERNBASE!")
  else
    let swapno ← doing fun s => do
      let (swapno, sw) ← swapCheck addr (s.ptable p).swapList s.swap
      return (swapno, { s with swap := sw })
    match swapno with
    | some kind =>
      let s ← get
      getLru (s.ptable p).pid addr tm.rounds
      let r ← swapIn tm.miss kind p addr
      if r < 0 then stop (.panic "Swap In not working!") else pure ()
    | none =>
      match ← kalloc 0 (-1) (-1) with
      | none => stop (.panic "No Free Page")
      | some f =>
        let r ← doing fun s => mappagesProc p addr pgSize (f * pgSize) ⟨true, true, true⟩ true s
        if r < 0 then stop (.panic "Error in Mappages")
        else do
          fillRound (tm.miss 0) p addr f
          fillRound (tm.miss 1) p addr f

/-! ## Growing -/

def growprocLoop (p : ProcIdx) : Nat → Nat → KThread Int
  | 0, _ => return 0
  | n + 1, i => do
    let s ← doing fun s => let s := s.setProc p { s.ptable p with heapBuffer := zeroPage }; .ok (s, s)
    let r ← swapOut .heap p (((s.ptable p).sz + i * pgSize) % wordSize)
    if r < 0 then return -1 else growprocLoop p n (i + 1)

/-- `switchuvm`. -/
def switchuvm (p : ProcIdx) : KThread Unit := Thread.atomic .lcr3 fun s => do return (← DemandPaging.switchuvm p s, s)

/-- The end of `growproc`. -/
def growprocEnd (p : ProcIdx) (sz : Nat) : KThread Int := do
  doing fun s => .ok ((), s.setProc p { s.ptable p with sz := sz })
  switchuvm p
  return 0

def growproc (p : ProcIdx) (n : Int) : KThread Int := do
  let s ← get
  let pr := s.ptable p
  let newsz := ((pr.sz + n) % wordSize).toNat
  if n = 0 then return 0
  else if 0 < n then
    let sz ← doing fun s => do
      let pd ← deref (s.ptable p).pgdir
      let (sz, pd, s) ← allocuvm p pd pr.sz newsz false s
      return (sz, s.setPgdir p pd)
    if sz = 0 then return -1
    else
      let r ← growprocLoop p (subWord (pgRoundUp sz) (pgRoundUp pr.sz) / pgSize) 0
      if r < 0 then return -1 else growprocEnd p sz
  else
    let sz ← doing fun s => do
      let pd ← deref (s.ptable p).pgdir
      let (sz, pd, m) ← deallocuvm pd pr.sz newsz s.phys
      return (sz, { s.setPgdir p pd with phys := m })
    if sz = 0 then return -1 else growprocEnd p sz

/-! ## Fork -/

def copyuvmLoop (rounds : Nat) (old new : ProcIdx) : Nat → Nat → Option Nat → PageDir → KThread (Bool × PageDir)
  | 0, _, _, d => return (true, d)
  | n + 1, i, mem, d => do
    let pd ← doing fun s => do return (← deref (s.ptable old).pgdir, s)
    match pd.pte? i with
    | none => stop (.panic "copyuvm: pte should exist")
    | some pte =>
      if pte.present = false then
        let (r, d) ← doing fun s =>
          let (r, d, m) := mappages d i pgSize (mem.elim kernBase (· * pgSize)) ⟨false, true, true⟩ false s.phys
          .ok ((r, d), { s with phys := m })
        if r < 0 then return (false, d) else copyuvmLoop rounds old new n (i + pgSize) mem d
      else
        let s ← get
        match ← kalloc rounds (s.ptable new).pid (if (s.ptable old).cdbSize < i then (i : Int) else -1) with
        | none => return (false, d)
        | some f =>
          let (r, d) ← doing fun s => do
            match (← deref (s.ptable old).pgdir).pte? i with
            | none => .error .badPtr
            | some pte =>
              let (r, d, m) := mappages d i pgSize (f * pgSize) pte.toFlags true (s.phys.setPage f (s.phys.mem pte.frame))
              return ((r, d), { s with phys := m })
          if r < 0 then do
            doing fun s => do return ((), ← klruFreeSwap new (f * pgSize + kernBase) s)
            return (false, d)
          else copyuvmLoop rounds old new n (i + pgSize) (some f) d

def copyuvm (rounds : Nat) (old new : ProcIdx) : KThread (Option PageDir) := do
  let d ← doing fun s => do
    let (d, m) ← setupkvm s.phys
    return (d, { s with phys := m })
  match d with
  | none => return none
  | some d =>
    let s ← get
    let (done, d) ← copyuvmLoop rounds old new (((s.ptable old).sz + pgSize - 1) / pgSize) 0 none d
    if done then return some d
    else
      doing fun s => do
        let s := { s with lru := ← lruFree (s.ptable new).pid s.lru }
        let s ← swapFree (s.ptable new).pid s
        return (none, { s with phys := ← freevm d s.phys })

def fork (rounds : Nat) (p : ProcIdx) : KThread Int := do
  match ← doing fun s => .ok (allocproc s) with
  | none => return -1
  | some np =>
    match ← copyuvm rounds p np with
    | none =>
      doing fun s => do
        let m ← kfree (← deref (s.ptable np).kstack) s.phys
        let s := s.setProc np { s.ptable np with pgdir := none, kstack := none, state := .unused }
        return (-1, { s with phys := m })
    | some d =>
      doing fun s => do
        let s ← forkCommit p np d s
        return ((s.ptable np).pid, s)

/-! ## Exec -/

/-- The loop of `exec` over the program headers: each is read from the file. -/
def execLoad (miss : Nat → Bool) (p : ProcIdx) (file : File) : Nat → Nat → Nat → PageDir → KThread (Option Nat × PageDir)
  | 0, _, sz, pd => return (some sz, pd)
  | n + 1, off, sz, pd => do
    let ph := progHdr file off
    nap (miss n)
    if readi file off progHdrSize ≠ some progHdrSize then return (none, pd)
    else if ph.type ≠ elfProgLoad then execLoad miss p file n ((off + progHdrSize) % wordSize) sz pd
    else if ph.memsz < ph.filesz then return (none, pd)
    else if (ph.vaddr + ph.memsz) % wordSize < ph.vaddr then return (none, pd)
    else if ph.vaddr % pgSize ≠ 0 then return (none, pd)
    else
      let (sz, pd) ← doing fun s => do
        let s := s.setProc p { s.ptable p with ph := ⟨ph.filesz, ph.memsz, ph.vaddr, ph.off⟩ }
        let (sz, pd, s) ← allocuvm p pd sz ((ph.vaddr + ph.memsz) % wordSize) false s
        return ((sz, pd), s)
      if sz = 0 then return (none, pd) else execLoad miss p file n ((off + progHdrSize) % wordSize) sz pd

/-- The end of `exec`. -/
def execCommit (p : ProcIdx) (path : List UInt8) (elf : ElfHdr) (pd : PageDir) (sz sp base : Nat) : KThread Int := do
  if 512 < path.length + 1 then stop .overrun
  else
    let last := (lastName path).take 511
    let path := if last.length < 16 then path else last.drop 16
    let oldpgdir ← doing fun s => .ok ((s.ptable p).pgdir, s.setProc p { s.ptable p with
      name := last, path := path, pgdir := some pd, sz := sz, eip := elf.entry, esp := (base + sp) % wordSize })
    switchuvm p
    let r ← swapOut .stack p (sz - pgSize)
    if r < 0 then stop (.panic "Swap Space is Full")
    else
      match oldpgdir with
      | none => stop (.panic "freevm: no pgdir")
      | some old => doing fun s => do return (0, { s with phys := ← freevm old s.phys })

/-- `exec` after the segments have been mapped, up to the new image. -/
def execStack (p : ProcIdx) (path : List UInt8) (argv : List (List UInt8)) (elf : ElfHdr) (pd : PageDir) (sz : Nat) :
    KThread Int := do
  let base := (pgRoundUp sz + pgSize) % wordSize
  let (sz, pd) ← doing fun s => do
    let s := s.setProc p { s.ptable p with cdbSize := sz }
    let (sz, pd, s) ← allocuvm p pd (pgRoundUp sz) (pgRoundUp sz + 2 * pgSize) false s
    return ((sz, pd), s)
  if sz = 0 then doing fun s => execBad p pd s
  else
    let (pd, r) ← doing fun s => do
      let pd ← clearpteu pd (sz - 2 * pgSize)
      let (r, buf) ← pushArgs base argv 0 pgSize (s.ptable p).stackBuffer []
      return ((pd, r), s.setProc p { s.ptable p with stackBuffer := buf })
    match r with
    | none => doing fun s => execBad p pd s
    | some (sp, args) =>
      let argc := args.length
      let ustack := [0xffffffff, argc, (base + subWord sp ((argc + 1) * 4)) % wordSize] ++ args ++ [0]
      let sp := subWord sp ((3 + argc + 1) * 4)
      doing fun s => do
        let buf ← storeBytes (s.ptable p).stackBuffer sp (ustack.flatMap leBytes)
        return ((), s.setProc p { s.ptable p with stackBuffer := buf })
      execCommit p path elf pd sz sp base

def exec (miss : Nat → Bool) (p : ProcIdx) (path : List UInt8) (argv : List (List UInt8)) : KThread Int := do
  let s ← get
  match s.fs.namei path with
  | none => return -1
  | some ip =>
    let file ← doing fun s => let s := s.setProc p { s.ptable p with ip := ip }; .ok (s.fs.file ip, s)
    let elf := elfHdr file
    nap (miss elf.phnum)
    if readi file 0 elfHdrSize ≠ some elfHdrSize then return -1
    else if elf.magic ≠ elfMagic then return -1
    else
      let pd ← doing fun s => do
        let (pd, m) ← setupkvm s.phys
        return (pd, { s with phys := m })
      match pd with
      | none => return -1
      | some pd =>
        match ← execLoad miss p file elf.phnum elf.phoff 0 pd with
        | (none, pd) => doing fun s => execBad p pd s
        | (some sz, pd) => execStack p path argv elf pd sz

/-! ## Wait -/

/-- `wait` scans the table again each time it is woken. -/
def wait (p : ProcIdx) : Nat → KThread Int
  | 0 => stop .diverge
  | rounds + 1 => do
    match ← doing fun s => DemandPaging.wait p s with
    | some pid => return pid
    | none =>
      nap true
      wait p rounds

end Threaded

/-- The call as a thread. A process that has exited never leaves `sched`. -/
def SysCall.thread (tm : Timing) : SysCall → KThread Unit
  | .fork p => do let _ ← Threaded.fork tm.rounds p
  | .exec p path argv => do let _ ← Threaded.exec tm.miss p path argv
  | .growproc p n => do let _ ← Threaded.growproc p n
  | .fault p cr2 => Threaded.pgfltHandler tm p cr2
  | .exit p => Thread.atomic .sleep fun s => do return ((), ← DemandPaging.exit p s)
  | .wait p => do let _ ← Threaded.wait p tm.rounds

end DemandPaging
