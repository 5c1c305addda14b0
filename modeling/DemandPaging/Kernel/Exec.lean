/-
`exec.c`. Strings are lists of bytes without the terminating zero; `path` and `argv` are what
the caller passes. A store outside `stack_buffer`, or past the end of `path`, is stuck.
-/
import DemandPaging.Kernel.Paging

namespace DemandPaging

/-! ## ELF headers -/

/-- A little-endian `ushort` of a file. -/
def le16 (d : Nat → UInt8) (off : Nat) : Nat := (d off).toNat + 256 * (d (off + 1)).toNat

/-- A little-endian `uint` of a file. -/
def le32 (d : Nat → UInt8) (off : Nat) : Nat := le16 d off + 65536 * le16 d (off + 2)

/-- The fields of `struct elfhdr` that `exec` uses. -/
structure ElfHdr where
  magic : Nat
  entry : Nat
  phoff : Nat
  phnum : Nat
  deriving DecidableEq, Repr

def elfHdrSize : Nat := 52

def elfHdr (file : File) : ElfHdr := ⟨le32 file.data 0, le32 file.data 24, le32 file.data 28, le16 file.data 44⟩

/-- The fields of `struct proghdr` that `exec` uses. -/
structure ProgHdr where
  type : Nat
  off : Nat
  vaddr : Nat
  filesz : Nat
  memsz : Nat
  deriving DecidableEq, Repr

def progHdrSize : Nat := 32

def progHdr (file : File) (off : Nat) : ProgHdr :=
  ⟨le32 file.data off, le32 file.data (off + 4), le32 file.data (off + 8), le32 file.data (off + 16),
    le32 file.data (off + 20)⟩

/-! ## Loading the segments -/

/-- The loop of `exec` over the program headers, with the headers that are left: the size reached,
null on `goto bad`. Each segment overwrites the `ph` of the one before. -/
def execLoad (p : ProcIdx) (file : File) : Nat → Nat → Nat → PageDir → Kernel → Except Stuck (Option Nat × PageDir × Kernel)
  | 0, _, sz, pd, s => .ok (some sz, pd, s)
  | n + 1, off, sz, pd, s => do
    let ph := progHdr file off
    if readi file off progHdrSize ≠ some progHdrSize then return (none, pd, s)
    else if ph.type ≠ elfProgLoad then execLoad p file n ((off + progHdrSize) % wordSize) sz pd s
    else if ph.memsz < ph.filesz then return (none, pd, s)
    else if (ph.vaddr + ph.memsz) % wordSize < ph.vaddr then return (none, pd, s)
    else if ph.vaddr % pgSize ≠ 0 then return (none, pd, s)
    else
      let s := s.setProc p { s.ptable p with ph := ⟨ph.filesz, ph.memsz, ph.vaddr, ph.off⟩ }
      let (sz, pd, s) ← allocuvm p pd sz ((ph.vaddr + ph.memsz) % wordSize) false s
      if sz = 0 then return (none, pd, s) else execLoad p file n ((off + progHdrSize) % wordSize) sz pd s

/-! ## The stack -/

/-- A copy of bytes into a page-sized buffer. -/
def storeBytes (buf : Page) (sp : Nat) (bytes : List UInt8) : Except Stuck Page :=
  if pgSize < sp + bytes.length then .error .overrun
  else .ok fun i => if sp ≤ i.val ∧ i.val < sp + bytes.length then bytes.getD (i.val - sp) 0 else buf i

/-- The bytes of a `uint`. -/
def leBytes (w : Nat) : List UInt8 := (List.range 4).map fun i => UInt8.ofNat (w / 256 ^ i)

/-- The loop of `exec` over the arguments: `sp`, the buffer and the addresses of the strings, null on
`goto bad`. `base` is the address of the stack page. -/
def pushArgs (base : Nat) : List (List UInt8) → Nat → Nat → Page → List Nat →
    Except Stuck (Option (Nat × List Nat) × Page)
  | [], _, sp, buf, ustack => .ok (some (sp, ustack), buf)
  | arg :: argv, argc, sp, buf, ustack => do
    if maxArg ≤ argc then return (none, buf)
    else
      let sp := subWord sp (arg.length + 1) / 4 * 4
      let buf ← storeBytes buf sp (arg ++ [0])
      pushArgs base argv (argc + 1) sp buf (ustack ++ [(base + sp) % wordSize])

/-- The last component of a path. -/
def lastName (path : List UInt8) : List UInt8 := (path.reverse.takeWhile (· ≠ 0x2f)).reverse

/-- The failure exit of `exec` once there is a page directory. -/
def execBad (p : ProcIdx) (pd : PageDir) (s : Kernel) : Except Stuck (Int × Kernel) := do
  let s := { s with lru := ← lruFree (s.ptable p).pid s.lru }
  let s ← swapFree (s.ptable p).pid s
  return (-1, { s with phys := ← freevm pd s.phys })

/-- The end of `exec`: names, the new image, the stack page out to swap, the old image freed.
`sizeof(curproc->path)` bounds the copy to `name`, which runs on into `path`. -/
def execCommit (p : ProcIdx) (path : List UInt8) (elf : ElfHdr) (pd : PageDir) (sz sp base : Nat) (s : Kernel) :
    Except Stuck (Int × Kernel) := do
  if 512 < path.length + 1 then .error .overrun
  else
    let last := (lastName path).take 511
    let path := if last.length < 16 then path else last.drop 16
    let oldpgdir := (s.ptable p).pgdir
    let s := s.setProc p { s.ptable p with
      name := last, path := path, pgdir := some pd, sz := sz, eip := elf.entry, esp := (base + sp) % wordSize }
    switchuvm p s
    let (r, s) ← swapOutFunc .stack p (sz - pgSize) s
    if r < 0 then .error (.panic "Swap Space is Full")
    else
      match oldpgdir with
      | none => .error (.panic "freevm: no pgdir")
      | some old => return (0, { s with phys := ← freevm old s.phys })

/-- `exec` after the segments have been mapped: the stack. -/
def execStack (p : ProcIdx) (path : List UInt8) (argv : List (List UInt8)) (elf : ElfHdr) (pd : PageDir) (sz : Nat)
    (s : Kernel) : Except Stuck (Int × Kernel) := do
  let s := s.setProc p { s.ptable p with cdbSize := sz }
  let sz := pgRoundUp sz
  let base := (sz + pgSize) % wordSize
  let (sz, pd, s) ← allocuvm p pd sz (sz + 2 * pgSize) false s
  if sz = 0 then execBad p pd s
  else
    let pd ← clearpteu pd (sz - 2 * pgSize)
    let (r, buf) ← pushArgs base argv 0 pgSize (s.ptable p).stackBuffer []
    let s := s.setProc p { s.ptable p with stackBuffer := buf }
    match r with
    | none => execBad p pd s
    | some (sp, args) =>
      let argc := args.length
      let ustack := [0xffffffff, argc, (base + subWord sp ((argc + 1) * 4)) % wordSize] ++ args ++ [0]
      let sp := subWord sp ((3 + argc + 1) * 4)
      let buf ← storeBytes buf sp (ustack.flatMap leBytes)
      let s := s.setProc p { s.ptable p with stackBuffer := buf }
      execCommit p path elf pd sz sp base s

/-- `exec`, called by the process: `0`, or `-1`. -/
def exec (p : ProcIdx) (path : List UInt8) (argv : List (List UInt8)) (s : Kernel) : Except Stuck (Int × Kernel) := do
  match s.fs.namei path with
  | none => return (-1, s)
  | some ip =>
    -- `getinode`, before anything about the file has been checked
    let s := s.setProc p { s.ptable p with ip := ip }
    let file := s.fs.file ip
    let elf := elfHdr file
    if readi file 0 elfHdrSize ≠ some elfHdrSize then return (-1, s)
    else if elf.magic ≠ elfMagic then return (-1, s)
    else
      let (pd, m) ← setupkvm s.phys
      let s := { s with phys := m }
      match pd with
      | none => return (-1, s)
      | some pd =>
        let (sz, pd, s) ← execLoad p file elf.phnum elf.phoff 0 pd s
        match sz with
        | none => execBad p pd s
        | some sz => execStack p path argv elf pd sz s

end DemandPaging
