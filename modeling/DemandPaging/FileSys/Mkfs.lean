/-
The program `mkfs`, which builds a file-system image from a list of files: inodes and blocks are handed
out in order, files are appended to in the pieces in which they are read, the size of the root directory
is rounded up, and the bitmap is written last.
-/
import DemandPaging.FileSys.Format

namespace DemandPaging.FileSys

open Function Bytes

/-! ## Constants -/

/-- `FSSIZE`: blocks of the image. -/
abbrev fsSize : Nat := 1000
/-- `NINODES`. -/
abbrev nInodes : Nat := 200
/-- `ninodeblocks`. -/
abbrev nInodeBlocks : Nat := nInodes / ipb + 1
/-- `nbitmap`. -/
abbrev nBitmap : Nat := fsSize / (bSize * 8) + 1
/-- `nmeta`: boot block, superblock, log, inodes and bitmap. -/
abbrev nMeta : Nat := 2 + logSize + nInodeBlocks + nBitmap
/-- `SWAP_SIZE * NO_SWAP`. -/
abbrev swapBlocks : Nat := 20480 * 3

/-- `sb`. -/
def mkSb : SuperBlock where
  size := fsSize
  nblocks := fsSize - nMeta + swapBlocks
  ninodes := nInodes
  nlog := logSize
  logstart := 2
  inodestart := 2 + logSize
  bmapstart := 2 + logSize + nInodeBlocks

/-! ## The image -/

/-- The image file and the two counters. -/
structure Mkfs where
  nsect : Nat
  sect : Nat → Block
  freeinode : Nat
  freeblock : Nat

/-- Null where `mkfs` exits with another status than 0, or an assertion fails. -/
abbrev MkM (α : Type) := StateT Mkfs Option α

/-- The sector at `sec * BSIZE`, which is computed in 32 bits. -/
def sector (sec : Nat) : Nat := sec % 2 ^ 23

/-- `rsect`: a sector past the end of the file cannot be read. -/
def rsect (sec : Nat) : MkM Block := fun m => if sector sec < m.nsect then some (m.sect (sector sec), m) else none

/-- `wsect`. -/
def wsect (sec : Nat) (buf : Block) : MkM Unit := modify fun m =>
  { m with nsect := max m.nsect (sector sec + 1), sect := update m.sect (sector sec) buf }

/-- `winode`. -/
def winode (inum : Nat) (d : Dinode) : MkM Unit := do
  let buf ← rsect (mkSb.iblock inum)
  wsect (mkSb.iblock inum) (putDinode buf (inum % ipb) d)

/-- `rinode`. -/
def rinode (inum : Nat) : MkM Dinode := do
  return getDinode (← rsect (mkSb.iblock inum)) (inum % ipb)

/-- `freeblock++`. -/
def nextBlock : MkM Nat := fun m => some (m.freeblock, { m with freeblock := m.freeblock + 1 })

namespace Mkfs

/-- `ialloc` of `mkfs`. -/
def ialloc (type : Nat) : MkM Nat := do
  let inum := (← get).freeinode
  modify fun m => { m with freeinode := m.freeinode + 1 }
  winode inum { Dinode.zero with type, nlink := 1 }
  return inum

/-- `balloc` of `mkfs`. -/
def balloc (used : Nat) : MkM Unit := do
  if bSize * 8 ≤ used then failure
  wsect mkSb.bmapstart ((List.range used).foldl setBitAt fun _ => 0)

/-- A direct block of `iappend`, which is added where the file has none. -/
def mapDirect (d : Dinode) (k : Fin (nDirect + 1)) : MkM (Dinode × Nat) :=
  if d.addrs k ≠ 0 then return (d, d.addrs k)
  else do
    let x ← nextBlock
    return ({ d with addrs := update d.addrs k x }, x)

/-- An entry of the indirect block, which is added where the block has none. -/
def mapEntry (ind bn : Nat) : MkM Nat := do
  let buf ← rsect ind
  if indirect buf bn ≠ 0 then return indirect buf bn
  else do
    let x ← nextBlock
    wsect ind (putLe buf (4 * bn) 4 x)
    return x

/-- The block of `iappend` that holds file block `fbn`. -/
def mapBlock (d : Dinode) (fbn : Nat) : MkM (Dinode × Nat) :=
  if h : fbn < nDirect then mapDirect d ⟨fbn, Nat.lt_succ_of_lt h⟩
  else do
    let (d, ind) ← mapDirect d (Fin.last nDirect)
    let x ← mapEntry ind (fbn - nDirect)
    return (d, x)

/-- The loop of `iappend`. -/
def appendLoop : Nat → Dinode → Nat → List UInt8 → MkM (Dinode × Nat)
  | _, d, off, [] => return (d, off)
  | 0, _, _, _ => failure
  | fuel + 1, d, off, p => do
    let fbn := off / bSize
    if maxFile ≤ fbn then failure
    let (d, x) ← mapBlock d fbn
    let n1 := min p.length ((fbn + 1) * bSize - off)
    let buf ← rsect x
    wsect x (overwrite buf (off - fbn * bSize) (p.take n1))
    appendLoop fuel d (off + n1) (p.drop n1)

/-- `iappend`. -/
def iappend (inum : Nat) (p : List UInt8) : MkM Unit := do
  let d ← rinode inum
  let (d, off) ← appendLoop p.length d d.size p
  winode inum { d with size := off }

/-! ## The program -/

/-- An argument of `mkfs`, with the pieces in which `read` returns the file. -/
structure Input where
  name : List UInt8
  pieces : List (List UInt8)

/-- The name without one leading underscore. -/
def Input.base (f : Input) : List UInt8 := if f.name.head? = some 95 then f.name.tail else f.name

/-- Append an entry to the root directory. -/
def addEntry (inum : Nat) (name : List UInt8) : MkM Unit := iappend rootIno (Dirent.encode ⟨inum, strncpy name⟩)

/-- The loop over the pieces of a file. -/
def appendAll (inum : Nat) : List (List UInt8) → MkM Unit
  | [] => return ()
  | p :: ps => do
    iappend inum p
    appendAll inum ps

/-- One round of the loop over the arguments. -/
def addFile (f : Input) : MkM Unit := do
  if slash ∈ f.name then failure
  let inum ← ialloc tFile
  addEntry inum f.base
  appendAll inum f.pieces

def addFiles : List Input → MkM Unit
  | [] => return ()
  | f :: fs => do
    addFile f
    addFiles fs

/-- The root directory with its first two entries. -/
def makeRoot : MkM Unit := do
  let rootino ← ialloc tDir
  if rootino ≠ rootIno then failure
  addEntry rootino [46]
  addEntry rootino [46, 46]

/-- What is done after the last file. -/
def finish : MkM Unit := do
  let din ← rinode rootIno
  winode rootIno { din with size := (din.size / bSize + 1) * bSize }
  balloc (← get).freeblock

/-- The image with all its blocks zero but the superblock. -/
def blank : Mkfs where
  nsect := fsSize
  sect := update (fun _ _ => 0) 1 (overwrite (fun _ => 0) 0 mkSb.encode)
  freeinode := 1
  freeblock := nMeta

end Mkfs

/-- `mkfs`: the image it leaves when it exits with status 0. -/
def mkfs (files : List Mkfs.Input) : Option Mkfs :=
  (do Mkfs.makeRoot; Mkfs.addFiles files; Mkfs.finish : MkM Unit) Mkfs.blank |>.map (·.2)

end DemandPaging.FileSys
