/-
Blocks and inodes of `fs.c`: the bitmap and `balloc`/`bfree`, the inode cache, and the contents of an
inode through `bmap`, `itrunc`, `readi` and `writei`. A transaction is run as a whole on the disk that
the buffer cache and the log show, so a function reads and writes it directly; the bitmap and the inode
table are kept decoded. Calls run one after the other, so the locks are left out.
-/
import DemandPaging.Kernel.State
import DemandPaging.Lib.Bytes
import DemandPaging.Lib.Outcome

namespace DemandPaging.FileSys

open Function Bytes

/-! ## Constants and data -/

/-- `NDIRECT`: block addresses in an inode. -/
abbrev nDirect : Nat := 12
/-- `NINDIRECT`: block addresses in an indirect block. -/
abbrev nIndirect : Nat := 128
/-- `MAXFILE`: blocks of the largest file. -/
abbrev maxFile : Nat := nDirect + nIndirect
/-- `IPB`: inodes per block. -/
abbrev ipb : Nat := 8
/-- `BPB`: bitmap bits per block. -/
abbrev bpb : Nat := 4096
/-- `NINODE`: entries of the inode cache. -/
abbrev nInode : Nat := 50
/-- `NDEV`: entries of `devsw`. -/
abbrev nDev : Nat := 10
/-- `ROOTDEV`. -/
abbrev rootDev : Nat := 1
/-- `ROOTINO`. -/
abbrev rootIno : Nat := 1
/-- `T_DIR`. -/
abbrev tDir : Nat := 1
/-- `T_FILE`. -/
abbrev tFile : Nat := 2
/-- `T_DEV`. -/
abbrev tDev : Nat := 3

instance (priority := 1100) : NeZero (nDirect + 1) := ⟨by decide⟩

instance : NeZero nInode := ⟨by decide⟩

/-- `struct superblock`. -/
structure SuperBlock where
  size : Nat
  nblocks : Nat
  ninodes : Nat
  nlog : Nat
  logstart : Nat
  inodestart : Nat
  bmapstart : Nat
  deriving DecidableEq, Repr

/-- `IBLOCK`: the block that holds an inode. -/
def SuperBlock.iblock (sb : SuperBlock) (inum : Nat) : Nat := inum / ipb + sb.inodestart

/-- `BBLOCK`: the bitmap block that holds the bit of a block. -/
def SuperBlock.bblock (sb : SuperBlock) (b : Nat) : Nat := b / bpb + sb.bmapstart

/-- A number stored in a `short`. -/
def short (x : Int) : Int := Int.bmod x (2 ^ 16)

/-- `struct dinode`. -/
structure Dinode where
  type : Nat
  major : Int
  minor : Int
  nlink : Int
  size : Nat
  addrs : Fin (nDirect + 1) → Nat
  deriving DecidableEq

/-- An inode that has been zeroed. -/
def Dinode.zero : Dinode := ⟨0, 0, 0, 0, 0, fun _ => 0⟩

/-- `struct inode`. -/
structure Inode where
  dev : Nat
  inum : Nat
  ref : Nat
  valid : Bool
  d : Dinode
  deriving DecidableEq

abbrev InodeIdx := Fin nInode

/-- The disk, with the bitmap and the inode table decoded, and the inode cache. -/
structure Fsys where
  sb : SuperBlock
  disksize : Nat
  bit : Nat → Bool
  dinode : Nat → Dinode
  data : Nat → Block
  icache : InodeIdx → Inode

abbrev FsM (α : Type) := StateT Fsys (Except Stuck) α

/-- What a function that panics returns. -/
def stuck {α : Type} (msg : String) : FsM α := fun _ => .error (.panic msg)

/-! ## Blocks -/

/-- The test that `iderw` of `memide.c` makes for each block it is asked for. -/
def access (b : Nat) : FsM Unit := fun s =>
  if b < s.disksize then .ok ((), s) else .error (.panic "iderw: block out of range")

/-- `bread`. -/
def bread (b : Nat) : FsM Block := do
  access b
  return (← get).data b

/-- Store a block that has been read. -/
def bput (b : Nat) (v : Block) : FsM Unit := modify fun s => { s with data := update s.data b v }

/-- `bzero`. -/
def bzero (b : Nat) : FsM Unit := do
  access b
  bput b fun _ => 0

/-- `balloc`: the first free block. Of the bitmap blocks read on the way the last one has the highest number. -/
def balloc : FsM Nat := do
  let s ← get
  match (List.range s.sb.size).find? fun b => !s.bit b with
  | none => stuck "balloc: out of blocks"
  | some b =>
    access (s.sb.bblock b)
    modify fun s => { s with bit := update s.bit b true }
    bzero b
    return b

/-- `bfree`. -/
def bfree (b : Nat) : FsM Unit := do
  let s ← get
  access (s.sb.bblock b)
  if s.bit b = false then stuck "freeing free block"
  modify fun s => { s with bit := update s.bit b false }

/-! ## The inode cache -/

/-- Change an entry of the inode cache. -/
def setInode (i : InodeIdx) (f : Inode → Inode) : FsM Unit :=
  modify fun s => { s with icache := update s.icache i (f (s.icache i)) }

/-- Change the copy of the disk inode in an entry of the cache. -/
def setDinode (i : InodeIdx) (f : Dinode → Dinode) : FsM Unit := setInode i fun ip => { ip with d := f ip.d }

/-- `iget`. -/
def iget (dev inum : Nat) : FsM InodeIdx := do
  let s ← get
  match (List.finRange nInode).find? fun i => 0 < (s.icache i).ref && (s.icache i).dev == dev && (s.icache i).inum == inum with
  | some i =>
    setInode i fun ip => { ip with ref := ip.ref + 1 }
    return i
  | none =>
    -- recycle an inode cache entry
    match (List.finRange nInode).find? fun i => (s.icache i).ref == 0 with
    | some i =>
      setInode i fun ip => { ip with dev := dev, inum := inum, ref := 1, valid := false }
      return i
    | none => stuck "iget: no inodes"

/-- `idup`. -/
def idup (i : InodeIdx) : FsM InodeIdx := do
  setInode i fun ip => { ip with ref := ip.ref + 1 }
  return i

/-- `iupdate`. -/
def iupdate (i : InodeIdx) : FsM Unit := do
  let s ← get
  access (s.sb.iblock (s.icache i).inum)
  modify fun s => { s with dinode := update s.dinode (s.icache i).inum (s.icache i).d }

/-- `ialloc`. -/
def ialloc (dev type : Nat) : FsM InodeIdx := do
  let s ← get
  match (List.range s.sb.ninodes).find? fun inum => 0 < inum && (s.dinode inum).type == 0 with
  | none => stuck "ialloc: no inodes"
  | some inum =>
    access (s.sb.iblock inum)
    modify fun s => { s with dinode := update s.dinode inum { Dinode.zero with type } }
    iget dev inum

/-- `ilock`. -/
def ilock (i : InodeIdx) : FsM Unit := do
  let s ← get
  if (s.icache i).ref < 1 then stuck "ilock"
  if (s.icache i).valid = false then
    access (s.sb.iblock (s.icache i).inum)
    setInode i fun ip => { ip with d := s.dinode ip.inum, valid := true }
    if (s.dinode (s.icache i).inum).type = 0 then stuck "ilock: no type"

/-! ## Contents -/

/-- Entry `j` of an indirect block. -/
def indirect (b : Block) (j : Nat) : Nat := getLe b (4 * j) 4

/-- An address in the inode, with a block allocated where there is none. -/
def bmapDirect (i : InodeIdx) (k : Fin (nDirect + 1)) : FsM Nat := do
  let addr := ((← get).icache i).d.addrs k
  if addr ≠ 0 then return addr
  else do
    let addr ← balloc
    setDinode i fun d => { d with addrs := update d.addrs k addr }
    return addr

/-- An entry of the indirect block, with a block allocated where there is none. -/
def bmapEntry (ind bn : Nat) : FsM Nat := do
  let a ← bread ind
  if indirect a bn ≠ 0 then return indirect a bn
  else do
    let addr ← balloc
    modify fun s => { s with data := update s.data ind (putLe (s.data ind) (4 * bn) 4 addr) }
    return addr

/-- `bmap`. -/
def bmap (i : InodeIdx) (bn : Nat) : FsM Nat :=
  if h : bn < nDirect then bmapDirect i ⟨bn, Nat.lt_succ_of_lt h⟩
  else if bn - nDirect < nIndirect then do
    let ind ← bmapDirect i (Fin.last nDirect)
    bmapEntry ind (bn - nDirect)
  else stuck "bmap: out of range"

/-- Free one block after the other, leaving out zeros. -/
def bfreeAll : List Nat → FsM Unit
  | [] => return ()
  | b :: bs => do
    if b ≠ 0 then bfree b
    bfreeAll bs

/-- `itrunc`. -/
def itrunc (i : InodeIdx) : FsM Unit := do
  let s ← get
  let d := (s.icache i).d
  bfreeAll ((List.finRange nDirect).map fun k => d.addrs k.castSucc)
  let ind := d.addrs (Fin.last nDirect)
  if ind ≠ 0 then
    let a ← bread ind
    bfreeAll ((List.range nIndirect).map (indirect a))
    bfree ind
  setDinode i fun d => { d with size := 0, addrs := fun _ => 0 }
  iupdate i

/-- `iput`. -/
def iput (i : InodeIdx) : FsM Unit := do
  let s ← get
  if (s.icache i).valid = true ∧ (s.icache i).d.nlink = 0 ∧ (s.icache i).ref = 1 then
    -- inode has no links and no other references: truncate and free
    itrunc i
    setDinode i fun d => { d with type := 0 }
    iupdate i
    setInode i fun ip => { ip with valid := false }
  setInode i fun ip => { ip with ref := ip.ref - 1 }

/-- The loop of `readi`. -/
def readLoop (i : InodeIdx) : Nat → Nat → Nat → FsM (List UInt8)
  | _, _, 0 => return []
  | 0, _, _ => fun _ => .error .diverge
  | fuel + 1, off, n => do
    let b ← bread (← bmap i (off / bSize))
    let m := min n (bSize - off % bSize)
    let rest ← readLoop i fuel (off + m) (n - m)
    return slice b (off % bSize) m ++ rest

/-- `readi` of an inode that is not a device; null for `-1`. -/
def readi (i : InodeIdx) (off n : Nat) : FsM (Option (List UInt8)) := do
  let size := ((← get).icache i).d.size
  if size < off ∨ (off + n) % wordSize < off then return none
  let n := if size < off + n then size - off else n
  return some (← readLoop i n off n)

/-- The loop of `writei`. -/
def writeLoop (i : InodeIdx) : Nat → Nat → List UInt8 → FsM Unit
  | _, _, [] => return ()
  | 0, _, _ => fun _ => .error .diverge
  | fuel + 1, off, src => do
    let addr ← bmap i (off / bSize)
    let b ← bread addr
    let m := min src.length (bSize - off % bSize)
    bput addr (overwrite b (off % bSize) (src.take m))
    writeLoop i fuel (off + m) (src.drop m)

/-- `writei` of an inode that is not a device; null for `-1`. -/
def writei (i : InodeIdx) (src : List UInt8) (off : Nat) : FsM (Option Nat) := do
  let size := ((← get).icache i).d.size
  if size < off ∨ (off + src.length) % wordSize < off then return none
  if maxFileBytes < off + src.length then return none
  writeLoop i src.length off src
  if 0 < src.length ∧ size < off + src.length then
    setDinode i fun d => { d with size := off + src.length }
    iupdate i
  return some src.length

end DemandPaging.FileSys
