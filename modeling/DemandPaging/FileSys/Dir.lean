/-
Directories and path names of `fs.c`: the entries of a directory, `dirlookup` and `dirlink` over its
contents, and the walk of `namex` along a path.
-/
import DemandPaging.FileSys.Inode
import Mathlib.Data.List.TakeWhile

namespace DemandPaging.FileSys

open Bytes

/-- `DIRSIZ`: bytes of a name in a directory. -/
abbrev dirSiz : Nat := 14

/-- Bytes of a `struct dirent`. -/
abbrev direntSize : Nat := 16

/-- `struct dirent`. -/
structure Dirent where
  inum : Nat
  name : List UInt8
  deriving DecidableEq, Repr

/-- An entry as it is read from a directory. -/
def Dirent.decode (bs : List UInt8) : Dirent := ⟨leVal (bs.take 2), (bs.drop 2).take dirSiz⟩

/-- An entry as it is written to a directory; the name fills its field. -/
def Dirent.encode (de : Dirent) : List UInt8 := leDigits 2 de.inum ++ de.name

/-- The part of a name that `strncmp` and `strncpy` look at. -/
def cname (name : List UInt8) : List UInt8 := (name.take dirSiz).takeWhile (· ≠ 0)

/-- `namecmp(s, t) == 0`. -/
def namecmp (s t : List UInt8) : Bool := cname s == cname t

/-- The field of an entry after `strncpy`. -/
def strncpy (name : List UInt8) : List UInt8 := cname name ++ List.replicate (dirSiz - (cname name).length) 0

theorem length_strncpy (name : List UInt8) : (strncpy name).length = dirSiz := by
  have hle : (cname name).length ≤ dirSiz := (List.takeWhile_sublist _).length_le.trans (List.length_take_le ..)
  rw [strncpy, List.length_append, List.length_replicate]
  omega

theorem cname_append_zeros (name : List UInt8) (n : Nat) (hn : (cname name).length + n = dirSiz) :
    cname (cname name ++ List.replicate n 0) = cname name := by
  have hall : ∀ x ∈ cname name, decide (x ≠ 0) = true := fun x hx =>
    List.mem_takeWhile_imp (p := fun x : UInt8 => decide (x ≠ 0)) hx
  rw [cname, List.take_of_length_le (by rw [List.length_append, List.length_replicate, hn]), List.takeWhile_append_of_pos hall]
  cases n <;> simp [List.replicate_succ]

theorem cname_strncpy (name : List UInt8) : cname (strncpy name) = cname name := by
  have hle : (cname name).length ≤ dirSiz := (List.takeWhile_sublist _).length_le.trans (List.length_take_le ..)
  exact cname_append_zeros name _ (by omega)

theorem cname_take (name : List UInt8) : cname (name.take dirSiz) = cname name := by
  rw [cname, List.take_take, min_self, cname]

/-- A name without zeros is cut after `DIRSIZ` bytes. -/
theorem cname_of_not_mem {name : List UInt8} (h : 0 ∉ name) : cname name = name.take dirSiz := by
  refine List.takeWhile_eq_self_iff.2 fun x hx => decide_eq_true ?_
  rintro rfl
  exact h (List.mem_of_mem_take hx)

theorem namecmp_strncpy {a b : List UInt8} (ha : 0 ∉ a) (hb : 0 ∉ b) :
    namecmp (a.take dirSiz) (strncpy b) = true ↔ a.take dirSiz = b.take dirSiz := by
  rw [namecmp, beq_iff_eq, cname_take, cname_strncpy, cname_of_not_mem ha, cname_of_not_mem hb]

theorem Dirent.length_encode {de : Dirent} (h : de.name.length = dirSiz) : (Dirent.encode de).length = direntSize := by
  rw [Dirent.encode, List.length_append, length_leDigits, h]
  rfl

theorem Dirent.decode_encode {de : Dirent} (hk : de.inum < 2 ^ 16) (hlen : de.name.length = dirSiz) :
    Dirent.decode (Dirent.encode de) = de := by
  obtain ⟨k, name⟩ := de
  simp only [Dirent.decode, Dirent.encode, Dirent.mk.injEq]
  refine ⟨?_, ?_⟩
  · rw [List.take_left' (length_leDigits _ _), leVal_leDigits_of_lt (by norm_num; exact hk)]
  · rw [List.drop_left' (length_leDigits _ _), List.take_of_length_le hlen.le]

/-- Read the entry at `off`, or panic. -/
def readEntry (i : InodeIdx) (off : Nat) (msg : String) : FsM Dirent := do
  match ← readi i off direntSize with
  | some bs => if bs.length = direntSize then return Dirent.decode bs else stuck msg
  | none => stuck msg

/-- The loop of `dirlookup` from `off`: the offset and the inode number of the entry with a name. -/
def lookupLoop (i : InodeIdx) (name : List UInt8) : Nat → Nat → FsM (Option (Nat × Nat))
  | 0, _ => return none
  | n + 1, off => do
    if ((← get).icache i).d.size ≤ off then return none
    let de ← readEntry i off "dirlookup read"
    if de.inum ≠ 0 ∧ namecmp name de.name then return some (off, de.inum)
    lookupLoop i name n (off + direntSize)

/-- `dirlookup`: the inode of the entry with a name, and the offset of the entry. -/
def dirlookup (dp : InodeIdx) (name : List UInt8) : FsM (Option (InodeIdx × Nat)) := do
  let s ← get
  if (s.icache dp).d.type ≠ tDir then stuck "dirlookup not DIR"
  match ← lookupLoop dp name (s.icache dp).d.size 0 with
  | some (off, inum) => return some (← iget (s.icache dp).dev inum, off)
  | none => return none

/-- The loop of `dirlink` from `off`: the offset of the first free entry, or of the end. -/
def freeLoop (i : InodeIdx) : Nat → Nat → FsM Nat
  | 0, off => return off
  | n + 1, off => do
    if ((← get).icache i).d.size ≤ off then return off
    let de ← readEntry i off "dirlink read"
    if de.inum = 0 then return off
    freeLoop i n (off + direntSize)

/-- `dirlink`; whether it has succeeded. -/
def dirlink (dp : InodeIdx) (name : List UInt8) (inum : Nat) : FsM Bool := do
  match ← dirlookup dp name with
  | some (ip, _) =>
    iput ip
    return false
  | none =>
    let off ← freeLoop dp ((← get).icache dp).d.size 0
    match ← writei dp (Dirent.encode ⟨inum, strncpy name⟩) off with
    | some n => if n = direntSize then return true else stuck "dirlink"
    | none => stuck "dirlink"

/-! ## Paths -/

/-- `'/'`. -/
abbrev slash : UInt8 := 47

/-- `skipelem`: the next element of a path, and the path after it; null where there is none. -/
def skipelem (path : List UInt8) : Option (List UInt8 × List UInt8) :=
  let path := path.dropWhile (· = slash)
  if path = [] then none
  else some ((path.takeWhile (· ≠ slash)).take dirSiz, (path.dropWhile (· ≠ slash)).dropWhile (· = slash))

/-- The loop of `namex` from `ip`; the last element is returned with the parent. -/
def namexLoop (parent : Bool) : Nat → InodeIdx → List UInt8 → FsM (Option (InodeIdx × List UInt8))
  | 0, _, _ => fun _ => .error .diverge
  | fuel + 1, ip, path =>
    match skipelem path with
    | none => do
      if parent then
        iput ip
        return none
      return some (ip, [])
    | some (name, path) => do
      ilock ip
      if ((← get).icache ip).d.type ≠ tDir then
        iput ip
        return none
      if parent ∧ path = [] then return some (ip, name)
      match ← dirlookup ip name with
      | none =>
        iput ip
        return none
      | some (next, _) =>
        iput ip
        namexLoop parent fuel next path

/-- `namex` of a process with the current directory `cwd`. -/
def namex (cwd : InodeIdx) (path : List UInt8) (parent : Bool) : FsM (Option (InodeIdx × List UInt8)) := do
  let ip ← if path.head? = some slash then iget rootDev rootIno else idup cwd
  namexLoop parent (path.length + 1) ip path

/-- `namei`. -/
def namei (cwd : InodeIdx) (path : List UInt8) : FsM (Option InodeIdx) := do
  return (← namex cwd path false).map (·.1)

/-- `nameiparent`. -/
def nameiparent (cwd : InodeIdx) (path : List UInt8) : FsM (Option (InodeIdx × List UInt8)) := namex cwd path true

end DemandPaging.FileSys
