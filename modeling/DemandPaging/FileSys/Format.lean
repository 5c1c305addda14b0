/-
The format of a file-system image, as `mkfs` writes it and the kernel reads it: the inode packing, the
bitmap and the superblock, byte by byte.
-/
import DemandPaging.FileSys.Dir
import DemandPaging.FileSys.Log

namespace DemandPaging.FileSys

open Function Bytes

/-! ## Inodes -/

/-- Bytes of a `struct dinode`. -/
abbrev dinodeSize : Nat := 64

/-- The bytes of a `short`. -/
def shortBytes (x : Int) : List UInt8 := leDigits 2 (x % 2 ^ 16).toNat

/-- The bytes of a `struct dinode`. -/
def Dinode.encode (d : Dinode) : List UInt8 :=
  leDigits 2 d.type ++ shortBytes d.major ++ shortBytes d.minor ++ shortBytes d.nlink ++ leDigits 4 d.size ++
    (List.finRange (nDirect + 1)).flatMap fun k => leDigits 4 (d.addrs k)

def Dinode.decode (bs : List UInt8) : Dinode where
  type := leVal (bs.take 2)
  major := short (leVal ((bs.drop 2).take 2))
  minor := short (leVal ((bs.drop 4).take 2))
  nlink := short (leVal ((bs.drop 6).take 2))
  size := leVal ((bs.drop 8).take 4)
  addrs := fun k => leVal (((bs.drop 12).drop (4 * k)).take 4)

/-- The inode in a slot of an inode block. -/
def getDinode (b : Block) (slot : Nat) : Dinode := Dinode.decode (slice b (dinodeSize * slot) dinodeSize)

/-- An inode block with one of its slots overwritten. -/
def putDinode (b : Block) (slot : Nat) (d : Dinode) : Block := overwrite b (dinodeSize * slot) d.encode

/-- The fields of an inode fit the disk format. -/
structure Dinode.Fits (d : Dinode) : Prop where
  type : d.type < 2 ^ 16
  major : short d.major = d.major
  minor : short d.minor = d.minor
  nlink : short d.nlink = d.nlink
  size : d.size < wordSize
  addrs : ∀ k, d.addrs k < wordSize

theorem short_shortBytes {x : Int} (h : short x = x) : short (leVal (shortBytes x)) = x := by
  have hx : ((x % 2 ^ 16).toNat : Int) = x % 2 ^ 16 := Int.toNat_of_nonneg (by omega)
  rw [shortBytes, leVal_leDigits_of_lt (by omega), hx]
  conv_rhs => rw [← h]
  exact Int.emod_bmod x (2 ^ 16)

@[simp] theorem length_shortBytes (x : Int) : (shortBytes x).length = 2 := by simp [shortBytes]

theorem Dinode.length_encode (d : Dinode) : d.encode.length = dinodeSize := by
  have := length_flatMap_const (fun k => leDigits 4 (d.addrs k)) (fun _ => length_leDigits 4 _)
  simp only [Dinode.encode, List.length_append, this, length_leDigits, length_shortBytes]
  rfl

theorem Dinode.decode_encode {d : Dinode} (h : d.Fits) : Dinode.decode d.encode = d := by
  obtain ⟨type, major, minor, nlink, size, addrs⟩ := d
  have haddrs : ∀ k : Fin (nDirect + 1),
      ((((List.finRange (nDirect + 1)).flatMap fun k => leDigits 4 (addrs k)).drop (4 * k)).take 4) = leDigits 4 (addrs k) :=
    fun k => by
      have hk : k.val < (List.finRange (nDirect + 1)).length := by rw [List.length_finRange]; exact k.isLt
      rw [take_drop_flatMap _ (fun _ _ => length_leDigits 4 _) hk, List.getElem_finRange]
      rfl
  generalize hpack : (List.finRange (nDirect + 1)).flatMap (fun k => leDigits 4 (addrs k)) = pack at haddrs
  have hencode : (Dinode.mk type major minor nlink size addrs).encode =
      leDigits 2 type ++ (shortBytes major ++ (shortBytes minor ++ (shortBytes nlink ++ (leDigits 4 size ++ pack)))) := by
    simp only [Dinode.encode, hpack, List.append_assoc]
  rw [hencode]
  simp only [Dinode.decode, Dinode.mk.injEq]
  refine ⟨?_, ?_, ?_, ?_, ?_, funext fun k => ?_⟩
  · rw [List.take_left' (by simp), leVal_leDigits_of_lt h.type]
  · rw [take_drop_field (by simp) (by simp), short_shortBytes h.major]
  · rw [← List.append_assoc, take_drop_field (by simp) (by simp), short_shortBytes h.minor]
  · rw [← List.append_assoc, ← List.append_assoc, take_drop_field (by simp) (by simp), short_shortBytes h.nlink]
  · rw [← List.append_assoc, ← List.append_assoc, ← List.append_assoc, take_drop_field (by simp) (by simp),
      leVal_leDigits_of_lt h.size]
  · simp only [← List.append_assoc]
    rw [List.drop_left' (by simp), haddrs, leVal_leDigits_of_lt (h.addrs k)]

theorem getDinode_putDinode {b : Block} {slot : Nat} {d : Dinode} (hs : slot < ipb) (hd : d.Fits) :
    getDinode (putDinode b slot d) slot = d := by
  have hfit : dinodeSize * slot + d.encode.length ≤ bSize := by
    rw [d.length_encode]; simp only [dinodeSize, ipb, bSize] at *; omega
  have := slice_overwrite b (dinodeSize * slot) d.encode hfit
  rw [d.length_encode] at this
  rw [getDinode, putDinode, this, Dinode.decode_encode hd]

theorem getDinode_putDinode_ne {b : Block} {slot slot' : Nat} {d : Dinode} (h : slot' ≠ slot) :
    getDinode (putDinode b slot d) slot' = getDinode b slot' := by
  rw [getDinode, putDinode, slice_overwrite_of_disjoint, getDinode]
  rw [d.length_encode]; simp only [dinodeSize]; omega

theorem Dinode.decode_fits (bs : List UInt8) : (Dinode.decode bs).Fits := by
  have hshort : ∀ x : Int, short (short x) = short x := fun x => by simp [short]
  have hle : ∀ (bs : List UInt8) (n : Nat), leVal (bs.take n) < 256 ^ n := fun bs n =>
    (leVal_lt _).trans_le (Nat.pow_le_pow_right (by norm_num) (by simp))
  constructor <;> simp only [Dinode.decode, hshort]
  · exact hle bs 2
  · exact hle (bs.drop 8) 4
  · exact fun k => hle _ 4

/-! ## Bitmap -/

/-- A bit of a bitmap block. -/
def bitAt (b : Block) (i : Nat) : Bool := (byteAt b (i / 8)).toNat.testBit (i % 8)

/-- `buf[i/8] |= 1 << (i%8)`. -/
def setBitAt (b : Block) (i : Nat) : Block :=
  fun j => if j.val = i / 8 then b j ||| UInt8.ofNat (2 ^ (i % 8)) else b j

theorem bitAt_setBitAt {b : Block} {i j : Nat} (hj : j < bpb) : bitAt (setBitAt b i) j = (decide (j = i) || bitAt b j) := by
  have hj8 : j / 8 < bSize := by simp only [bpb, bSize] at *; omega
  have hpow : (UInt8.ofNat (2 ^ (i % 8))).toNat = 2 ^ (i % 8) := by
    have hlt : 2 ^ (i % 8) < 2 ^ 8 := Nat.pow_lt_pow_right (by norm_num) (Nat.mod_lt _ (by norm_num))
    exact UInt8.toNat_ofNat_of_lt' hlt
  simp only [bitAt, byteAt, setBitAt, dif_pos hj8]
  by_cases h8 : j / 8 = i / 8
  · rw [if_pos h8, UInt8.toNat_or, hpow, Nat.testBit_or, Nat.testBit_two_pow, Bool.or_comm]
    congr 1
    rw [decide_eq_decide]
    omega
  · have hne : j ≠ i := fun e => h8 (by rw [e])
    rw [if_neg h8, decide_eq_false hne, Bool.false_or]

/-! ## Superblock -/

/-- The superblock in block 1. -/
def getSuper (b : Block) : SuperBlock :=
  ⟨getLe b 0 4, getLe b 4 4, getLe b 8 4, getLe b 12 4, getLe b 16 4, getLe b 20 4, getLe b 24 4⟩

/-- The bytes of a `struct superblock`. -/
def SuperBlock.encode (sb : SuperBlock) : List UInt8 :=
  [sb.size, sb.nblocks, sb.ninodes, sb.nlog, sb.logstart, sb.inodestart, sb.bmapstart].flatMap (leDigits 4)

/-- The file system that the kernel finds on an image: after recovery from the log, with an empty inode cache. -/
def mount (img : Nat → Block) (disksize : Nat) : Fsys :=
  let sb := getSuper (img 1)
  let disk := ((recoverFromLog sb.logstart).run img).2
  { sb, disksize
    bit := fun b => bitAt (disk (sb.bblock b)) (b % bpb)
    dinode := fun inum => getDinode (disk (sb.iblock inum)) (inum % ipb)
    data := disk
    icache := fun _ => ⟨0, 0, 0, false, Dinode.zero⟩ }

end DemandPaging.FileSys
