/-
A circular buffer with two counters of `w` bits that are never reset: the number of elements put in
and the number taken out, each modulo `2 ^ w`. If the size of the buffer divides `2 ^ w` the cells
follow the counters across the wrap, and the buffer is a queue of at most `n` elements.
-/
import Mathlib.Data.List.Range
import Mathlib.Tactic

/-- The buffer, the elements taken out and the elements put in. -/
structure Circular (α : Type) (w n : Nat) where
  data : Fin n → α
  nread : BitVec w
  nwrite : BitVec w

namespace Circular

variable {α : Type} {w n : Nat}

def count (b : Circular α w n) : Nat := (b.nwrite - b.nread).toNat

variable {b : Circular α w n}

theorem nwrite_eq (b : Circular α w n) : b.nwrite = b.nread + BitVec.ofNat w b.count := by
  rw [count, BitVec.ofNat_toNat, BitVec.setWidth_eq, BitVec.add_comm, BitVec.sub_add_cancel]

theorem empty_iff : b.nread = b.nwrite ↔ b.count = 0 := by
  constructor
  · intro h
    rw [count, h, BitVec.sub_self]
    rfl
  · intro h
    rw [nwrite_eq b, h, BitVec.add_zero]

theorem full_iff (hn : n < 2 ^ w) : b.nwrite = b.nread + BitVec.ofNat w n ↔ b.count = n := by
  constructor
  · intro h
    rw [count, h, BitVec.add_comm, BitVec.add_sub_cancel, BitVec.toNat_ofNat, Nat.mod_eq_of_lt hn]
  · intro h
    rw [nwrite_eq b, h]

def take (b : Circular α w n) : Circular α w n := { b with nread := b.nread + 1#w }

theorem count_take (h : b.nread ≠ b.nwrite) : b.take.count + 1 = b.count := by
  have hpos : 0 < b.count := Nat.pos_of_ne_zero fun h0 => h (empty_iff.2 h0)
  have hlt : b.count < 2 ^ w := (b.nwrite - b.nread).isLt
  have hw : b.nwrite - (b.nread + 1#w) = BitVec.ofNat w (b.count - 1) := by
    obtain ⟨k, hk⟩ := Nat.exists_eq_succ_of_ne_zero hpos.ne'
    rw [nwrite_eq b, hk, Nat.succ_sub_one, Nat.succ_eq_add_one, BitVec.ofNat_add, BitVec.add_comm (BitVec.ofNat w k),
      ← BitVec.add_assoc, BitVec.add_comm, BitVec.add_sub_cancel]
  show (b.nwrite - (b.nread + 1#w)).toNat + 1 = _
  rw [hw, BitVec.toNat_ofNat, Nat.mod_eq_of_lt (by omega)]
  omega

/-- The element put in last is taken back. -/
def back (b : Circular α w n) : Circular α w n := { b with nwrite := b.nwrite - 1#w }

theorem count_back (h : b.nread ≠ b.nwrite) : b.back.count + 1 = b.count := by
  have hpos : 0 < b.count := Nat.pos_of_ne_zero fun h0 => h (empty_iff.2 h0)
  have hlt : b.count < 2 ^ w := (b.nwrite - b.nread).isLt
  have hw : b.nwrite - 1#w - b.nread = BitVec.ofNat w (b.count - 1) := by
    obtain ⟨k, hk⟩ := Nat.exists_eq_succ_of_ne_zero hpos.ne'
    rw [nwrite_eq b, hk, Nat.succ_sub_one, Nat.succ_eq_add_one, BitVec.ofNat_add, ← BitVec.add_assoc, BitVec.add_sub_cancel,
      BitVec.add_comm, BitVec.add_sub_cancel]
  show (b.nwrite - 1#w - b.nread).toNat + 1 = _
  rw [hw, BitVec.toNat_ofNat, Nat.mod_eq_of_lt (by omega)]
  omega

variable [NeZero n]

/-- The cell that a counter points to. -/
def cell (k : BitVec w) : Fin n := Fin.ofNat n k.toNat

def put (b : Circular α w n) (c : α) : Circular α w n :=
  { b with data := Function.update b.data (cell b.nwrite) c, nwrite := b.nwrite + 1#w }

def front (b : Circular α w n) : α := b.data (cell b.nread)

def last (b : Circular α w n) : α := b.data (cell (b.nwrite - 1#w))

/-- The elements between the counters, the oldest first. -/
def contents (b : Circular α w n) : List α :=
  (List.range b.count).map fun i => b.data (cell (b.nread + BitVec.ofNat w i))

@[simp] theorem length_contents : b.contents.length = b.count := by simp [contents]

theorem count_put (c : α) (hn : n < 2 ^ w) (h : b.count < n) : (b.put c).count = b.count + 1 := by
  have hw : b.nwrite + 1#w - b.nread = BitVec.ofNat w (b.count + 1) := by
    rw [nwrite_eq b, BitVec.add_assoc, BitVec.add_comm, BitVec.add_sub_cancel, BitVec.ofNat_add]
  show (b.nwrite + 1#w - b.nread).toNat = _
  rw [hw, BitVec.toNat_ofNat, Nat.mod_eq_of_lt (by omega)]

/-! ## Cells -/

/-- The cells follow the counter across the wrap. -/
theorem cell_add (hd : n ∣ 2 ^ w) (k : BitVec w) (i : Nat) : (cell (k + BitVec.ofNat w i) : Fin n) = Fin.ofNat n (k.toNat + i) := by
  apply Fin.ext
  show (k + BitVec.ofNat w i).toNat % n = (k.toNat + i) % n
  rw [BitVec.toNat_add, BitVec.toNat_ofNat, Nat.add_mod_mod, Nat.mod_mod_of_dvd _ hd]

theorem cell_ne (hd : n ∣ 2 ^ w) (k : BitVec w) {i j : Nat} (hij : i < j) (hj : j < n) :
    (cell (k + BitVec.ofNat w i) : Fin n) ≠ cell (k + BitVec.ofNat w j) := by
  rw [cell_add hd, cell_add hd]
  intro h
  have hmod : k.toNat + i ≡ k.toNat + j [MOD n] := congrArg Fin.val h
  have := Nat.ModEq.add_left_cancel' k.toNat hmod
  rw [Nat.ModEq, Nat.mod_eq_of_lt (by omega), Nat.mod_eq_of_lt hj] at this
  omega

/-! ## The queue -/

theorem contents_put (c : α) (hd : n ∣ 2 ^ w) (hn : n < 2 ^ w) (h : b.count < n) : (b.put c).contents = b.contents ++ [c] := by
  rw [contents, count_put c hn h, List.range_succ, List.map_append, List.map_singleton]
  congr 1
  · -- the cell that is written is none of those in use
    refine List.map_congr_left fun i hi => ?_
    have hne : (cell (b.nread + BitVec.ofNat w i) : Fin n) ≠ cell b.nwrite := by
      rw [nwrite_eq b]
      exact cell_ne hd _ (List.mem_range.1 hi) h
    exact Function.update_of_ne hne ..
  · show [Function.update b.data (cell b.nwrite) c (cell (b.nread + BitVec.ofNat w b.count))] = [c]
    rw [← nwrite_eq b, Function.update_self]

theorem contents_take (h : b.nread ≠ b.nwrite) : b.contents = b.front :: b.take.contents := by
  rw [contents, ← count_take h, List.range_succ_eq_map, List.map_cons, List.map_map]
  congr 1
  · rw [BitVec.add_zero]
    rfl
  · refine List.map_congr_left fun i _ => ?_
    show b.data (cell (b.nread + BitVec.ofNat w (i + 1))) = b.data (cell (b.nread + 1#w + BitVec.ofNat w i))
    rw [BitVec.ofNat_add, BitVec.add_comm (BitVec.ofNat w i), ← BitVec.add_assoc]

theorem contents_back (h : b.nread ≠ b.nwrite) : b.contents = b.back.contents ++ [b.last] := by
  rw [contents, ← count_back h, List.range_succ, List.map_append, List.map_singleton]
  congr 1
  rw [last, show b.nwrite - 1#w = b.nread + BitVec.ofNat w b.back.count from nwrite_eq b.back]

theorem contents_empty (h : b.nread = b.nwrite) : b.contents = [] := by
  rw [contents, empty_iff.1 h]
  rfl

end Circular
