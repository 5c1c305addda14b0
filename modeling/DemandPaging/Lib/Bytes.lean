/-
Fixed-size byte buffers: reading and overwriting a run of bytes, and little-endian numbers stored in
such a run. What is written is read back, and what lies outside the run is kept.
-/
import Mathlib.Data.List.Basic
import Mathlib.Tactic

namespace Bytes

variable {N : Nat}

/-! ## Runs of bytes -/

/-- A byte of a buffer, zero past its end. -/
def byteAt (b : Fin N → UInt8) (i : Nat) : UInt8 := if h : i < N then b ⟨i, h⟩ else 0

/-- The `n` bytes from `off`. -/
def slice (b : Fin N → UInt8) (off n : Nat) : List UInt8 := (List.range n).map fun i => byteAt b (off + i)

/-- The buffer with the bytes from `off` overwritten. -/
def overwrite (b : Fin N → UInt8) (off : Nat) (bs : List UInt8) : Fin N → UInt8 :=
  fun i => if off ≤ i.val then bs.getD (i.val - off) (b i) else b i

@[simp] theorem length_slice (b : Fin N → UInt8) (off n : Nat) : (slice b off n).length = n := by
  simp [slice]

theorem byteAt_overwrite (b : Fin N → UInt8) (off : Nat) (bs : List UInt8) (i : Nat) :
    byteAt (overwrite b off bs) i = if off ≤ i ∧ i < N then bs.getD (i - off) (byteAt b i) else byteAt b i := by
  unfold byteAt overwrite
  by_cases hi : i < N <;> by_cases ho : off ≤ i <;> simp [hi, ho]

/-- What is written is read back. -/
theorem slice_overwrite (b : Fin N → UInt8) (off : Nat) (bs : List UInt8) (h : off + bs.length ≤ N) :
    slice (overwrite b off bs) off bs.length = bs := by
  refine List.ext_getElem (by simp) fun i hi hi' => ?_
  simp only [length_slice] at hi
  simp only [slice, List.getElem_map, List.getElem_range, byteAt_overwrite]
  rw [if_pos ⟨by omega, by omega⟩, Nat.add_sub_cancel_left, List.getD_eq_getElem?_getD, List.getElem?_eq_getElem hi, Option.getD_some]

/-- Bytes outside what is written are kept. -/
theorem slice_overwrite_of_disjoint (b : Fin N → UInt8) {off off' n : Nat} {bs : List UInt8}
    (h : off' + n ≤ off ∨ off + bs.length ≤ off') : slice (overwrite b off bs) off' n = slice b off' n := by
  refine List.map_congr_left fun i hi => ?_
  have hi := List.mem_range.1 hi
  rw [byteAt_overwrite]
  split_ifs with hc
  · rw [List.getD_eq_getElem?_getD, List.getElem?_eq_none (by omega), Option.getD_none]
  · rfl

/-- A run that lies inside another is a run of its bytes. -/
theorem slice_slice (b : Fin N → UInt8) (off n k m : Nat) (h : k + m ≤ n) :
    ((slice b off n).drop k).take m = slice b (off + k) m := by
  refine List.ext_getElem (by simp; omega) fun i hi hi' => ?_
  simp only [slice, List.getElem_take, List.getElem_drop, List.getElem_map, List.getElem_range, Nat.add_assoc]

/-- A field of a record. -/
theorem take_drop_field {A B C : List UInt8} {n w : Nat} (hA : A.length = n) (hB : B.length = w) :
    ((A ++ (B ++ C)).drop n).take w = B := by
  subst hA hB
  rw [List.drop_left, List.take_left]

/-- A piece of fixed width of a record made of such pieces. -/
theorem take_drop_flatMap {α : Type*} {w : Nat} (f : α → List UInt8) :
    ∀ {l : List α} (_ : ∀ a ∈ l, (f a).length = w) {e : Nat} (he : e < l.length), ((l.flatMap f).drop (w * e)).take w = f l[e]
  | a :: l, hf, 0, _ => by
    rw [List.flatMap_cons, Nat.mul_zero, List.drop_zero, ← hf a (by simp), List.take_left]
    rfl
  | a :: l, hf, e + 1, he => by
    have hlen : w * (e + 1) = (f a).length + w * e := by rw [hf a (by simp)]; ring
    rw [List.flatMap_cons, hlen, List.drop_append, List.drop_eq_nil_of_le (by omega), List.nil_append, Nat.add_sub_cancel_left]
    exact take_drop_flatMap f (fun b hb => hf b (by simp [hb])) (Nat.lt_of_succ_lt_succ he)

theorem length_flatMap_const {n w : Nat} (f : Fin n → List UInt8) (hf : ∀ k, (f k).length = w) :
    ((List.finRange n).flatMap f).length = n * w := by
  simp [List.length_flatMap, hf]

/-! ## Overwriting a file -/

/-- A file with the bytes from `off` overwritten; it grows where they reach past its end. -/
def writeAt (l : List UInt8) (off : Nat) (bs : List UInt8) : List UInt8 := l.take off ++ bs ++ l.drop (off + bs.length)

@[simp] theorem writeAt_nil (l : List UInt8) (off : Nat) : writeAt l off [] = l := by simp [writeAt]

theorem writeAt_end (l bs : List UInt8) : writeAt l l.length bs = l ++ bs := by simp [writeAt]

theorem length_writeAt {l bs : List UInt8} {off : Nat} (h : off ≤ l.length) :
    (writeAt l off bs).length = max l.length (off + bs.length) := by
  simp only [writeAt, List.length_append, List.length_take, List.length_drop]
  omega

theorem getElem_writeAt {l bs : List UInt8} {off i : Nat} (h : off ≤ l.length) (hi : i < (writeAt l off bs).length) :
    (writeAt l off bs)[i] = if off ≤ i ∧ i < off + bs.length then bs.getD (i - off) 0 else l.getD i 0 := by
  rw [length_writeAt h] at hi
  simp only [writeAt, List.getD_eq_getElem?_getD]
  split
  · next hc =>
    rw [List.getElem_append_left (by simp; omega), List.getElem_append_right (by simp; omega)]
    simp only [List.length_take, Nat.min_eq_left h]
    rw [List.getElem?_eq_getElem (by omega), Option.getD_some]
  · next hc =>
    rw [List.getElem?_eq_getElem (by omega), Option.getD_some]
    by_cases hlo : i < off
    · rw [List.getElem_append_left (by simp; omega), List.getElem_append_left (by simp; omega), List.getElem_take]
    · rw [List.getElem_append_right (by simp; omega), List.getElem_drop]
      congr 1
      simp only [List.length_append, List.length_take]
      omega

/-- Two pieces written one after the other. -/
theorem writeAt_writeAt {l a b : List UInt8} {off : Nat} (h : off ≤ l.length) :
    writeAt (writeAt l off a) (off + a.length) b = writeAt l off (a ++ b) := by
  have hto : (l.take off).length = off := by simp [h]
  have h1 : (writeAt l off a).take (off + a.length) = l.take off ++ a := by
    rw [writeAt, List.take_append_of_le_length (by simp; omega), List.take_of_length_le (by simp)]
  have h2 : (writeAt l off a).drop (off + a.length + b.length) = l.drop (off + a.length + b.length) := by
    rw [writeAt, List.drop_append, List.drop_of_length_le (by simp; omega), List.nil_append, List.drop_drop]
    congr 1
    simp only [List.length_append, hto]
    omega
  rw [writeAt, h1, h2, writeAt, List.length_append, ← Nat.add_assoc]
  simp

/-! ## Little-endian numbers -/

/-- The number a list of bytes stands for. -/
def leVal : List UInt8 → Nat
  | [] => 0
  | x :: xs => x.toNat + 256 * leVal xs

/-- The `w` bytes of a number. -/
def leDigits : Nat → Nat → List UInt8
  | 0, _ => []
  | w + 1, v => UInt8.ofNat v :: leDigits w (v / 256)

@[simp] theorem length_leDigits : ∀ w v, (leDigits w v).length = w
  | 0, _ => rfl
  | w + 1, v => by rw [leDigits, List.length_cons, length_leDigits w]

theorem leVal_leDigits : ∀ w v, leVal (leDigits w v) = v % 256 ^ w
  | 0, v => by simp [leVal, leDigits, Nat.mod_one]
  | w + 1, v => by
    have hx : (UInt8.ofNat v).toNat = v % 256 := UInt8.toNat_ofNat'
    rw [leDigits, leVal, leVal_leDigits w, hx, pow_succ, Nat.mul_comm (256 ^ w), Nat.mod_mul]

theorem leVal_leDigits_of_lt {w v : Nat} (h : v < 256 ^ w) : leVal (leDigits w v) = v := by
  rw [leVal_leDigits, Nat.mod_eq_of_lt h]

theorem leVal_lt : ∀ bs : List UInt8, leVal bs < 256 ^ bs.length
  | [] => by simp [leVal]
  | x :: xs => by
    have hx := x.toNat_lt
    have hxs := leVal_lt xs
    rw [leVal, List.length_cons, pow_succ]
    omega

/-- The `w`-byte number at `off`. -/
def getLe (b : Fin N → UInt8) (off w : Nat) : Nat := leVal (slice b off w)

/-- The buffer with a `w`-byte number stored at `off`. -/
def putLe (b : Fin N → UInt8) (off w v : Nat) : Fin N → UInt8 := overwrite b off (leDigits w v)

theorem getLe_putLe (b : Fin N → UInt8) {off w v : Nat} (h : off + w ≤ N) (hv : v < 256 ^ w) :
    getLe (putLe b off w v) off w = v := by
  have := slice_overwrite b off (leDigits w v) (by simpa using h)
  rw [length_leDigits] at this
  rw [getLe, putLe, this, leVal_leDigits_of_lt hv]

theorem getLe_putLe_of_disjoint (b : Fin N → UInt8) {off w v off' w' : Nat} (h : off' + w' ≤ off ∨ off + w ≤ off') :
    getLe (putLe b off w v) off' w' = getLe b off' w' := by
  rw [getLe, putLe, slice_overwrite_of_disjoint b (by simpa using h), getLe]

end Bytes
