/-
Buffers of a fixed length: a list that lies in a buffer at an offset, and what is read back from
there.
-/
import Mathlib.Data.List.OfFn

namespace Buffer

variable {β : Type} {n : Nat} {b b' : Fin n → β} {off : Nat} {l : List β}

/-- The list lies in the buffer from the offset on. -/
def Holds (b : Fin n → β) (off : Nat) (l : List β) : Prop :=
  ∀ i x, l[i]? = some x → ∃ h : off + i < n, b ⟨off + i, h⟩ = x

theorem Holds.append {k : List β} (h : Holds b off (l ++ k)) : Holds b off l ∧ Holds b (off + l.length) k := by
  constructor
  · intro i x hx
    apply h i x
    rw [List.getElem?_append_left (List.getElem?_eq_some_iff.1 hx).1]
    exact hx
  · intro i x hx
    rw [Nat.add_assoc]
    apply h (l.length + i) x
    rw [List.getElem?_append_right (Nat.le_add_right _ _), Nat.add_sub_cancel_left]
    exact hx

/-- A buffer that agrees on the places of the list holds it too. -/
theorem Holds.congr (h : Holds b off l) (hb : ∀ i : Fin n, off ≤ i.val → i.val < off + l.length → b' i = b i) :
    Holds b' off l := by
  intro i x hx
  obtain ⟨hi, hbi⟩ := h i x hx
  have hlt := (List.getElem?_eq_some_iff.1 hx).1
  exact ⟨hi, by rw [hb ⟨off + i, hi⟩ (Nat.le_add_right _ _) (Nat.add_lt_add_left hlt off), hbi]⟩

/-- The codes of a list of words, one after the other. -/
theorem Holds.flatMap {α : Type} {f : α → List β} {k : Nat} (hf : ∀ a, (f a).length = k) : ∀ {ws : List α} {off : Nat},
    Holds b off (ws.flatMap f) → ∀ {i : Nat} {w : α}, ws[i]? = some w → Holds b (off + k * i) (f w)
  | v :: ws, off, h, 0, w, hw => by
    obtain rfl : v = w := by simpa using hw
    exact h.append.1
  | v :: ws, off, h, i + 1, w, hw => by
    have hrest := Holds.flatMap hf (h.append.2) (i := i) (by simpa using hw)
    rwa [hf, Nat.add_assoc, ← Nat.add_comm (k * i), ← Nat.mul_succ] at hrest

theorem Holds.starts (h : Holds b off l) : l <+: (List.ofFn b).drop off := by
  rw [List.prefix_iff_getElem?]
  intro i hi
  obtain ⟨hlt, hbi⟩ := h i l[i] (List.getElem?_eq_getElem hi)
  rw [List.getElem?_drop, List.getElem?_ofFn, dif_pos hlt, hbi]

/-- What stands in the buffer from the offset up to the first `z`, if there is one. -/
def upTo [DecidableEq β] (z : β) (b : Fin n → β) (off : Nat) : Option (List β) :=
  if z ∈ (List.ofFn b).drop off then some (((List.ofFn b).drop off).takeWhile (· ≠ z)) else none

theorem Holds.upTo [DecidableEq β] {z : β} (h : Holds b off (l ++ [z])) (hz : z ∉ l) : upTo z b off = some l := by
  obtain ⟨rest, hrest⟩ := h.starts
  have hne : ∀ x ∈ l, x ≠ z := fun x hx hxz => hz (hxz ▸ hx)
  rw [Buffer.upTo, ← hrest, if_pos (by simp), List.append_assoc, List.takeWhile_append_of_pos (by simpa using hne)]
  simp

end Buffer
