/-
The string functions of `ulib.c`. A string is the list of the bytes from a pointer on: it ends at its
first NUL, and the end of the list stands for one.
-/
import Mathlib.Data.List.Basic
import Mathlib.Tactic

namespace DemandPaging.User

/-- `*s`. -/
def chr (s : List UInt8) : UInt8 := s.headD 0

/-- `strlen`. -/
def strlen : List UInt8 → Nat
  | [] => 0
  | x :: s => if x = 0 then 0 else strlen s + 1

/-- `strchr`: how far from the pointer the first `c` stands, or null. -/
def strchr : List UInt8 → UInt8 → Option Nat
  | [], _ => none
  | x :: s, c => if x = 0 then none else if x = c then some 0 else (strchr s c).map (· + 1)

/-- A string ends where its first NUL stands. -/
theorem strlen_append : ∀ {l : List UInt8} {r : List UInt8}, 0 ∉ l → chr r = 0 → strlen (l ++ r) = l.length
  | [], [], _, _ => rfl
  | [], x :: r, _, hr => if_pos hr
  | x :: l, r, h, hr => by
    rw [List.mem_cons, not_or] at h
    rw [List.cons_append, strlen, if_neg (Ne.symm h.1), strlen_append h.2 hr, List.length_cons]

theorem strlen_le_length : ∀ s : List UInt8, strlen s ≤ s.length
  | [] => le_rfl
  | x :: s => by
    rw [strlen]
    split
    · exact Nat.zero_le _
    · exact Nat.succ_le_succ (strlen_le_length s)

/-- No NUL comes before the first one. -/
theorem zero_not_mem_take_strlen : ∀ s : List UInt8, 0 ∉ s.take (strlen s)
  | [] => List.not_mem_nil
  | x :: s => by
    by_cases hx : x = 0
    · rw [strlen, if_pos hx]
      exact List.not_mem_nil
    · rw [strlen, if_neg hx, List.take_succ_cons, List.mem_cons, not_or]
      exact ⟨Ne.symm hx, zero_not_mem_take_strlen s⟩

/-- The first `c` of a string. -/
theorem strchr_append {c : UInt8} (hc : c ≠ 0) : ∀ {l : List UInt8} (r : List UInt8), 0 ∉ l → c ∉ l →
    strchr (l ++ c :: r) c = some l.length
  | [], r, _, _ => by
    rw [List.nil_append, strchr, if_neg hc, if_pos rfl, List.length_nil]
  | x :: l, r, h0, h => by
    rw [List.mem_cons, not_or] at h0 h
    rw [List.cons_append, strchr, if_neg (Ne.symm h0.1), if_neg (Ne.symm h.1), strchr_append hc r h0.2 h.2,
      Option.map_some, List.length_cons]

/-- A string without `c`; what stands after its NUL does not count. -/
theorem strchr_nul {c : UInt8} : ∀ {l : List UInt8} (r : List UInt8), c ∉ l → strchr (l ++ 0 :: r) c = none
  | [], r, _ => by rw [List.nil_append, strchr, if_pos rfl]
  | x :: l, r, h => by
    rw [List.mem_cons, not_or] at h
    rw [List.cons_append, strchr, strchr_nul r h.2, if_neg (Ne.symm h.1), Option.map_none, ite_self]

theorem strchr_isSome {c : UInt8} : ∀ {l : List UInt8}, 0 ∉ l → ((strchr l c).isSome ↔ c ∈ l)
  | [], _ => by simp [strchr]
  | x :: l, h => by
    rw [List.mem_cons, not_or] at h
    rw [strchr, if_neg (Ne.symm h.1), List.mem_cons]
    by_cases hx : x = c
    · rw [if_pos hx]
      exact iff_of_true rfl (.inl hx.symm)
    · rw [if_neg hx, Option.isSome_map, strchr_isSome h.2, or_iff_right (Ne.symm hx)]

end DemandPaging.User
