/-
A stream cut into lines at a separator: the lines that the separator ends, and the unfinished rest.
-/
import Mathlib.Data.List.Basic
import Mathlib.Tactic

namespace Lines

variable {α : Type*} {sep : α} {x l : List α}

/-- The lines with their separators. -/
def joined (sep : α) (ls : List (List α)) : List α := ls.flatMap (· ++ [sep])

theorem joined_cons (x : List α) (ls : List (List α)) : joined sep (x :: ls) = x ++ [sep] ++ joined sep ls := rfl

theorem joined_append (ls ls' : List (List α)) : joined sep (ls ++ ls') = joined sep ls ++ joined sep ls' := List.flatMap_append

variable [DecidableEq α]

/-- The lines that are ended by the separator, without it. -/
def complete (sep : α) (l : List α) : List (List α) := (l.splitOn sep).dropLast

/-- What stands after the last separator. -/
def rest (sep : α) (l : List α) : List α := (l.splitOn sep).getLastD []

theorem complete_of_not_mem (h : sep ∉ l) : complete sep l = [] := by
  rw [complete, List.splitOn_eq_singleton h, List.dropLast_singleton]

theorem rest_of_not_mem (h : sep ∉ l) : rest sep l = l := by
  rw [rest, List.splitOn_eq_singleton h]
  rfl

theorem complete_line (h : sep ∉ x) (l : List α) : complete sep (x ++ sep :: l) = x :: complete sep l := by
  rw [complete, List.splitOn_append_cons_self_of_not_mem h, List.dropLast_cons_of_ne_nil (List.splitOn_ne_nil sep l), complete]

theorem rest_line (h : sep ∉ x) (l : List α) : rest sep (x ++ sep :: l) = rest sep l := by
  rw [rest, List.splitOn_append_cons_self_of_not_mem h, rest]
  cases hs : l.splitOn sep with
  | nil => exact absurd hs (List.splitOn_ne_nil sep l)
  | cons y ys => rfl

/-- A stream is one line after the other, then a rest. -/
theorem induct (sep : α) {P : List α → Prop} (hrest : ∀ l, sep ∉ l → P l) (hline : ∀ x l, sep ∉ x → P l → P (x ++ sep :: l)) (l : List α) :
    P l := by
  induction hn : l.length using Nat.strong_induction_on generalizing l with
  | _ n ih =>
    subst hn
    by_cases h : sep ∈ l
    · obtain ⟨x, l', rfl, hx⟩ := List.eq_append_cons_of_mem h
      refine hline x l' hx (ih l'.length ?_ l' rfl)
      rw [List.length_append, List.length_cons]
      omega
    · exact hrest l h

theorem not_mem_rest (sep : α) (l : List α) : sep ∉ rest sep l := by
  induction l using (induct sep) with
  | hrest l h => rwa [rest_of_not_mem h]
  | hline x l h ih => rwa [rest_line h]

theorem not_mem_complete (sep : α) (l : List α) : ∀ x ∈ complete sep l, sep ∉ x := by
  induction l using (induct sep) with
  | hrest l h =>
    rw [complete_of_not_mem h]
    exact fun x hx => absurd hx List.not_mem_nil
  | hline x l h ih =>
    rw [complete_line h]
    exact List.forall_mem_cons.2 ⟨h, ih⟩

theorem complete_ne_nil (h : sep ∈ l) : complete sep l ≠ [] := by
  obtain ⟨x, l', rfl, hx⟩ := List.eq_append_cons_of_mem h
  rw [complete_line hx]
  exact List.cons_ne_nil _ _

/-- The lines and the rest make up the stream. -/
theorem joined_complete (sep : α) (l : List α) : joined sep (complete sep l) ++ rest sep l = l := by
  induction l using (induct sep) with
  | hrest l h =>
    rw [complete_of_not_mem h, rest_of_not_mem h]
    rfl
  | hline x l h ih =>
    rw [complete_line h, rest_line h, joined_cons, List.append_assoc, ih, List.append_assoc, List.singleton_append]

/-- Lines are read off their text. -/
theorem complete_joined : ∀ {ls : List (List α)}, (∀ x ∈ ls, sep ∉ x) → complete sep (joined sep ls) = ls
  | [], _ => complete_of_not_mem List.not_mem_nil
  | x :: ls, h => by
    have hx := List.forall_mem_cons.1 h
    rw [joined_cons, List.append_assoc, List.singleton_append, complete_line hx.1, complete_joined hx.2]

/-- A stream that comes in two parts. -/
theorem complete_append (l l' : List α) : complete sep (l ++ l') = complete sep l ++ complete sep (rest sep l ++ l') := by
  induction l using (induct sep) with
  | hrest l h => rw [complete_of_not_mem h, rest_of_not_mem h, List.nil_append]
  | hline x l h ih => rw [List.append_assoc, List.cons_append, complete_line h, complete_line h, rest_line h, ih, List.cons_append]

end Lines
