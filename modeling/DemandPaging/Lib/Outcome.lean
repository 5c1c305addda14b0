/-
Postconditions for computations that may fail: `Ends P E x` says that `x` either returns a value
with `P` or fails with an error in `E`. The rule for sequencing carries a postcondition of the first
part into the second. Computations that also pass a state on are taken apart at their sequencing.
-/
import Mathlib.Tactic

namespace Outcome

universe u v

variable {ε : Type u} {α β : Type v} {P P' : α → Prop} {Q : β → Prop} {E : ε → Prop} {x : Except ε α}

/-- The computation returns a value with `P`, or fails with an error in `E`. -/
def Ends (P : α → Prop) (E : ε → Prop) : Except ε α → Prop
  | .ok a => P a
  | .error e => E e

@[simp] theorem ends_ok {a : α} : Ends P E (.ok a : Except ε α) ↔ P a := Iff.rfl

@[simp] theorem ends_error {e : ε} : Ends P E (.error e : Except ε α) ↔ E e := Iff.rfl

@[simp] theorem ends_pure {a : α} : Ends P E (pure a : Except ε α) ↔ P a := Iff.rfl

theorem Ends.bind {f : α → Except ε β} (hx : Ends P E x) (hf : ∀ a, P a → Ends Q E (f a)) : Ends Q E (x >>= f) := by
  cases x with
  | error e => exact hx
  | ok a => exact hf a hx

theorem Ends.mono (hx : Ends P E x) (h : ∀ a, P a → P' a) : Ends P' E x := by
  cases x with
  | error e => exact hx
  | ok a => exact h a hx

theorem Ends.of_ok (hx : Ends P E x) {a : α} (h : x = .ok a) : P a := by
  rw [h] at hx
  exact hx

theorem Ends.of_error (hx : Ends P E x) {e : ε} (h : x = .error e) : E e := by
  rw [h] at hx
  exact hx

section State

variable {σ α β : Type} {s s' : σ} {r : β}

/-- A sequence that returns has passed through a result of its first part. -/
theorem bind_some {x : StateT σ Option α} {f : α → StateT σ Option β} :
    (x >>= f) s = some (r, s') ↔ ∃ a s₁, x s = some (a, s₁) ∧ f a s₁ = some (r, s') := by
  show (x s).bind (fun p => f p.1 p.2) = _ ↔ _
  rw [Option.bind_eq_some_iff]
  exact ⟨fun ⟨⟨a, s₁⟩, h₁, h₂⟩ => ⟨a, s₁, h₁, h₂⟩, fun ⟨a, s₁, h₁, h₂⟩ => ⟨⟨a, s₁⟩, h₁, h₂⟩⟩

theorem bind_ok {x : StateT σ (Except ε) α} {f : α → StateT σ (Except ε) β} :
    (x >>= f) s = .ok (r, s') ↔ ∃ a s₁, x s = .ok (a, s₁) ∧ f a s₁ = .ok (r, s') := by
  show (x s >>= fun p => f p.1 p.2) = _ ↔ _
  cases hx : x s with
  | error e => exact ⟨fun h => (nomatch h), fun ⟨_, _, h, _⟩ => (nomatch h)⟩
  | ok p => exact ⟨fun h => ⟨p.1, p.2, rfl, h⟩, fun ⟨a, s₁, h₁, h₂⟩ => by cases h₁; exact h₂⟩

/-- A sequence goes on after a first part that returns. -/
theorem run_bind {x : StateT σ (Except ε) α} {f : α → StateT σ (Except ε) β} {a : α} {s₁ : σ} (h : x s = .ok (a, s₁)) :
    (x >>= f) s = f a s₁ := by
  show (x s >>= fun p => f p.1 p.2) = _
  rw [h]
  rfl

/-- A sequence fails where its first part does. -/
theorem run_bind_error {x : StateT σ (Except ε) α} {f : α → StateT σ (Except ε) β} {e : ε} (h : x s = .error e) :
    (x >>= f) s = .error e := by
  show (x s >>= fun p => f p.1 p.2) = _
  rw [h]
  rfl

end State

end Outcome
