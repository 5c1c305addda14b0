/-
Pre- and postconditions for computations that pass a state on and may fail: from a state with `P` the
computation either returns a value and a state with `Q`, or fails with an error in `E`.
-/
import DemandPaging.Lib.Outcome

namespace Outcome

variable {ε σ α β : Type} {E : ε → Prop} {P P' : σ → Prop} {Q Q' : α → σ → Prop} {R : β → σ → Prop}
  {x y : StateT σ (Except ε) α} {f : α → StateT σ (Except ε) β}

def Triple (E : ε → Prop) (P : σ → Prop) (x : StateT σ (Except ε) α) (Q : α → σ → Prop) : Prop :=
  ∀ s, P s → Ends (fun p => Q p.1 p.2) E (x s)

namespace Triple

theorem bind (hx : Triple E P x Q) (hf : ∀ a, Triple E (Q a) (f a) R) : Triple E P (x >>= f) R :=
  fun s hs => (hx s hs).bind fun p hp => hf p.1 p.2 hp

theorem pure {a : α} (h : ∀ s, P s → Q a s) : Triple E P (pure a) Q := fun s hs => h s hs

theorem conseq (hx : Triple E P x Q) (hP : ∀ s, P' s → P s) (hQ : ∀ a s, Q a s → Q' a s) : Triple E P' x Q' :=
  fun s hs => (hx s (hP s hs)).mono fun p hp => hQ p.1 p.2 hp

theorem pre (hx : Triple E P x Q) (hP : ∀ s, P' s → P s) : Triple E P' x Q := hx.conseq hP fun _ _ h => h

/-- What is looked at does not matter. -/
theorem get_any {g : σ → StateT σ (Except ε) β} (hg : ∀ s, Triple E P (g s) R) : Triple E P (get >>= g) R := fun s hs => hg s s hs

theorem ite {c : Prop} [Decidable c] (hx : c → Triple E P x Q) (hy : ¬c → Triple E P y Q) : Triple E P (if c then x else y) Q := by
  split
  · next h => exact hx h
  · next h => exact hy h

theorem of_ok (hx : Triple E P x Q) {s s' : σ} {a : α} (hs : P s) (h : x s = .ok (a, s')) : Q a s' := (hx s hs).of_ok h

end Triple

end Outcome
