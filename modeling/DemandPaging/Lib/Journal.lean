/-
Computations that pass a state on, may fail, and record what they do as they go: the record is there also
where they fail. `Records` says that such a computation is an ordinary one with a record of some form.
-/
import DemandPaging.Lib.Outcome

/-- A computation on a state with a record of what it does. -/
def Journal (ω ε σ α : Type) : Type := σ → Except ε (α × σ) × List ω

namespace Journal

open Outcome

variable {ω ε σ α β : Type}

/-- The second part is run where the first one returns, and its record follows. -/
def bind (x : Journal ω ε σ α) (f : α → Journal ω ε σ β) : Journal ω ε σ β := fun s =>
  match x s with
  | (.error e, l) => (.error e, l)
  | (.ok (a, s'), l) => ((f a s').1, l ++ (f a s').2)

instance : Monad (Journal ω ε σ) where
  pure a := fun s => (.ok (a, s), [])
  bind := bind

/-- One more item of the record. -/
def emit (w : ω) : Journal ω ε σ Unit := fun s => (.ok ((), s), [w])

/-- A computation that records nothing. -/
def quiet (y : StateT σ (Except ε) α) : Journal ω ε σ α := fun s => (y s, [])

/-- The computation does what `y` does from the states in `I`, which it keeps, with a record in `Q` for its result. -/
def Records (I : σ → Prop) (x : Journal ω ε σ α) (y : StateT σ (Except ε) α) (Q : Except ε α → List ω → Prop) : Prop :=
  ∀ s, I s → (x s).1 = y s ∧ (∀ a s', y s = .ok (a, s') → I s') ∧ Q ((y s).map Prod.fst) (x s).2

variable {I : σ → Prop} {x : Journal ω ε σ α} {y : StateT σ (Except ε) α} {Q Q' : Except ε α → List ω → Prop}
  {f : α → Journal ω ε σ β} {g : α → StateT σ (Except ε) β} {R : α → Except ε β → List ω → Prop} {S : Except ε β → List ω → Prop}

theorem Records.post (h : Records I x y Q) (hQ : ∀ r l, Q r l → Q' r l) : Records I x y Q' := fun s hs =>
  ⟨(h s hs).1, (h s hs).2.1, hQ _ _ (h s hs).2.2⟩

theorem records_quiet (hI : ∀ s a s', I s → y s = .ok (a, s') → I s') (hQ : ∀ r, Q r []) : Records I (quiet y) y Q := fun s hs =>
  ⟨rfl, fun a s' => hI s a s' hs, hQ _⟩

theorem records_pure {a : α} (hQ : Q (.ok a) []) : Records I (pure a : Journal ω ε σ α) (pure a) Q := by
  intro s hs
  refine ⟨rfl, fun b s' hb => ?_, hQ⟩
  cases hb
  exact hs

/-- What is done one after the other. -/
theorem Records.bind (hx : Records I x y Q) (hf : ∀ a, Records I (f a) (g a) (R a)) (herr : ∀ e l, Q (.error e) l → S (.error e) l)
    (hok : ∀ a l r l', Q (.ok a) l → R a r l' → S r (l ++ l')) : Records I (x >>= f) (y >>= g) S := by
  intro s hs
  obtain ⟨h1, h2, h3⟩ := hx s hs
  show (Journal.bind x f s).1 = _ ∧ _ ∧ S _ (Journal.bind x f s).2
  unfold Journal.bind
  cases hxs : x s with
  | mk r l =>
    rw [hxs] at h1 h3
    cases r with
    | error e =>
      have hy : y s = .error e := h1.symm
      rw [hy] at h3
      rw [run_bind_error hy]
      exact ⟨rfl, fun b s' hb => (nomatch hb), herr e l h3⟩
    | ok p =>
      obtain ⟨a, s₁⟩ := p
      have hy : y s = .ok (a, s₁) := h1.symm
      obtain ⟨k1, k2, k3⟩ := hf a s₁ (h2 a s₁ hy)
      rw [hy] at h3
      rw [run_bind hy]
      exact ⟨k1, k2, hok a l _ _ h3 k3⟩

/-- What is looked at does not change. -/
theorem Records.get_bind {f : σ → Journal ω ε σ β} {g : σ → StateT σ (Except ε) β} (hf : ∀ s, I s → Records I (f s) (g s) S) :
    Records I (quiet get >>= f) (get >>= g) S := fun s hs => hf s hs s hs

/-- An item in front of a record. -/
theorem Records.emit_bind {w : ω} (h : Records I x y Q) (hQ : ∀ r l, Q r l → Q' r (w :: l)) :
    Records I (emit w >>= fun _ => x) y Q' := fun s hs => ⟨(h s hs).1, (h s hs).2.1, hQ _ _ (h s hs).2.2⟩

/-- An item behind the record. -/
theorem Records.bind_emit {x : Journal ω ε σ Unit} {y : StateT σ (Except ε) Unit} {Q Q' : Except ε Unit → List ω → Prop} {w : ω}
    (h : Records I x y Q) (herr : ∀ e l, Q (.error e) l → Q' (.error e) l) (hok : ∀ l, Q (.ok ()) l → Q' (.ok ()) (l ++ [w])) :
    Records I (x >>= fun _ => emit w) y Q' := by
  have hpure : y = y >>= fun _ => pure () := by
    funext s
    cases hy : y s with
    | error e => rw [run_bind_error hy]
    | ok p => rw [run_bind hy]; rfl
  rw [hpure]
  refine h.bind (R := fun _ r l => r = .ok () ∧ l = [w]) (fun _ => ?_) herr ?_
  · intro s hs
    refine ⟨rfl, fun a s' ha => ?_, rfl, rfl⟩
    cases ha
    exact hs
  · rintro a l r l' hl ⟨rfl, rfl⟩
    exact hok l hl

/-- A step without a record in front. -/
theorem Records.quiet_bind {y : StateT σ (Except ε) α} (hI : ∀ s a s', I s → y s = .ok (a, s') → I s')
    (hf : ∀ a, Records I (f a) (g a) S) (herr : ∀ e, S (.error e) []) : Records I (quiet y >>= f) (y >>= g) S := by
  refine Records.bind (records_quiet hI fun _ => rfl) hf (Q := fun _ l => l = []) ?_ ?_
  · rintro e l rfl
    exact herr e
  · rintro a l r l' rfl h
    exact h

end Journal
