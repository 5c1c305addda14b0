/-
Computations cut into atomic steps, between which others may change the state. A step shows an event;
run without interruption a thread is a function of the state. `Follows` says that the events a thread
shows are accepted by a monitor, whatever the others do to the state between its steps.
-/
import Mathlib.Tactic

/-- A thread of steps on `σ` that fail with `ε`, show `E` and end with a value. -/
inductive Thread (ε σ E α : Type) : Type 1
  | done (a : α)
  | step {β : Type} (f : σ → Except ε (E × β × σ)) (k : β → Thread ε σ E α)

namespace Thread

variable {ε σ E α β : Type}

def bind : Thread ε σ E α → (α → Thread ε σ E β) → Thread ε σ E β
  | done a, k => k a
  | step f j, k => step f fun b => (j b).bind k

instance : Monad (Thread ε σ E) where
  pure := done
  bind := bind

/-- One step that always shows the event. -/
def atomic (e : E) (f : σ → Except ε (α × σ)) : Thread ε σ E α :=
  step (fun s => do let (a, s) ← f s; return (e, a, s)) done

/-- The thread from the first step to the last. -/
def run : Thread ε σ E α → σ → Except ε (α × σ)
  | done a, s => .ok (a, s)
  | step f k, s => do
    let (_, b, s) ← f s
    (k b).run s

@[simp] theorem run_pure (a : α) (s : σ) : (pure a : Thread ε σ E α).run s = .ok (a, s) := rfl

@[simp] theorem run_bind (k : α → Thread ε σ E β) :
    ∀ (t : Thread ε σ E α) (s : σ), (t >>= k).run s = t.run s >>= fun r => (k r.1).run r.2
  | done _, _ => rfl
  | step f j, s => by
    show (do let (_, b, s) ← f s; ((j b).bind k).run s) = (do let r ← (do let (_, b, s) ← f s; (j b).run s); (k r.1).run r.2)
    cases f s with
    | error x => rfl
    | ok r => exact run_bind k (j r.2.1) r.2.2

@[simp] theorem run_atomic (e : E) (f : σ → Except ε (α × σ)) (s : σ) : (atomic e f).run s = f s := by
  show (do let (_, b, s) ← (do let (a, s) ← f s; return (e, a, s)); Except.ok (b, s)) = f s
  cases f s <;> rfl

/-! ## Monitors -/

variable {M : Type} {δ : M → E → σ → Option M} {last : M → α → Prop} {m m' : M}

/-- The monitor, which sees the event of a step and the state it leaves, accepts every step of the
thread, and ends in a state that fits the thread's value. -/
def Follows (δ : M → E → σ → Option M) (last : M → α → Prop) : M → Thread ε σ E α → Prop
  | m, done a => last m a
  | m, step f k => ∀ s e b s', f s = .ok (e, b, s') → ∃ m', δ m e s' = some m' ∧ Follows δ last m' (k b)

theorem Follows.bind {last : M → β → Prop} {k : α → Thread ε σ E β} :
    ∀ {t : Thread ε σ E α} {m : M}, Follows δ (fun m a => Follows δ last m (k a)) m t → Follows δ last m (t >>= k)
  | done _, _, h => h
  | step f j, m, h => by
    intro s e b s' hf
    obtain ⟨m', hm', hj⟩ := h s e b s' hf
    exact ⟨m', hm', hj.bind⟩

theorem Follows.mono {last' : M → α → Prop} (hlast : ∀ m a, last m a → last' m a) :
    ∀ {t : Thread ε σ E α} {m : M}, Follows δ last m t → Follows δ last' m t
  | done _, _, h => hlast _ _ h
  | step f j, m, h => by
    intro s e b s' hf
    obtain ⟨m', hm', hj⟩ := h s e b s' hf
    exact ⟨m', hm', hj.mono hlast⟩

theorem Follows.atomic {e : E} {f : σ → Except ε (α × σ)}
    (h : ∀ s a s', f s = .ok (a, s') → ∃ m', δ m e s' = some m' ∧ last m' a) : Follows δ last m (Thread.atomic e f) := by
  intro s e' b s' hf
  dsimp only at hf
  cases hfs : f s with
  | error x => rw [hfs] at hf; cases hf
  | ok r =>
    rw [hfs] at hf
    cases hf
    exact h s _ _ hfs

/-! ## Invariants -/

variable {I : σ → Prop} {Q : α → Prop}

/-- Every step of the thread keeps `I`, whatever the others do that keeps it too, and the thread ends with a value in `Q`. -/
def Keeps (I : σ → Prop) (Q : α → Prop) : Thread ε σ E α → Prop
  | done a => Q a
  | step f k => ∀ s e b s', I s → f s = .ok (e, b, s') → I s' ∧ Keeps I Q (k b)

theorem Keeps.bind {R : α → Prop} {Q : β → Prop} {k : α → Thread ε σ E β} :
    ∀ {t : Thread ε σ E α}, Keeps I R t → (∀ a, R a → Keeps I Q (k a)) → Keeps I Q (t >>= k)
  | done a, h, hk => hk a h
  | step f j, h, hk => by
    intro s e b s' hs hf
    obtain ⟨hs', hj⟩ := h s e b s' hs hf
    exact ⟨hs', hj.bind hk⟩

theorem Keeps.atomic {e : E} {f : σ → Except ε (α × σ)} (h : ∀ s a s', I s → f s = .ok (a, s') → I s' ∧ Q a) :
    Keeps I Q (Thread.atomic e f) := by
  intro s e' b s' hs hf
  dsimp only at hf
  cases hfs : f s with
  | error x => rw [hfs] at hf; cases hf
  | ok r =>
    rw [hfs] at hf
    cases hf
    exact h s _ _ hs hfs

theorem Keeps.run : ∀ {t : Thread ε σ E α} {s s' : σ} {a : α}, Keeps I Q t → I s → t.run s = .ok (a, s') → I s' ∧ Q a
  | done _, _, _, _, h, hs, hrun => by
    cases hrun
    exact ⟨hs, h⟩
  | step f k, s, s', a, h, hs, hrun => by
    rw [Thread.run] at hrun
    cases hf : f s with
    | error x => rw [hf] at hrun; cases hrun
    | ok r =>
      obtain ⟨e, b, s₁⟩ := r
      rw [hf] at hrun
      obtain ⟨hs₁, hk⟩ := h s e b s₁ hs hf
      exact hk.run hs₁ hrun

end Thread
