/-
Runs of operations that can fail, against runs of a specification that cannot. A relation between the
states that one operation keeps, wherever the operation is permitted, is kept by every run whose
operations all are, and the outputs are those of the specification.
-/
import Mathlib.Data.List.Basic

namespace Refine

variable {S A Op Out ε : Type*}

/-- The outputs of a run of operations and the state they leave. -/
def run (step : Op → S → Except ε (Out × S)) : List Op → S → Except ε (List Out × S)
  | [], s => .ok ([], s)
  | op :: ops, s =>
    match step op s with
    | .error e => .error e
    | .ok (o, s) =>
      match run step ops s with
      | .error e => .error e
      | .ok (os, s) => .ok (o :: os, s)

/-- The same for a specification. -/
def specRun (spec : Op → A → Out × A) : List Op → A → List Out × A
  | [], a => ([], a)
  | op :: ops, a =>
    let (os, a') := specRun spec ops (spec op a).2
    ((spec op a).1 :: os, a')

/-- Each operation of the run is permitted in the state it finds. -/
def Permitted (step : Op → S → Except ε (Out × S)) (permits : Op → S → Prop) : List Op → S → Prop
  | [], _ => True
  | op :: ops, s => permits op s ∧ ∀ o s', step op s = .ok (o, s') → Permitted step permits ops s'

/-- What is permitted up to some point is permitted. -/
theorem Permitted.of_append {step : Op → S → Except ε (Out × S)} {permits : Op → S → Prop} {ops ops' : List Op} {s : S}
    (h : Permitted step permits (ops ++ ops') s) : Permitted step permits ops s := by
  induction ops generalizing s with
  | nil => trivial
  | cons op ops ih => exact ⟨h.1, fun o s' hs => ih (h.2 o s' hs)⟩

/-- One permitted operation does what the specification does. -/
structure Simulates (step : Op → S → Except ε (Out × S)) (permits : Op → S → Prop) (spec : Op → A → Out × A) (R : A → S → Prop) :
    Prop where
  one : ∀ {op : Op} {a : A} {s : S}, R a s → permits op s → ∃ s', step op s = .ok ((spec op a).1, s') ∧ R (spec op a).2 s'

theorem Simulates.run {step : Op → S → Except ε (Out × S)} {permits : Op → S → Prop} {spec : Op → A → Out × A} {R : A → S → Prop}
    (h : Simulates step permits spec R) {ops : List Op} {a : A} {s : S} (hR : R a s) (hops : Permitted step permits ops s) :
    ∃ s', Refine.run step ops s = .ok ((specRun spec ops a).1, s') ∧ R (specRun spec ops a).2 s' := by
  induction ops generalizing a s with
  | nil => exact ⟨s, rfl, hR⟩
  | cons op ops ih =>
    obtain ⟨s₁, hstep, hR₁⟩ := h.one hR hops.1
    obtain ⟨s₂, hrun, hR₂⟩ := ih hR₁ (hops.2 _ _ hstep)
    refine ⟨s₂, ?_, hR₂⟩
    simp only [Refine.run, hstep, hrun, specRun]

end Refine
