/-
Owners that hold resources in slots, where no resource is held twice. A fresh resource may be put into
a slot, an owner may come with all its slots empty, and one may leave and give up what it holds.
-/
import Mathlib.Tactic

variable {ι σ β : Type*} {A B : ι → Prop} {g g' : ι → σ → Option β} {used used' : β → Prop} {i j : ι} {s t : σ} {b : β}

/-- Each owner in `A` holds only used resources, and no resource is held twice. -/
structure Holding (A : ι → Prop) (g : ι → σ → Option β) (used : β → Prop) : Prop where
  used : ∀ i s b, A i → g i s = some b → used b
  inj : ∀ i j s t b, A i → A j → g i s = some b → g j t = some b → i = j ∧ s = t

namespace Holding

theorem congr (h : Holding A g used) (hg : ∀ j t, A j → g' j t = g j t) : Holding A g' used :=
  ⟨fun i s b hi hb => h.used i s b hi (by rw [← hg i s hi]; exact hb),
    fun i j s t b hi hj hb hb' => h.inj i j s t b hi hj (by rw [← hg i s hi]; exact hb) (by rw [← hg j t hj]; exact hb')⟩

/-- A resource that was not in use is put into one slot. -/
theorem take (h : Holding A g used) (hb : ¬used b) (hput : g' i s = some b)
    (hg : ∀ j t, A j → ¬(j = i ∧ t = s) → g' j t = g j t) : Holding A g' fun c => used c ∨ c = b := by
  have hcases : ∀ j t c, A j → g' j t = some c → (j = i ∧ t = s ∧ c = b) ∨ (g j t = some c ∧ used c) := by
    intro j t c hj hc
    by_cases hit : j = i ∧ t = s
    · obtain ⟨rfl, rfl⟩ := hit
      rw [hput] at hc
      exact .inl ⟨rfl, rfl, (Option.some.inj hc).symm⟩
    · rw [hg j t hj hit] at hc
      exact .inr ⟨hc, h.used j t c hj hc⟩
  refine ⟨fun j t c hj hc => ?_, fun j k t u c hj hk hc hc' => ?_⟩
  · rcases hcases j t c hj hc with ⟨-, -, rfl⟩ | ⟨-, hu⟩
    · exact .inr rfl
    · exact .inl hu
  · rcases hcases j t c hj hc with ⟨rfl, rfl, hcb⟩ | ⟨h1, hu⟩ <;> rcases hcases k u c hk hc' with ⟨rfl, rfl, hcb'⟩ | ⟨h2, hu'⟩
    · exact ⟨rfl, rfl⟩
    · exact absurd (hcb ▸ hu') hb
    · exact absurd (hcb' ▸ hu) hb
    · exact h.inj j k t u c hj hk h1 h2

/-- Owners may leave, and new ones come with empty slots. -/
theorem owners (h : Holding A g used) (hB : ∀ j, B j → A j ∨ ∀ t, g j t = none) : Holding B g used := by
  refine ⟨fun i s b hi hb => ?_, fun i j s t b hi hj hb hb' => ?_⟩
  · rcases hB i hi with hi | hi
    · exact h.used i s b hi hb
    · rw [hi s] at hb; cases hb
  · rcases hB i hi with hi | hi
    · rcases hB j hj with hj | hj
      · exact h.inj i j s t b hi hj hb hb'
      · rw [hj t] at hb'; cases hb'
    · rw [hi s] at hb; cases hb

end Holding
