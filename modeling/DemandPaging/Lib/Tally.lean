/-
Slots that point to resources, and how many point to each of them.
-/
import Mathlib.Tactic

namespace Tally

open Function

/-- A sum over a family in which one member is replaced. -/
theorem sum_update {ι β M : Type*} [Fintype ι] [DecidableEq ι] [AddCommMonoid M] (g : β → M) (a : ι → β) (k : ι) (v : β) :
    ∑ i, g (update a k v i) + g (a k) = ∑ i, g (a i) + g v := by
  rw [← Finset.add_sum_erase Finset.univ _ (Finset.mem_univ k), ← Finset.add_sum_erase Finset.univ (fun i => g (a i)) (Finset.mem_univ k),
    update_self]
  have : ∑ x ∈ Finset.univ.erase k, g (update a k v x) = ∑ x ∈ Finset.univ.erase k, g (a x) :=
    Finset.sum_congr rfl fun i hi => by rw [update_of_ne (Finset.ne_of_mem_erase hi)]
  rw [this]
  abel

variable {ι β : Type*} [Fintype ι] [DecidableEq β] {g : ι → Option β} {k : ι} {b c : β}

/-- The slots that point to `b`. -/
def tally (g : ι → Option β) (b : β) : Nat := ∑ i, if g i = some b then 1 else 0

theorem tally_pos (h : g k = some b) : 0 < tally g b := by
  refine Finset.sum_pos' (fun _ _ => Nat.zero_le _) ⟨k, Finset.mem_univ k, ?_⟩
  rw [if_pos h]
  exact Nat.one_pos

theorem tally_none (h : ∀ i, g i = none) (b : β) : tally g b = 0 := by
  simp [tally, h]

variable [DecidableEq ι]

theorem tally_put (h : g k = none) (c b : β) : tally (update g k (some c)) b = tally g b + if b = c then 1 else 0 := by
  have := sum_update (fun o : Option β => if o = some b then 1 else 0) g k (some c)
  simpa [tally, h, eq_comm] using this

theorem tally_clear (h : g k = some c) (b : β) : (tally (update g k none) b + if b = c then 1 else 0) = tally g b := by
  have := sum_update (fun o : Option β => if o = some b then 1 else 0) g k none
  simpa [tally, h, eq_comm] using this

end Tally
