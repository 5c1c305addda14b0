/-
Tables of slots: each slot of a list holds one key or is free. A key is found by a scan from the front,
a new one goes into the first free slot or behind the last one, and freeing its slot removes it.
-/
import Mathlib.Data.List.Basic
import Mathlib.Tactic

namespace Slots

variable {E K : Type*} {key : E → Option K} {k : K} {e : E} {es fs : List E} {i n : Nat}

/-- The key of slot `i`, if there is one. -/
def keyAt (key : E → Option K) (es : List E) (i : Nat) : Option K := es[i]?.bind key

/-- No key is in two slots. -/
def Unique (key : E → Option K) (es : List E) : Prop := ∀ i j k, keyAt key es i = some k → keyAt key es j = some k → i = j

/-- The first free slot, or the end. -/
def hole (key : E → Option K) (es : List E) : Nat := es.findIdx fun e => (key e).isNone

/-- The table with one slot set; behind the last one there is a new one. -/
def put (es : List E) (n : Nat) (e : E) : List E := if n < es.length then es.set n e else es ++ [e]

theorem length_put (hn : n ≤ es.length) : (put es n e).length = max es.length (n + 1) := by
  unfold put
  split
  · rw [List.length_set]
    omega
  · rw [List.length_append, List.length_singleton]
    omega

theorem keyAt_put (hn : n ≤ es.length) : keyAt key (put es n e) i = if i = n then key e else keyAt key es i := by
  have hget : (put es n e)[i]? = if i = n then some e else es[i]? := by
    unfold put
    split
    · next hlt =>
      rw [List.getElem?_set]
      grind
    · next hge =>
      have hlen : n = es.length := by omega
      subst hlen
      grind
  unfold keyAt
  rw [hget]
  split <;> rfl

theorem hole_le (key : E → Option K) (es : List E) : hole key es ≤ es.length := List.findIdx_le_length

theorem keyAt_hole (key : E → Option K) (es : List E) : keyAt key es (hole key es) = none := by
  unfold keyAt
  rcases lt_or_ge (hole key es) es.length with hlt | hge
  · have hnone : (key es[hole key es]).isNone = true := List.findIdx_getElem (w := hlt)
    rw [List.getElem?_eq_getElem hlt, Option.bind_some]
    exact Option.isNone_iff_eq_none.1 hnone
  · rw [List.getElem?_eq_none hge, Option.bind_none]

/-- A free slot is used before the table grows. -/
theorem hole_lt (hi : i < es.length) (hfree : key es[i] = none) : hole key es < es.length :=
  List.findIdx_lt_length_of_exists ⟨es[i], List.getElem_mem hi, by rw [hfree]; rfl⟩

section Find

variable [DecidableEq K]

/-- The first slot with a key. -/
def find (key : E → Option K) (k : K) (es : List E) : Option Nat := es.findIdx? fun e => key e = some k

theorem find_eq_some_iff : find key k es = some i ↔ keyAt key es i = some k ∧ ∀ j < i, keyAt key es j ≠ some k := by
  unfold find keyAt
  rw [List.findIdx?_eq_some_iff_getElem]
  constructor
  · rintro ⟨hi, hk, hbefore⟩
    refine ⟨by simpa [hi] using hk, fun j hj => ?_⟩
    have hj' := hbefore j hj
    simpa [hj.trans hi] using hj'
  · rintro ⟨hk, hbefore⟩
    obtain ⟨x, hx, hxk⟩ := Option.bind_eq_some_iff.1 hk
    obtain ⟨hi, rfl⟩ := List.getElem?_eq_some_iff.1 hx
    refine ⟨hi, by simpa using hxk, fun j hj => ?_⟩
    have hj' := hbefore j hj
    simpa [hj.trans hi] using hj'

theorem find_eq_none_iff : find key k es = none ↔ ∀ i, keyAt key es i ≠ some k := by
  unfold find keyAt
  rw [List.findIdx?_eq_none_iff]
  constructor
  · intro h i hi
    obtain ⟨x, hx, hxk⟩ := Option.bind_eq_some_iff.1 hi
    simpa [hxk] using h x (List.mem_of_getElem? hx)
  · intro h x hx
    obtain ⟨i, hi⟩ := List.getElem?_of_mem hx
    simpa [hi] using h i

theorem find_congr (h : ∀ i, keyAt key es i = some k ↔ keyAt key fs i = some k) : find key k es = find key k fs := by
  refine Option.ext fun i => ?_
  rw [find_eq_some_iff, find_eq_some_iff]
  simp only [ne_eq, h]

theorem lt_length_of_find (h : find key k es = some i) : i < es.length := by
  obtain ⟨x, hx, -⟩ := Option.bind_eq_some_iff.1 (find_eq_some_iff.1 h).1
  exact (List.getElem?_eq_some_iff.1 hx).1

/-- A key that is neither the old nor the new one of a slot is found where it was. -/
theorem find_put_of_ne (hn : n ≤ es.length) (hold : keyAt key es n ≠ some k) (hnew : key e ≠ some k) :
    find key k (put es n e) = find key k es := by
  refine find_congr fun i => ?_
  rw [keyAt_put hn]
  split
  · next hi =>
    subst hi
    exact iff_of_false hnew hold
  · rfl

/-- A key that was in no slot is found where it is put. -/
theorem find_put_self (hn : n ≤ es.length) (habsent : find key k es = none) (hnew : key e = some k) :
    find key k (put es n e) = some n := by
  rw [find_eq_some_iff, keyAt_put hn, if_pos rfl]
  refine ⟨hnew, fun j hj => ?_⟩
  rw [keyAt_put hn, if_neg (by omega)]
  exact find_eq_none_iff.1 habsent j

theorem Unique.put (h : Unique key es) (hn : n ≤ es.length) (hnew : ∀ k, key e = some k → find key k es = none) :
    Unique key (Slots.put es n e) := by
  intro i j k hi hj
  rw [keyAt_put hn] at hi hj
  split at hi <;> split at hj
  · omega
  · exact absurd hj (find_eq_none_iff.1 (hnew k hi) j)
  · exact absurd hi (find_eq_none_iff.1 (hnew k hj) i)
  · exact h i j k hi hj

/-- Freeing the slot of a key removes it. -/
theorem find_put_free (h : Unique key es) (hfind : find key k es = some n) (hfree : key e = none) :
    find key k (put es n e) = none := by
  rw [find_eq_none_iff]
  intro i hi
  rw [keyAt_put (lt_length_of_find hfind).le] at hi
  split at hi
  · rw [hfree] at hi
    cases hi
  · next hne => exact hne (h i n k hi (find_eq_some_iff.1 hfind).1)

end Find

end Slots
