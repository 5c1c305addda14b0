/-
Singly linked lists threaded through one successor function: `Path next o L` says that following
`next` from `o` visits exactly `L` and then ends. A path is unique and visits no element twice,
pointers outside it are free to change, and it can be grown at its end or have one element cut out.
-/
import Mathlib.Data.List.Nodup
import Mathlib.Logic.Relation
import Mathlib.Tactic

namespace Chain

variable {α : Type*} {next next' : α → Option α} {o o' : Option α} {x y z : α} {L L' A B : List α}

/-- Following `next` from `o` visits exactly `L`. -/
def Path (next : α → Option α) : Option α → List α → Prop
  | o, [] => o = none
  | o, x :: L => o = some x ∧ Path next (next x) L

@[simp] theorem path_nil : Path next o [] ↔ o = none := Iff.rfl

@[simp] theorem path_cons : Path next o (x :: L) ↔ o = some x ∧ Path next (next x) L := Iff.rfl

theorem path_none : Path next none L ↔ L = [] := by
  cases L <;> simp

/-- A path is determined by where it starts. -/
theorem Path.unique : ∀ {L L' : List α} {o : Option α}, Path next o L → Path next o L' → L = L'
  | [], L', o, h, h' => by cases h; exact (path_none.1 h').symm
  | x :: L, [], o, h, h' => by cases h'; exact absurd h.1 (by simp)
  | x :: L, y :: L', o, h, h' => by
    obtain ⟨rfl, h⟩ := h
    obtain ⟨e, h'⟩ := h'
    cases e
    rw [h.unique h']

/-- A path runs through its prefix and goes on from there. -/
theorem Path.suffix : ∀ {A : List α} {o : Option α}, Path next o (A ++ x :: B) → Path next (some x) (x :: B)
  | [], o, h => by obtain ⟨rfl, h⟩ := h; exact ⟨rfl, h⟩
  | _ :: A, _, h => Path.suffix (A := A) h.2

theorem Path.nodup : ∀ {L : List α} {o : Option α}, Path next o L → L.Nodup
  | [], _, _ => List.nodup_nil
  | x :: L, o, h => by
    refine List.nodup_cons.2 ⟨fun hx => ?_, h.2.nodup⟩
    -- from a second visit of `x` the path would have to repeat itself
    obtain ⟨A, B, rfl⟩ := List.append_of_mem hx
    have h1 : Path next (some x) (x :: (A ++ x :: B)) := ⟨rfl, h.2⟩
    have h2 : Path next (some x) (x :: B) := Path.suffix h.2
    have := congrArg List.length (h1.unique h2)
    simp at this; omega

/-- The successor of an element of a path: the next one, or none at the end. -/
theorem Path.next_eq (h : Path next o (A ++ x :: B)) : next x = B.head? := by
  have := h.suffix.2
  cases B with
  | nil => simpa using this
  | cons b B => simpa using this.1

theorem Path.head? (h : Path next o L) : o = L.head? := by
  cases L with
  | nil => simpa using h
  | cons x L => simpa using h.1

/-- A path visits what can be reached along `next`. -/
theorem Path.mem_iff_reach (h : Path next o L) :
    z ∈ L ↔ ∃ x, o = some x ∧ Relation.ReflTransGen (fun a b => next a = some b) x z := by
  constructor
  · intro hz
    induction L generalizing o with
    | nil => cases hz
    | cons x L ih =>
      refine ⟨x, h.1, ?_⟩
      rcases List.mem_cons.1 hz with rfl | hz
      · exact .refl
      · obtain ⟨y, hy, hr⟩ := ih h.2 hz
        exact .head hy hr
  · rintro ⟨x, rfl, hr⟩
    induction hr with
    | refl =>
      cases L with
      | nil => cases h
      | cons y L => obtain rfl := Option.some.inj h.1; simp
    | tail _ hab ih =>
      obtain ⟨A, B, rfl⟩ := List.append_of_mem ih
      rw [h.next_eq] at hab
      have := List.mem_of_head? hab
      simp [this]

/-- The first `n` elements that are reached along `next`. -/
def follow (next : α → Option α) : Nat → Option α → List α
  | 0, _ => []
  | _, none => []
  | n + 1, some x => x :: follow next n (next x)

/-- Following a path visits it. -/
theorem Path.follow_eq : ∀ {L : List α} {o : Option α} {n : Nat}, Path next o L → L.length ≤ n → follow next n o = L
  | [], _, n, h, _ => by cases h; cases n <;> rfl
  | x :: L, _, n + 1, h, hn => by
    obtain ⟨rfl, h⟩ := h
    rw [follow, h.follow_eq (by simpa using hn)]
  | _ :: _, _, 0, _, hn => by simp at hn

theorem Path.exists_snoc (h : Path next (some x) L) : ∃ A z, L = A ++ [z] := by
  rcases List.eq_nil_or_concat' L with rfl | hL
  · cases h
  · exact hL

/-- Pointers outside a path are free to change. -/
theorem Path.congr : ∀ {L : List α} {o : Option α}, Path next o L → (∀ u ∈ L, next' u = next u) → Path next' o L
  | [], _, h, _ => h
  | x :: L, _, h, hn => by
    refine ⟨h.1, ?_⟩
    rw [hn x (by simp)]
    exact h.2.congr (fun u hu => hn u (by simp [hu]))

/-- A path is cut after an element that is made to point to a last one. -/
theorem Path.redirect : ∀ {A : List α} {o : Option α}, Path next o (A ++ z :: B) → (∀ u ∈ A, next' u = next u) →
    next' z = some y → next' y = none → Path next' o (A ++ [z, y])
  | [], _, h, _, hz, hy => ⟨h.1, hz, hy⟩
  | a :: A, _, h, hn, hz, hy => by
    refine ⟨h.1, ?_⟩
    rw [hn a (by simp)]
    exact Path.redirect h.2 (fun u hu => hn u (by simp [hu])) hz hy

/-- An element other than the first can be cut out of a path. -/
theorem Path.cut : ∀ {A : List α} {o : Option α}, Path next o (A ++ z :: x :: B) →
    (∀ u ∈ A ++ z :: x :: B, u ≠ z → next' u = next u) → next' z = next x → Path next' o (A ++ z :: B)
  | [], o, h, hn, hz => by
    have hnd := h.nodup
    refine ⟨h.1, ?_⟩
    rw [hz]
    refine h.2.2.congr fun u hu => hn u (by simp [hu]) ?_
    rintro rfl
    simp at hnd; tauto
  | a :: A, o, h, hn, hz => by
    have ha : a ≠ z := by
      rintro rfl
      have := h.nodup
      simp at this
    refine ⟨h.1, ?_⟩
    rw [hn a (by simp) ha]
    exact Path.cut h.2 (fun u hu => hn u (by simp at hu ⊢; tauto)) hz

end Chain
