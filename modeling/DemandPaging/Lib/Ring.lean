/-
Circular doubly linked lists threaded through two successor functions: `IsRing next prev L` says
that reading `next` from the head of `L` visits exactly `L` and returns to the head, and that
`prev` undoes `next` on the way. The rules are the ones an intrusive list needs: a ring may be
rotated, grown at its end, and one of its elements may be unlinked.
-/
import DemandPaging.Lib.Chain
import Mathlib.Data.List.Chain

namespace Ring

open Chain

variable {α : Type*} {next prev next' prev' : α → Option α} {x y : α} {L A B : List α}

/-- `y` follows `x`, in both directions. -/
def Link (next prev : α → Option α) (x y : α) : Prop := next x = some y ∧ prev y = some x

/-- The ring read from the head of `L`: no element twice, each linked to the one after it and the
last one to the first. The empty list is the empty ring. -/
structure IsRing (next prev : α → Option α) (L : List α) : Prop where
  nodup : L.Nodup
  chain : L.IsChain (Link next prev)
  close : ∀ z ∈ L.getLast?, ∀ h ∈ L.head?, Link next prev z h

theorem isRing_nil : IsRing next prev ([] : List α) := ⟨List.nodup_nil, .nil, by simp⟩

theorem isRing_singleton : IsRing next prev [x] ↔ next x = some x ∧ prev x = some x := by
  constructor
  · intro h; exact h.close x (by simp) x (by simp)
  · intro h; exact ⟨by simp, by simp, by simpa [Link] using h⟩

/-- A ring may be read from any of its elements. -/
theorem IsRing.rotate (h : IsRing next prev (A ++ B)) : IsRing next prev (B ++ A) := by
  obtain ⟨hn, hc, hl⟩ := h
  obtain ⟨ha, hb, hab⟩ := List.isChain_append.1 hc
  rcases A with _ | ⟨a, A⟩
  · simpa using ⟨by simpa using hn, hb, by simpa using hl⟩
  rcases B with _ | ⟨b, B⟩
  · simpa using ⟨by simpa using hn, ha, by simpa using hl⟩
  have hlast : ∀ (x y : α) (K M : List α), (x :: K ++ y :: M).getLast? = (y :: M).getLast? := by
    intro x y K M; rw [List.getLast?_append]; simp [List.getLast?_cons]
  refine ⟨(List.perm_append_comm.nodup_iff).1 hn, List.isChain_append.2 ⟨hb, ha, ?_⟩, ?_⟩
  · intro u hu v hv
    exact hl u (by rw [hlast]; exact hu) v (by simpa using hv)
  · intro u hu v hv
    rw [hlast] at hu
    exact hab u hu v (by simpa using hv)

/-- The successor of the first element: the second one, or itself in a ring of one. -/
theorem IsRing.next_head (h : IsRing next prev (x :: L)) : next x = (L ++ [x]).head? := by
  rcases L with _ | ⟨y, L⟩
  · simpa using (isRing_singleton.1 h).1
  · exact (List.isChain_cons_cons.1 h.chain).1.1

/-- The predecessor of the first element is the last one. -/
theorem IsRing.prev_head (h : IsRing next prev (x :: L)) : prev x = (x :: L).getLast? := by
  obtain ⟨z, hz⟩ : ∃ z, (x :: L).getLast? = some z := ⟨_, List.getLast?_eq_some_getLast (by simp)⟩
  rw [hz]
  exact (h.close z hz x (by simp)).2

/-- The successor of an element anywhere in the ring. -/
theorem IsRing.next_mid (h : IsRing next prev (A ++ x :: B)) : next x = (B ++ A ++ [x]).head? := by
  have h' : IsRing next prev (x :: (B ++ A)) := by simpa using h.rotate
  simpa using h'.next_head

/-- The predecessor of an element anywhere in the ring. -/
theorem IsRing.prev_mid (h : IsRing next prev (A ++ x :: B)) : prev x = (x :: (B ++ A)).getLast? := by
  have h' : IsRing next prev (x :: (B ++ A)) := by simpa using h.rotate
  exact h'.prev_head

theorem IsRing.next_mem (h : IsRing next prev L) (hx : x ∈ L) : ∃ y ∈ L, next x = some y := by
  obtain ⟨A, B, rfl⟩ := List.append_of_mem hx
  rw [h.next_mid]
  rcases B with _ | ⟨b, B⟩
  · rcases A with _ | ⟨a, A⟩
    · exact ⟨x, by simp, rfl⟩
    · exact ⟨a, by simp, rfl⟩
  · exact ⟨b, by simp, rfl⟩

/-- A ring is what can be reached from any of its elements. -/
theorem IsRing.mem_iff_reach (h : IsRing next prev (x :: L)) :
    y ∈ x :: L ↔ Relation.ReflTransGen (fun a b => next a = some b) x y := by
  constructor
  · have hreach : ∀ {L : List α} {x : α}, (x :: L).IsChain (Link next prev) → ∀ y ∈ x :: L,
        Relation.ReflTransGen (fun a b => next a = some b) x y := by
      intro L
      induction L with
      | nil =>
        intro x _ y hy
        obtain rfl := List.mem_singleton.1 hy
        exact .refl
      | cons z L ih =>
        intro x hc y hy
        obtain ⟨hxz, hc⟩ := List.isChain_cons_cons.1 hc
        rcases List.mem_cons.1 hy with rfl | hy
        · exact .refl
        · exact .head hxz.1 (ih hc y hy)
    exact hreach h.chain y
  · intro hr
    induction hr with
    | refl => simp
    | tail _ hab ih =>
      obtain ⟨c, hc, hn⟩ := h.next_mem ih
      rw [hab] at hn
      exact Option.some.inj hn ▸ hc

/-- Read up to the element before its head, a ring is a path. -/
theorem IsRing.path [DecidableEq α] (h : IsRing next prev L) :
    Path (fun i => if next i = L.head? then none else next i) L.head? L := by
  -- `A` has been passed, and the path goes on from the rest
  have hrest : ∀ (B A : List α), IsRing next prev (A ++ B) →
      Path (fun i => if next i = (A ++ B).head? then none else next i) B.head? B := by
    intro B
    induction B with
    | nil => intro A _; rfl
    | cons x B ih =>
      intro A h
      have ih := ih (A ++ [x]) (by simpa using h)
      rw [List.append_assoc, List.singleton_append] at ih
      refine ⟨rfl, ?_⟩
      have hnext : (if next x = (A ++ x :: B).head? then none else next x) = B.head? := by
        rw [h.next_mid]
        cases B with
        | nil => cases A <;> simp
        | cons y B =>
          have hy : (A ++ x :: y :: B).head? ≠ some y := by
            intro hc
            have hnd := h.nodup
            cases A with
            | nil => simp at hc; subst hc; simp at hnd
            | cons a A => simp at hc; subst hc; simp at hnd
          rw [List.cons_append, List.cons_append, List.head?_cons, if_neg (Ne.symm hy), List.head?_cons]
      show Path _ (if next x = (A ++ x :: B).head? then none else next x) B
      rw [hnext]
      exact ih
  exact hrest L [] h

/-- A ring of one element is recognised by its first `next` pointer. -/
theorem IsRing.next_self_iff (h : IsRing next prev (x :: L)) : next x = some x ↔ L = [] := by
  rw [h.next_head]
  rcases L with _ | ⟨y, L⟩
  · simp
  · have : y ≠ x := by rintro rfl; simpa using h.nodup
    simp [this]

/-- Links between elements only use `next` of all but the last and `prev` of all but the first. -/
theorem isChain_congr : ∀ {L : List α}, L.IsChain (Link next prev) →
    (∀ u ∈ L.dropLast, next' u = next u) → (∀ u ∈ L.tail, prev' u = prev u) →
    L.IsChain (Link next' prev')
  | [], _, _, _ => .nil
  | [_], _, _, _ => .singleton _
  | a :: b :: L, h, hn, hp => by
    obtain ⟨⟨h1, h2⟩, h3⟩ := List.isChain_cons_cons.1 h
    refine List.isChain_cons_cons.2 ⟨⟨?_, ?_⟩, isChain_congr h3 ?_ ?_⟩
    · rw [hn a (by simp)]; exact h1
    · rw [hp b (by simp)]; exact h2
    · intro u hu; exact hn u (by simp [hu])
    · intro u hu; exact hp u (by simp [List.mem_of_mem_tail hu])

/-- Pointers outside the ring are free to change. -/
theorem IsRing.congr (h : IsRing next prev L) (hn : ∀ u ∈ L, next' u = next u)
    (hp : ∀ u ∈ L, prev' u = prev u) : IsRing next' prev' L := by
  refine ⟨h.nodup, isChain_congr h.chain (fun u hu => hn u (List.mem_of_mem_dropLast hu))
    (fun u hu => hp u (List.mem_of_mem_tail hu)), fun z hz y hy => ?_⟩
  obtain ⟨h1, h2⟩ := h.close z hz y hy
  exact ⟨by rw [hn z (List.mem_of_getLast? hz)]; exact h1, by rw [hp y (List.mem_of_head? hy)]; exact h2⟩

/-- A new element is hung between the last one and the first. -/
theorem IsRing.push (h : IsRing next prev (x :: L)) {z : α} (hz : (x :: L).getLast? = some z) (hy : y ∉ x :: L)
    (hn : ∀ u ∈ (x :: L).dropLast, next' u = next u) (hp : ∀ u ∈ L, prev' u = prev u)
    (hzn : next' z = some y) (hyp : prev' y = some z) (hyn : next' y = some x) (hxp : prev' x = some y) :
    IsRing next' prev' (x :: L ++ [y]) := by
  refine ⟨?_, List.isChain_append.2 ⟨isChain_congr h.chain hn hp, .singleton _, ?_⟩, ?_⟩
  · rw [List.nodup_append]
    exact ⟨h.nodup, by simp, fun a ha b hb => by simp at hb; subst hb; rintro rfl; exact hy ha⟩
  · intro u hu v hv
    rw [hz] at hu
    simp at hu hv
    subst hu hv
    exact ⟨hzn, hyp⟩
  · intro u hu v hv
    rw [List.getLast?_append] at hu
    simp at hu hv
    subst hu hv
    exact ⟨hyn, hxp⟩

/-- Unlinking the first element of a ring of at least two closes the gap. -/
theorem IsRing.unlink_head (h : IsRing next prev (x :: L)) {z w : α} (hz : L.getLast? = some z)
    (hw : L.head? = some w) (hn : ∀ u ∈ L.dropLast, next' u = next u) (hp : ∀ u ∈ L.tail, prev' u = prev u)
    (hzn : next' z = some w) (hwp : prev' w = some z) : IsRing next' prev' L := by
  refine ⟨(List.nodup_cons.1 h.nodup).2, isChain_congr (List.isChain_cons.1 h.chain).2 hn hp, ?_⟩
  intro u hu v hv
  rw [hz] at hu; rw [hw] at hv
  cases hu; cases hv
  exact ⟨hzn, hwp⟩

end Ring
