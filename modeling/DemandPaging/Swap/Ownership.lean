/-
Who owns a swap slot, on the level of the table. `Owns` says that the lists of a set of processes
are well formed, two of them the same or without a slot in common, and that every slot on them is
marked in the bitmap and counts the processes that have it. Appending to a list, taking a slot out
of it and freeing it keep this when no other process shares the list; taking over a list with
`swap_fork` always does.
-/
import DemandPaging.Swap.Steps

namespace DemandPaging

open Chain

/-! ## The table and the lists -/

section Table

/-- The processes among `A` whose list holds a slot. -/
noncomputable def owners (A : ProcIdx → Prop) (L : ProcIdx → List SlotIdx) (i : SlotIdx) : Finset ProcIdx :=
  @Finset.filter _ (fun q => A q ∧ i ∈ L q) (Classical.decPred _) Finset.univ

theorem mem_owners {A : ProcIdx → Prop} {L : ProcIdx → List SlotIdx} {i : SlotIdx} {q : ProcIdx} :
    q ∈ owners A L i ↔ A q ∧ i ∈ L q := by
  simp [owners]

/-- The lists of the processes `A` in a table, with bits and counts as they should be. -/
structure Owns (A : ProcIdx → Prop) (sw : Swap) (lists : ProcIdx → Option SlotIdx) (L : ProcIdx → List SlotIdx) :
    Prop where
  list : ∀ p, A p → SwapList sw (lists p) (L p)
  shared : ∀ p q, A p → A q → L p = L q ∨ (L p).Disjoint (L q)
  bit : ∀ p, A p → ∀ i ∈ L p, sw.bitmap i = 1
  count : ∀ p, A p → ∀ i ∈ L p, (sw.frames i).count = (owners A L i).card

variable {A : ProcIdx → Prop} {sw sw' : Swap} {lists : ProcIdx → Option SlotIdx} {L : ProcIdx → List SlotIdx}
  {p : ProcIdx}

/-- No other process of `A` has a slot of the list of `p`. -/
def Alone (A : ProcIdx → Prop) (L : ProcIdx → List SlotIdx) (p : ProcIdx) : Prop :=
  ∀ q, A q → q ≠ p → (L p).Disjoint (L q)

theorem Alone.owners_eq (h : Alone A L p) (hp : A p) {i : SlotIdx} (hi : i ∈ L p) : owners A L i = {p} := by
  ext q
  rw [mem_owners, Finset.mem_singleton]
  constructor
  · rintro ⟨hq, hiq⟩
    by_contra hne
    exact h q hq hne hi hiq
  · rintro rfl
    exact ⟨hp, hi⟩

/-- A slot in use by nobody is on no list. -/
theorem Owns.not_mem_of_free (h : Owns A sw lists L) {f : SlotIdx} (hf : freeSlot? sw = some f) {q : ProcIdx}
    (hq : A q) : f ∉ L q := by
  intro hm
  have h1 := h.bit q hq f hm
  rw [freeSlot?_some hf] at h1
  cases h1

/-- A change that keeps bits, counts and links. -/
theorem Owns.congr (h : Owns A sw lists L) (hb : sw'.bitmap = sw.bitmap) (hf : sw'.frames = sw.frames) :
    Owns A sw' lists L := by
  refine ⟨fun q hq => (h.list q hq).congr fun i _ => by rw [hf], h.shared, fun q hq i hi => ?_, fun q hq i hi => ?_⟩
  · rw [hb]; exact h.bit q hq i hi
  · rw [hf]; exact h.count q hq i hi

/-- Appending the first free slot to a list nobody else has. -/
theorem Owns.link (h : Owns A sw lists L) (hp : A p) (hal : Alone A L p) {f : SlotIdx} (hf : freeSlot? sw = some f)
    {kind : SwapKind} {vaddr : Nat} :
    Owns A (sw.linked (L p) kind vaddr f) (Function.update lists p ((lists p).or (some f)))
      (Function.update L p (L p ++ [f])) := by
  have hfree : ∀ q, A q → f ∉ L q := fun q hq => h.not_mem_of_free hf hq
  have hown : ∀ i, i ≠ f → owners A (Function.update L p (L p ++ [f])) i = owners A L i := by
    intro i hi
    ext q
    rw [mem_owners, mem_owners]
    by_cases hq : q = p
    · subst hq; simp [hi]
    · simp [hq]
  have hownf : owners A (Function.update L p (L p ++ [f])) f = {p} := by
    ext q
    rw [mem_owners, Finset.mem_singleton]
    by_cases hq : q = p
    · subst hq; simp [hp]
    · simpa [hq] using hfree q
  refine ⟨fun q hq => ?_, fun q q' hq hq' => ?_, fun q hq i hi => ?_, fun q hq i hi => ?_⟩
  · by_cases hqp : q = p
    · subst hqp
      simpa using (h.list q hq).linked (hfree q hq)
    · simp only [Function.update_of_ne hqp]
      refine (h.list q hq).linked_other (hfree q hq) fun z hz hzq => ?_
      exact hal q hq hqp (List.mem_of_getLast? hz) hzq
  · by_cases hqp : q = p
    · subst hqp
      by_cases hq'p : q' = q
      · subst hq'p; exact Or.inl rfl
      · refine Or.inr ?_
        simp only [Function.update_self, Function.update_of_ne hq'p, List.disjoint_append_left, List.singleton_disjoint]
        exact ⟨hal q' hq' hq'p, hfree q' hq'⟩
    · by_cases hq'p : q' = p
      · subst hq'p
        refine Or.inr ?_
        simp only [Function.update_self, Function.update_of_ne hqp, List.disjoint_append_right, List.disjoint_singleton]
        exact ⟨(hal q hq hqp).symm, hfree q hq⟩
      · simpa [hqp, hq'p] using h.shared q q' hq hq'
  · by_cases hif : i = f
    · subst hif; simp [Swap.linked]
    · have hi' : i ∈ L q := by
        by_cases hqp : q = p
        · subst hqp; simpa [hif] using hi
        · simpa [hqp] using hi
      simpa [Swap.linked, hif] using h.bit q hq i hi'
  · by_cases hif : i = f
    · subst hif; simp [hownf, Swap.linked]
    · have hi' : i ∈ L q := by
        by_cases hqp : q = p
        · subst hqp; simpa [hif] using hi
        · simpa [hqp] using hi
      rw [hown i hif, ← h.count q hq i hi']
      simp only [Swap.linked, hif, if_false]
      split <;> rfl

/-- Taking the last reference to a slot out of a list nobody else has. -/
theorem Owns.unlink (h : Owns A sw lists L) (hp : A p) (hal : Alone A L p) {C B : List SlotIdx} {y : SlotIdx}
    (hL : L p = C ++ y :: B) :
    Owns A (sw.unlinked C y) (Function.update lists p (if C = [] then (sw.frames y).next else lists p))
      (Function.update L p (C ++ B)) := by
  have hlist : SwapList sw (lists p) (C ++ y :: B) := hL ▸ h.list p hp
  have hsub : ∀ i, i ∈ C ++ B → i ∈ L p ∧ i ≠ y := by
    intro i hi
    refine ⟨by rw [hL]; simp at hi ⊢; tauto, ?_⟩
    rintro rfl
    have hnd := hlist.nodup
    rw [List.nodup_middle, List.nodup_cons] at hnd
    exact hnd.1 hi
  have hother : ∀ q, A q → q ≠ p → ∀ i ∈ L q, i ≠ y := by
    rintro q hq hqp i hi rfl
    exact hal q hq hqp (by rw [hL]; simp) hi
  -- a slot that stays on a list stays where it was
  have hkeep : ∀ q, A q → ∀ i ∈ Function.update L p (C ++ B) q, i ∈ L q ∧ i ≠ y := by
    intro q hq i hi
    by_cases hqp : q = p
    · subst hqp; exact hsub i (by simpa using hi)
    · simp only [Function.update_of_ne hqp] at hi
      exact ⟨hi, hother q hq hqp i hi⟩
  refine ⟨fun q hq => ?_, fun q q' hq hq' => ?_, fun q hq i hi => ?_, fun q hq i hi => ?_⟩
  · by_cases hqp : q = p
    · subst hqp; simpa using hlist.unlinked
    · simp only [Function.update_of_ne hqp]
      refine (h.list q hq).unlinked_other fun z hz hzq => ?_
      refine hal q hq hqp ?_ hzq
      rw [hL]; simp [List.mem_of_getLast? hz]
  · by_cases hqq : q = q'
    · subst hqq; exact Or.inl rfl
    by_cases hqp : q = p
    · subst hqp
      refine Or.inr fun i hi hi' => ?_
      exact hal q' hq' (Ne.symm hqq) (hkeep q hq i hi).1 (hkeep q' hq' i hi').1
    · by_cases hq'p : q' = p
      · subst hq'p
        refine Or.inr fun i hi hi' => ?_
        exact hal q hq hqq (hkeep q' hq' i hi').1 (hkeep q hq i hi).1
      · simpa [hqp, hq'p] using h.shared q q' hq hq'
  · obtain ⟨hiL, hiy⟩ := hkeep q hq i hi
    simpa [Swap.unlinked, hiy] using h.bit q hq i hiL
  · obtain ⟨hiL, hiy⟩ := hkeep q hq i hi
    have hown : owners A (Function.update L p (C ++ B)) i = owners A L i := by
      ext q'
      rw [mem_owners, mem_owners]
      by_cases hq'p : q' = p
      · subst hq'p
        simp [hL, hiy]
      · simp [hq'p]
    rw [hown, ← h.count q hq i hiL]
    simp only [Swap.unlinked, hiy, if_false]
    split <;> rfl

/-- A new process takes over the list of another one, and every slot of it is counted once more. -/
theorem Owns.share (h : Owns A sw lists L) (hp : A p) {c : ProcIdx} (hc : ¬ A c) :
    Owns (fun q => A q ∨ q = c) (sw.counted (L p)) (Function.update lists c (lists p)) (Function.update L c (L p)) := by
  have hne : ∀ q, A q → q ≠ c := by rintro q hq rfl; exact hc hq
  -- every list is one that was there before
  have hold : ∀ q, A q ∨ q = c → ∃ q', A q' ∧ Function.update L c (L p) q = L q' ∧
      Function.update lists c (lists p) q = lists q' := by
    rintro q (hq | rfl)
    · exact ⟨q, hq, by simp [hne q hq], by simp [hne q hq]⟩
    · exact ⟨p, hp, by simp, by simp⟩
  refine ⟨fun q hq => ?_, fun q q' hq hq' => ?_, fun q hq i hi => ?_, fun q hq i hi => ?_⟩
  · obtain ⟨q', hq', e1, e2⟩ := hold q hq
    rw [e1, e2]
    refine (h.list q' hq').congr fun i _ => ?_
    rw [Swap.counted_frames]
    split <;> rfl
  · obtain ⟨r, hr, e1, -⟩ := hold q hq
    obtain ⟨r', hr', e2, -⟩ := hold q' hq'
    rw [e1, e2]
    exact h.shared r r' hr hr'
  · obtain ⟨q', hq', e1, -⟩ := hold q hq
    rw [e1] at hi
    exact h.bit q' hq' i hi
  · obtain ⟨q', hq', e1, -⟩ := hold q hq
    rw [e1] at hi
    have hmem : ∀ q, q ∈ owners (fun q => A q ∨ q = c) (Function.update L c (L p)) i ↔
        q ∈ owners A L i ∨ q = c ∧ i ∈ L p := by
      intro q
      rw [mem_owners, mem_owners]
      by_cases hqc : q = c
      · subst hqc; simp [hc]
      · simp [hqc]
    by_cases hip : i ∈ L p
    · have hins : owners (fun q => A q ∨ q = c) (Function.update L c (L p)) i = insert c (owners A L i) := by
        ext q; rw [hmem, Finset.mem_insert]; tauto
      have hcn : c ∉ owners A L i := fun hcm => hc (mem_owners.1 hcm).1
      rw [hins, Finset.card_insert_of_notMem hcn, Swap.counted_frames, if_pos hip, h.count q' hq' i hi]
      push_cast; rfl
    · have hsame : owners (fun q => A q ∨ q = c) (Function.update L c (L p)) i = owners A L i := by
        ext q; rw [hmem]; tauto
      rw [hsame, Swap.counted_frames, if_neg hip, h.count q' hq' i hi]

/-- A process that shares its list with nobody goes; its bits may be cleared. -/
theorem Owns.drop (h : Owns A sw lists L) {c : ProcIdx} (hal : Alone A L c) {lists' : ProcIdx → Option SlotIdx}
    (hl : ∀ q, q ≠ c → lists' q = lists q) (hf : sw'.frames = sw.frames)
    (hb : ∀ i, i ∉ L c → sw'.bitmap i = sw.bitmap i) : Owns (fun q => A q ∧ q ≠ c) sw' lists' L := by
  have hnot : ∀ q, A q → q ≠ c → ∀ i ∈ L q, i ∉ L c := fun q hq hqc i hi hic => hal q hq hqc hic hi
  refine ⟨fun q hq => ?_, fun q q' hq hq' => h.shared q q' hq.1 hq'.1, fun q hq i hi => ?_, fun q hq i hi => ?_⟩
  · rw [hl q hq.2]
    exact (h.list q hq.1).congr fun i _ => by rw [hf]
  · rw [hb i (hnot q hq.1 hq.2 i hi)]
    exact h.bit q hq.1 i hi
  · have hown : owners (fun q => A q ∧ q ≠ c) L i = owners A L i := by
      ext q'
      rw [mem_owners, mem_owners]
      constructor
      · rintro ⟨hq', hm⟩; exact ⟨hq'.1, hm⟩
      · rintro ⟨hq', hm⟩
        exact ⟨⟨hq', by rintro rfl; exact hnot q hq.1 hq.2 i hi hm⟩, hm⟩
    rw [hown, hf]
    exact h.count q hq.1 i hi

/-- Lists nobody shares stay so when a free slot is appended to one of them. -/
theorem Alone.link (hal : ∀ q, A q → Alone A L q) {f : SlotIdx} (hf : ∀ q, A q → f ∉ L q) :
    ∀ q, A q → Alone A (Function.update L p (L p ++ [f])) q := by
  intro q hq r hr hrq i hi hi'
  by_cases hqp : q = p
  · subst hqp
    simp only [Function.update_self, Function.update_of_ne hrq, List.mem_append, List.mem_singleton] at hi hi'
    rcases hi with hi | rfl
    · exact hal q hq r hr hrq hi hi'
    · exact hf r hr hi'
  · by_cases hrp : r = p
    · subst hrp
      simp only [Function.update_self, Function.update_of_ne hqp, List.mem_append, List.mem_singleton] at hi hi'
      rcases hi' with hi' | rfl
      · exact hal q hq r hr hrq hi hi'
      · exact hf q hq hi
    · simp only [Function.update_of_ne hqp, Function.update_of_ne hrp] at hi hi'
      exact hal q hq r hr hrq hi hi'

theorem Owns.congr_lists (h : Owns A sw lists L) {lists' : ProcIdx → Option SlotIdx} (hl : ∀ q, A q → lists' q = lists q) :
    Owns A sw lists' L :=
  ⟨fun q hq => by rw [hl q hq]; exact h.list q hq, h.shared, h.bit, h.count⟩

/-- `swap_out*` of a process whose list is its own. -/
theorem Owns.linkSlot (h : Owns A sw lists L) (hp : A p) (hal : Alone A L p) {kind : SwapKind} {vaddr : Nat}
    {slot list : Option SlotIdx} (hlink : linkSlot kind vaddr (lists p) sw = .ok (slot, list, sw')) :
    ∃ L', Owns A sw' (Function.update lists p list) L' ∧ ((∀ q, A q → Alone A L q) → ∀ q, A q → Alone A L' q) := by
  obtain ⟨-, M, hM, ⟨-, -, rfl, rfl⟩ | ⟨f, hf, -, rfl, rfl⟩⟩ := linkSlot_inv hlink
  · refine ⟨L, ?_, id⟩
    rw [Function.update_eq_self]
    exact h.congr rfl rfl
  · obtain rfl := hM.unique (h.list p hp)
    exact ⟨_, h.link hp hal hf, fun hall => Alone.link hall fun q hq => h.not_mem_of_free hf hq⟩

/-- `swap_in*` of a process whose list is its own, or has no slot of the page. -/
theorem Owns.takeSlot (h : Owns A sw lists L) (hp : A p) {vaddr : Nat}
    (hal : Alone A L p ∨ ∀ i ∈ L p, (sw.frames i).vaddr ≠ vaddr) {slot list : Option SlotIdx}
    (htake : takeSlot vaddr (lists p) sw = .ok (slot, list, sw')) : ∃ L', Owns A sw' (Function.update lists p list) L' := by
  obtain ⟨-, rfl, rfl, -⟩ | ⟨x, y, hx, hlk, -, hreach, hv, -⟩ := takeSlot_inv htake
  · rw [Function.update_eq_self]
    exact ⟨L, h⟩
  have hy : y ∈ L p := (h.list p hp).mem_iff_reach.2 ⟨x, hx, hreach⟩
  have hal : Alone A L p := hal.resolve_right fun hno => hno y hy hv
  obtain ⟨C, z, B, hL, hC, hz⟩ := exists_first ⟨y, hy, hv⟩
  have hcount : (sw.frames z).count = 1 := by
    have hzL : z ∈ L p := by rw [hL]; simp
    rw [h.count p hp z hzL, hal.owners_eq hp hzL]
    simp
  have hlist : SwapList sw (lists p) (C ++ z :: B) := hL ▸ h.list p hp
  cases (takeSlot_last hlist hlk hC hz hcount).symm.trans htake
  exact ⟨_, h.unlink hp hal hL⟩

end Table

end DemandPaging
