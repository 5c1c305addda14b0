/-
The ring as a bounded queue of (pid, address) entries, oldest first: insertions append while there
is a free frame, `lru_delete` takes the oldest entry, and freeing an entry that is not there changes
nothing.
-/
import DemandPaging.Lru.Ring

namespace DemandPaging

/-- The ring holds the entries `E`, oldest first, and its lock is free. -/
def Queue (l : Lru) (E : List (Int × Nat)) : Prop := ∃ L, LruRep l L ∧ L.map l.entry = E ∧ l.lk = false

/-- The number of free frames of the ring. -/
def freeEntries (l : Lru) : Nat := (Finset.univ.filter fun i => l.bitmap i = -1).card

theorem exists_free_of_freeEntries {l : Lru} (h : 0 < freeEntries l) : getFreeFrameLru l ≠ none := by
  intro hn
  obtain ⟨i, hi⟩ := Finset.card_pos.1 h
  exact getFreeFrameLru_none.1 hn i (by simpa using hi)

theorem freeEntries_take {l l' : Lru} {i : LruIdx} (hi : l.bitmap i = -1) (hb : l'.bitmap = Function.update l.bitmap i 1) :
    freeEntries l' + 1 = freeEntries l := by
  have hmem : i ∈ Finset.univ.filter fun i => l.bitmap i = -1 := by simpa using hi
  have herase : (Finset.univ.filter fun i => l'.bitmap i = -1) = (Finset.univ.filter fun i => l.bitmap i = -1).erase i := by
    ext j
    rw [hb]
    by_cases hj : j = i
    · subst hj; simp
    · simp [hj]
  unfold freeEntries
  rw [herase, Finset.card_erase_of_mem hmem]
  have := Finset.card_pos.2 ⟨i, hmem⟩
  omega

theorem lruInit_queue : Queue lruInit [] := ⟨[], lruInit_rep, rfl, rfl⟩

namespace Queue

variable {l : Lru} {E : List (Int × Nat)} {e : Int × Nat} {pid : Int} {vaddr : Nat}

theorem freeEntries_eq (h : Queue l E) : freeEntries l + E.length = maxFrameLru := by
  obtain ⟨L, hrep, rfl, -⟩ := h
  have hused : (Finset.univ.filter fun i => ¬ l.bitmap i = -1) = L.toFinset := by
    ext i
    simpa using hrep.used i
  have hsum := Finset.card_filter_add_card_filter_not (s := (Finset.univ : Finset LruIdx)) fun i => l.bitmap i = -1
  rw [hused, List.toFinset_card_of_nodup hrep.ring.nodup, Finset.card_univ, Fintype.card_fin] at hsum
  rw [List.length_map]
  exact hsum

/-- An insertion appends while a frame is free. -/
theorem insert (h : Queue l E) (hlen : E.length < maxFrameLru) (pid : Int) (vaddr : Nat) :
    ∃ l', lruInsert pid vaddr l = .ok (0, l') ∧ Queue l' (E ++ [(pid, vaddr)]) := by
  have hfree := h.freeEntries_eq
  obtain ⟨L, hrep, rfl, hlk⟩ := h
  cases hf : getFreeFrameLru l with
  | none => exact absurd hf (exists_free_of_freeEntries (by omega))
  | some i =>
    obtain ⟨l', hins, hrep', hlk', hent⟩ := lruInsert_rep hrep hlk hf pid vaddr
    refine ⟨l', hins, L ++ [i], hrep', ?_, hlk'⟩
    have hi : i ∉ L := fun hc => (hrep.used i).2 hc (getFreeFrameLru_some hf)
    rw [hent, List.map_append, List.map_singleton, Function.update_self]
    refine congrArg (· ++ _) (List.map_congr_left fun j hj => ?_)
    rw [Function.update_of_ne (by rintro rfl; exact hi hj)]

/-- A full queue refuses the insertion. -/
theorem insert_full (h : Queue l E) (hlen : E.length = maxFrameLru) (pid : Int) (vaddr : Nat) :
    lruInsert pid vaddr l = .ok (-1, l) := by
  have hfree := h.freeEntries_eq
  obtain ⟨L, hrep, rfl, hlk⟩ := h
  refine lruInsert_full hlk ?_ pid vaddr
  rw [getFreeFrameLru_none]
  intro i hi
  have : 0 < freeEntries l := Finset.card_pos.2 ⟨i, by simpa using hi⟩
  omega

/-- `lru_delete`, reading the entry and `lru_release_frame` take the oldest entry off. -/
theorem delete (h : Queue l (e :: E)) (hne : E ≠ []) :
    ∃ i l₁ l₂, lruDelete l = .ok (some i, l₁) ∧ lruGetPidFrame i l₁ = .ok e.1 ∧ lruGetVaddrFrame i l₁ = .ok e.2 ∧
      lruReleaseFrame i l₁ = .ok l₂ ∧ Queue l₂ E := by
  obtain ⟨L, hrep, hE, hlk⟩ := h
  cases L with
  | nil => cases hE
  | cons i L =>
    simp only [List.map_cons, List.cons.injEq] at hE
    obtain ⟨rfl, rfl⟩ := hE
    obtain ⟨l₁, l₂, hdel, hlk₁, hent₁, hrel, hrep₂, hlk₂, hent₂⟩ := lruDelete_rep hrep hlk (by simpa using hne)
    have hi := congrFun hent₁ i
    simp only [Lru.entry, Prod.mk.injEq] at hi
    refine ⟨i, l₁, l₂, hdel, ?_, ?_, hrel, L, hrep₂, by rw [hent₂], hlk₂⟩
    · rw [lruGetPidFrame, if_pos hlk₁, hi.1]; rfl
    · rw [lruGetVaddrFrame, if_pos hlk₁, hi.2]; rfl

theorem freeFrame_missing (h : Queue l E) (hm : (pid, vaddr) ∉ E) : lruFreeFrame pid vaddr l = .ok l := by
  obtain ⟨L, hrep, rfl, hlk⟩ := h
  refine lruFreeFrame_missing hrep hlk fun i hi he => hm ?_
  exact List.mem_map.2 ⟨i, hi, he⟩

end Queue

/-- The ring holds an entry of the process: one can be reached from the head. -/
def Lru.Holds (l : Lru) (pid : Int) : Prop :=
  ∃ x i, l.head = some x ∧ Relation.ReflTransGen (fun a b => (l.frames a).next = some b) x i ∧ (l.frames i).pid = pid

namespace Queue

variable {l l' : Lru} {E : List (Int × Nat)} {pid : Int} {vaddr : Nat}

theorem holds_iff (h : Queue l E) : l.Holds pid ↔ ∃ e ∈ E, e.1 = pid := by
  obtain ⟨L, hrep, rfl, -⟩ := h
  cases L with
  | nil => simp [Lru.Holds, hrep.head]
  | cons x L =>
    have hhd : l.head = some x := hrep.head
    simp only [Lru.Holds, hhd, List.mem_map, exists_exists_and_eq_and]
    constructor
    · rintro ⟨y, i, hy, hr, hi⟩
      cases hy
      exact ⟨i, hrep.ring.mem_iff_reach.2 hr, hi⟩
    · rintro ⟨i, hi, he⟩
      exact ⟨x, i, rfl, hrep.ring.mem_iff_reach.1 hi, he⟩

/-- `lru_free_frame` takes off the first entry of the page when another entry stays. -/
theorem freeFrame_found {A B : List (Int × Nat)} (h : Queue l (A ++ (pid, vaddr) :: B)) (hA : (pid, vaddr) ∉ A)
    (hne : A ++ B ≠ []) : ∃ l', lruFreeFrame pid vaddr l = .ok l' ∧ Queue l' (A ++ B) := by
  obtain ⟨L, hrep, hL, hlk⟩ := h
  obtain ⟨LA, LB', rfl, rfl, hB⟩ := List.map_eq_append_iff.1 hL
  obtain ⟨y, LB, rfl, hy, rfl⟩ := List.map_eq_cons_iff.1 hB
  obtain ⟨l', hfree, hrep', hlk', hent⟩ := lruFreeFrame_rep hrep hlk (by simpa using hne)
    (fun i hi he => hA (List.mem_map.2 ⟨i, hi, he⟩)) hy
  exact ⟨l', hfree, LA ++ LB, hrep', by rw [hent, List.map_append], hlk'⟩

/-- Freed or not, the only entry of a ring is still reached from the head. -/
theorem freeFrame_only (h : Queue l [(pid, vaddr)]) : ∃ l', lruFreeFrame pid vaddr l = .ok l' ∧ l'.Holds pid := by
  obtain ⟨L, hrep, hL, hlk⟩ := h
  obtain ⟨x, L', rfl, hx, hnil⟩ := List.map_eq_cons_iff.1 hL
  obtain rfl := List.map_eq_nil_iff.1 hnil
  obtain ⟨l', hfree, hhd, -, -, hent⟩ := lruFreeFrame_only hrep hlk hx
  refine ⟨l', hfree, x, x, hhd, .refl, ?_⟩
  have he := congrFun hent x
  rw [hx] at he
  exact congrArg Prod.fst he

/-- After `lru_free_frame` the ring holds an entry of the process unless it held none, or just the one
freed and entries of others. -/
theorem freeFrame_holds (h : Queue l E) (hfree : lruFreeFrame pid vaddr l = .ok l') : l'.Holds pid ↔
    ¬(E.filter (·.1 = pid) = [] ∨ 2 ≤ E.length ∧ E.filter (·.1 = pid) = [(pid, vaddr)]) := by
  by_cases hm : (pid, vaddr) ∈ E
  · obtain ⟨A, B, rfl, hA⟩ := List.eq_append_cons_of_mem hm
    have hfilter : (A ++ (pid, vaddr) :: B).filter (·.1 = pid) = A.filter (·.1 = pid) ++ (pid, vaddr) :: B.filter (·.1 = pid) := by
      simp
    by_cases hne : A ++ B = []
    · obtain ⟨rfl, rfl⟩ := List.append_eq_nil_iff.1 hne
      obtain ⟨l₁, hl₁, hholds⟩ := freeFrame_only h
      obtain rfl := Except.ok.inj (hl₁.symm.trans hfree)
      simp [hholds]
    · obtain ⟨l₁, hl₁, hq⟩ := h.freeFrame_found hA hne
      obtain rfl := Except.ok.inj (hl₁.symm.trans hfree)
      have hlen : 2 ≤ (A ++ (pid, vaddr) :: B).length := by
        have := List.length_pos_iff.2 hne
        simp at this ⊢
        omega
      have hone : A.filter (·.1 = pid) ++ (pid, vaddr) :: B.filter (·.1 = pid) = [(pid, vaddr)] ↔
          ¬∃ e ∈ A ++ B, e.1 = pid := by
        constructor
        · intro he
          have hlen := congrArg List.length he
          simp only [List.length_append, List.length_cons, List.length_nil] at hlen
          have hnil : (A ++ B).filter (·.1 = pid) = [] := by
            rw [List.filter_append, ← List.length_eq_zero_iff, List.length_append]
            omega
          rintro ⟨e, hmem, hp⟩
          exact List.filter_eq_nil_iff.1 hnil e hmem (by simpa using hp)
        · intro hno
          have hnil : ∀ C, C ⊆ A ++ B → C.filter (·.1 = pid) = [] := fun C hC =>
            List.filter_eq_nil_iff.2 fun e he hp => hno ⟨e, hC he, by simpa using hp⟩
          rw [hnil A (by simp), hnil B (by simp)]
          rfl
      rw [hq.holds_iff, hfilter, hone]
      simp only [List.append_eq_nil_iff, reduceCtorEq, and_false, false_or, hlen, true_and, not_not]
  · rw [h.freeFrame_missing hm] at hfree
    obtain rfl := Except.ok.inj hfree
    have hnot : E.filter (·.1 = pid) ≠ [(pid, vaddr)] := by
      intro he
      have hmem : (pid, vaddr) ∈ E.filter (·.1 = pid) := by rw [he]; simp
      exact hm (List.mem_filter.1 hmem).1
    rw [h.holds_iff]
    simp [hnot]

end Queue

end DemandPaging
