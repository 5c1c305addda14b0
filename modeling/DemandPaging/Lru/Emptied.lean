/-
`lru_free` for a process that owns every entry of the ring. It never empties the ring: of two or more
entries the last one stays, and a single one is marked free with `lru.head` still on it.
-/
import DemandPaging.Lru.Fifo

namespace DemandPaging

open Chain

/-! ## An emptied ring -/

/-- The frames that are reached from `lru.head` along `next`. -/
def Lru.Reachable (l : Lru) (i : LruIdx) : Prop := ∃ n, (fun o => o.bind fun j => (l.frames j).next)^[n] l.head = some i

/-- One `lru_insert` after the other, with what they return. -/
def insertAll : List (Int × Nat) → Lru → Except Stuck (List Int × Lru)
  | [], l => .ok ([], l)
  | (pid, vaddr) :: es, l => do
    let (r, l) ← lruInsert pid vaddr l
    let (rs, l) ← insertAll es l
    return (r :: rs, l)

/-- What is seen of a sequence of insertions: the results, and the entries of the ring. -/
def seen (r : Except Stuck (List Int × Lru)) : Except Stuck (List Int × List (Int × Nat)) :=
  r.map fun p => (p.1, p.2.abs)

/-- Every frame is free, none of the process is reached, and insertions find the ring as after `lru_swap_init`. -/
structure Emptied (pid : Int) (l : Lru) : Prop where
  free : ∀ i, l.bitmap i = -1
  gone : ∀ i, l.Reachable i → (l.frames i).pid ≠ pid
  fresh : ∀ es, seen (insertAll es l) = seen (insertAll es lruInit)

variable {l l' : Lru} {E : List (Int × Nat)} {pid : Int}

/-- Insertions show of a ring only the entries it holds. -/
theorem Queue.seen_insertAll (h : Queue l E) (h' : Queue l' E) : ∀ es, seen (insertAll es l) = seen (insertAll es l') := by
  intro es
  induction es generalizing l l' E with
  | nil => simp [seen, insertAll, Except.map, h.abs_eq, h'.abs_eq]
  | cons e es ih =>
    obtain ⟨p, v⟩ := e
    have hstep : ∀ {m m' l₁ l₁' : Lru} {r : Int}, lruInsert p v m = .ok (r, l₁) → lruInsert p v m' = .ok (r, l₁') →
        seen (insertAll es l₁) = seen (insertAll es l₁') → seen (insertAll ((p, v) :: es) m) = seen (insertAll ((p, v) :: es) m') := by
      intro m m' l₁ l₁' r hm hm' hrest
      simp only [insertAll, hm, hm', ok_bind]
      cases hx : insertAll es l₁ <;> cases hy : insertAll es l₁' <;> simp_all [seen, Except.map]
    have hle : E.length ≤ maxFrameLru := by
      have := h.freeEntries_eq
      omega
    rcases hle.lt_or_eq with hlt | hfull
    · obtain ⟨l₁, hins, hq⟩ := h.insert hlt p v
      obtain ⟨l₁', hins', hq'⟩ := h'.insert hlt p v
      exact hstep hins hins' (ih hq hq')
    · exact hstep (h.insert_full hfull p v) (h'.insert_full hfull p v) (ih h h')

/-- The empty ring is emptied. -/
theorem Queue.emptied (h : Queue l []) : Emptied pid l := by
  obtain ⟨L, hrep, hL, hlk⟩ := h
  obtain rfl : L = [] := List.map_eq_nil_iff.1 hL
  have hhead : l.head = none := hrep.head
  refine ⟨fun i => ?_, fun i => ?_, fun es => Queue.seen_insertAll ⟨[], hrep, rfl, hlk⟩ lruInit_queue es⟩
  · by_contra hi
    exact List.not_mem_nil ((hrep.used i).1 hi)
  · rintro ⟨n, hn⟩
    have hnone : ∀ n, (fun o : Option LruIdx => o.bind fun j => (l.frames j).next)^[n] none = none := by
      intro n
      induction n with
      | zero => rfl
      | succ n ih => rw [Function.iterate_succ_apply]; exact ih
    rw [hhead, hnone] at hn
    cases hn

/-! ## Freeing the owner of every entry -/

/-- Where all entries are the process's, `lru_free` empties the ring only if it was empty. -/
theorem lruFree_emptied_iff (h : RingOk l) (hlk : l.lk = false) (hall : ∀ e ∈ l.abs, e.1 = pid) :
    (∃ l', lruFree pid l = .ok l' ∧ Emptied pid l') ↔ l.abs = [] := by
  have hq := h.queue hlk
  obtain ⟨L, hrep⟩ := h
  constructor
  · rintro ⟨l', hfree, hemp⟩
    by_contra hne
    rw [hrep.abs_eq] at hne hall
    have hpid : ∀ i ∈ L, (l.entry i).1 = pid := fun i hi => hall _ (List.mem_map_of_mem hi)
    rcases L with _ | ⟨x, _ | ⟨y, L⟩⟩
    · exact hne rfl
    · -- the only frame is marked free, and `lru.head` stays on it
      obtain ⟨l₁, hfree₁, hhead, -, -, hent⟩ := lruFree_only hrep hlk (hpid x (by simp))
      rw [hfree] at hfree₁
      cases hfree₁
      refine hemp.gone x ⟨0, hhead⟩ ?_
      exact (congrArg Prod.fst (congrFun hent x)).trans (hpid x (by simp))
    · -- one of several frames stays in use
      obtain ⟨l₁, L', hfree₁, hrep', -, -, hL', -⟩ := lruFree_many pid hrep hlk
      rw [hfree] at hfree₁
      cases hfree₁
      obtain ⟨z, hz⟩ := List.exists_mem_of_ne_nil L' hL'
      exact (hrep'.used z).2 hz (hemp.free z)
  · intro hnil
    rw [hnil] at hq
    refine ⟨l, ?_, hq.emptied⟩
    have hhead : l.head = none := by
      rw [hrep.head, show L = [] by rw [hrep.abs_eq] at hnil; exact List.map_eq_nil_iff.1 hnil]
      rfl
    rw [lruFree, hhead]

/-- Of a ring with two entries of one process the younger one stays. -/
theorem lruFree_emptied_iff_two : ∃ l, lruRun [.insert 1 0, .insert 1 4096] lruInit = .ok l ∧ l.abs = [(1, 0), (1, 4096)] ∧
    ¬∃ l', lruFree 1 l = .ok l' ∧ Emptied 1 l' := by
  obtain ⟨l₁, hins₁, hq₁⟩ := lruInit_queue.insert (by simp) 1 0
  obtain ⟨l₂, hins₂, hq₂⟩ := hq₁.insert (by simp) 1 4096
  have habs := hq₂.abs_eq
  refine ⟨l₂, by simp [lruRun, LruOp.run, hins₁, hins₂], habs, fun hex => ?_⟩
  obtain ⟨L, hrep, -, hlk⟩ := hq₂
  have hnil := (lruFree_emptied_iff ⟨L, hrep⟩ hlk (by rw [habs]; simp)).1 hex
  rw [habs] at hnil
  cases hnil

/-- A process inserts its first page and is reaped: its frame is still what `lru.head` points to. -/
theorem lruFree_keeps_head : ∃ l l', lruRun [.insert 1 0] lruInit = .ok l ∧ RingOk l ∧ l.abs = [(1, 0)] ∧
    lruFree 1 l = .ok l' ∧ ∃ i, l'.Reachable i ∧ (l'.frames i).pid = 1 := by
  obtain ⟨l, hins, hq⟩ := lruInit_queue.insert (by simp) 1 0
  have habs := hq.abs_eq
  obtain ⟨L, hrep, hL, hlk⟩ := hq
  obtain ⟨x, rfl⟩ : ∃ x, L = [x] := List.length_eq_one_iff.1 (by simpa using congrArg List.length hL)
  have hx : l.entry x = (1, 0) := by simpa using hL
  obtain ⟨l', hfree, hhead, -, -, hent⟩ := lruFree_only hrep hlk (congrArg Prod.fst hx)
  refine ⟨l, l', by simp [lruRun, LruOp.run, hins], ⟨_, hrep⟩, habs, hfree, x, ⟨0, hhead⟩, ?_⟩
  exact congrArg Prod.fst ((congrFun hent x).trans hx)

end DemandPaging
