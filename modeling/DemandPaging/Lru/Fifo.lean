/-
The ring refines a bounded FIFO queue. The queue is the list of entries read from `lru.head` along
`next`; each operation of `lru_swap.c` is specified on that list, and from a well-formed ring every
operation that leaves an entry returns, keeps the ring well formed and does what is specified.
-/
import DemandPaging.Lru.Invariant
import DemandPaging.Lru.Queue

namespace DemandPaging

open Chain

/-! ## Reading the ring -/

/-- The frame after `i`, null when that is the head again. -/
def Lru.succ (l : Lru) (i : LruIdx) : Option LruIdx := if (l.frames i).next = l.head then none else (l.frames i).next

/-- The frames of the ring, read from `lru.head` along `next`. -/
def Lru.ring (l : Lru) : List LruIdx := follow l.succ maxFrameLru l.head

/-- The entries of the ring, in that order. -/
def Lru.abs (l : Lru) : List (Int × Nat) := l.ring.map l.entry

theorem Lru.ring_eq {l : Lru} {L : List LruIdx} (h : Path l.succ l.head L) : l.ring = L :=
  h.follow_eq (by simpa using h.nodup.length_le_card)

theorem LruRep.path {l : Lru} {L : List LruIdx} (h : LruRep l L) : Path l.succ l.head L := by
  unfold Lru.succ
  rw [h.head]
  exact h.ring.path

theorem LruRep.abs_eq {l : Lru} {L : List LruIdx} (h : LruRep l L) : l.abs = L.map l.entry := by
  rw [Lru.abs, Lru.ring_eq h.path]

theorem Queue.abs_eq {l : Lru} {E : List (Int × Nat)} (h : Queue l E) : l.abs = E := by
  obtain ⟨L, hrep, rfl, -⟩ := h
  exact hrep.abs_eq

theorem RingOk.queue {l : Lru} (h : RingOk l) (hlk : l.lk = false) : Queue l l.abs := by
  obtain ⟨L, hrep⟩ := h
  exact ⟨L, hrep, hrep.abs_eq.symm, hlk⟩

/-! ## The specified operations -/

/-- What a call returns: nothing, an error code, or the index of a frame. -/
inductive LruRet
  | void
  | code (r : Int)
  | frame (i : Option LruIdx)
  deriving DecidableEq, Repr

namespace LruOp

/-- The operation, with what it returns. -/
def call : LruOp → Lru → Except Stuck (LruRet × Lru)
  | .insert pid vaddr, l => do
    let (r, l) ← lruInsert pid vaddr l
    return (.code r, l)
  | .freeFrame pid vaddr, l => do return (.void, ← lruFreeFrame pid vaddr l)
  | .free pid, l => do return (.void, ← lruFree pid l)
  | .delete, l => do
    match ← lruDelete l with
    | (none, l) => return (.frame none, l)
    | (some index, l) => return (.frame (some index), ← lruReleaseFrame index l)

/-- What the operation does to the queue. -/
def spec : LruOp → List (Int × Nat) → List (Int × Nat)
  | .insert pid vaddr, E => if E.length = maxFrameLru then E else E ++ [(pid, vaddr)]
  | .freeFrame pid vaddr, E => E.erase (pid, vaddr)
  | .free pid, E => E.filter fun e => e.1 ≠ pid
  | .delete, E => E.tail

/-- What the operation returns and which ring it leaves alone: an insertion fails, and then changes
nothing, exactly when every frame is in use; a deletion returns the frame of the oldest entry. -/
def Returns : LruOp → Lru → LruRet → Lru → Prop
  | .insert _ _, l, r, l' =>
    (r = .code (-1) ↔ ∀ i, l.bitmap i ≠ -1) ∧ (r = .code (-1) ∧ l' = l ∨ r = .code 0)
  | .freeFrame _ _, _, r, _ => r = .void
  | .free _, _, r, _ => r = .void
  | .delete, l, r, _ => r = .frame l.head

end LruOp

/-! ## Refinement -/

section Refinement

variable {l : Lru} {E : List (Int × Nat)}

/-- The queue is as long as all frames exactly when none is free. -/
theorem Queue.full_iff (h : Queue l E) : E.length = maxFrameLru ↔ ∀ i, l.bitmap i ≠ -1 := by
  have hfree := h.freeEntries_eq
  have hz : freeEntries l = 0 ↔ ∀ i, l.bitmap i ≠ -1 := by
    rw [freeEntries, Finset.card_eq_zero, Finset.filter_eq_empty_iff]
    simp
  rw [← hz]
  omega

theorem Queue.free (h : Queue l E) (pid : Int) (hne : E.filter (fun e => e.1 ≠ pid) ≠ []) :
    ∃ l', lruFree pid l = .ok l' ∧ Queue l' (E.filter fun e => e.1 ≠ pid) := by
  obtain ⟨L, hrep, rfl, hlk⟩ := h
  rw [List.filter_map] at hne ⊢
  obtain ⟨l', L', hfree, hrep', hlk', hent, hres⟩ := lruFree_rep pid hrep hlk (by
    rintro x rfl hx
    exact hne (by simp [Lru.entry, hx]))
  rcases hres with rfl | ⟨hnil, -⟩
  · refine ⟨l', hfree, _, hrep', ?_, hlk'⟩
    rw [hent]
    rfl
  · exact absurd (congrArg (List.map l.entry) hnil) hne

/-- `lru_delete` takes the frame at the head. -/
theorem lruDelete_head {i : LruIdx} {l' : Lru} (h : lruDelete l = .ok (some i, l')) : l.head = some i := by
  unfold lruDelete at h
  split at h
  · cases h
  · rename_i head hhead
    obtain ⟨l₁, -, h⟩ := bind_eq_ok.1 h
    split at h
    · cases h; exact hhead
    · obtain ⟨l₂, -, h⟩ := bind_eq_ok.1 h
      cases h; exact hhead

theorem Queue.refines (h : Queue l E) (op : LruOp) (hne : op.spec E ≠ []) :
    ∃ r l', op.call l = .ok (r, l') ∧ Queue l' (op.spec E) ∧ op.Returns l r l' := by
  cases op with
  | insert pid vaddr =>
    by_cases hfull : E.length = maxFrameLru
    · refine ⟨.code (-1), l, by simp [LruOp.call, h.insert_full hfull], by simpa [LruOp.spec, hfull] using h, ?_, ?_⟩
      · simpa using h.full_iff.1 hfull
      · exact .inl ⟨rfl, rfl⟩
    · have hfree := h.freeEntries_eq
      obtain ⟨l', hins, hq⟩ := h.insert (by omega) pid vaddr
      refine ⟨.code 0, l', by simp [LruOp.call, hins], by simpa [LruOp.spec, hfull] using hq, ?_, .inr rfl⟩
      rw [← h.full_iff]
      simp [hfull]
  | freeFrame pid vaddr =>
    by_cases hm : (pid, vaddr) ∈ E
    · obtain ⟨A, B, rfl, hA⟩ := List.eq_append_cons_of_mem hm
      have herase : (A ++ (pid, vaddr) :: B).erase (pid, vaddr) = A ++ B := by
        rw [List.erase_append_right _ hA, List.erase_cons_head]
      simp only [LruOp.spec, herase] at hne ⊢
      obtain ⟨l', hl', hq⟩ := h.freeFrame_found hA hne
      exact ⟨.void, l', by simp [LruOp.call, hl'], hq, rfl⟩
    · refine ⟨.void, l, by simp [LruOp.call, h.freeFrame_missing hm], ?_, rfl⟩
      rw [LruOp.spec, List.erase_of_not_mem hm]
      exact h
  | free pid =>
    obtain ⟨l', hl', hq⟩ := h.free pid hne
    exact ⟨.void, l', by simp [LruOp.call, hl'], hq, rfl⟩
  | delete =>
    cases E with
    | nil => exact absurd rfl hne
    | cons e E =>
      obtain ⟨i, l₁, l₂, hdel, -, -, hrel, hq⟩ := h.delete hne
      refine ⟨.frame (some i), l₂, by simp [LruOp.call, hdel, hrel], hq, ?_⟩
      rw [LruOp.Returns, lruDelete_head hdel]

/-- From every well-formed ring, and for every operation that is to leave an entry: the operation
returns what it is specified to, the ring it leaves is well formed, and its entries in the order of
`next` are the specified ones. -/
theorem lruOp_refines_fifo (h : RingOk l) (hlk : l.lk = false) (op : LruOp) (hne : op.spec l.abs ≠ []) :
    ∃ r l', op.call l = .ok (r, l') ∧ RingOk l' ∧ l'.lk = false ∧ l'.abs = op.spec l.abs ∧ op.Returns l r l' := by
  obtain ⟨r, l', hcall, hq, hret⟩ := (h.queue hlk).refines op hne
  refine ⟨r, l', hcall, ?_, ?_, hq.abs_eq, hret⟩
  · obtain ⟨L, hrep, -⟩ := hq
    exact ⟨L, hrep⟩
  · obtain ⟨-, -, -, hlk'⟩ := hq
    exact hlk'

/-- The first insertion into the initial ring. -/
theorem lruOp_refines_fifo_init : ∃ r l', (LruOp.insert 1 4096).call lruInit = .ok (r, l') ∧ RingOk l' ∧
    l'.abs = [(1, 4096)] := by
  have habs : lruInit.abs = [] := rfl
  obtain ⟨r, l', hcall, hok, -, hspec, -⟩ :=
    lruOp_refines_fifo ⟨[], lruInit_rep⟩ rfl (LruOp.insert 1 4096) (by simp [habs, LruOp.spec])
  exact ⟨r, l', hcall, hok, by simpa [habs, LruOp.spec] using hspec⟩

/-! ## Whole runs -/

/-- No operation of the run is to leave the queue empty. -/
def NeverEmpty : List LruOp → List (Int × Nat) → Prop
  | [], _ => True
  | op :: ops, E => op.spec E ≠ [] ∧ NeverEmpty ops (op.spec E)

theorem LruOp.run_eq_call (op : LruOp) (l : Lru) : op.run l = Prod.snd <$> op.call l := by
  cases op with
  | insert pid vaddr => simp only [LruOp.run, LruOp.call]; cases lruInsert pid vaddr l <;> rfl
  | freeFrame pid vaddr => simp only [LruOp.run, LruOp.call]; cases lruFreeFrame pid vaddr l <;> rfl
  | free pid => simp only [LruOp.run, LruOp.call]; cases lruFree pid l <;> rfl
  | delete =>
    simp only [LruOp.run, LruOp.call]
    rcases lruDelete l with e | ⟨_ | i, l₁⟩
    · rfl
    · rfl
    · simp only [ok_bind]
      cases lruReleaseFrame i l₁ <;> rfl

/-- A run that never empties the queue does to the ring what its operations do to the queue. -/
theorem lruRun_fifo : ∀ (ops : List LruOp) {l : Lru} {E : List (Int × Nat)}, Queue l E → NeverEmpty ops E →
    ∃ l', lruRun ops l = .ok l' ∧ Queue l' (ops.foldl (fun E op => op.spec E) E)
  | [], l, E, h, _ => ⟨l, rfl, h⟩
  | op :: ops, l, E, h, hne => by
    obtain ⟨r, l₁, hcall, hq, -⟩ := h.refines op hne.1
    obtain ⟨l', hrun, hq'⟩ := lruRun_fifo ops hq hne.2
    refine ⟨l', ?_, hq'⟩
    rw [lruRun, op.run_eq_call, hcall]
    exact hrun

theorem lruRun_fifo_insert : ∃ l', lruRun [.insert 1 0, .insert 2 4096, .delete] lruInit = .ok l' ∧ Queue l' [(2, 4096)] :=
  lruRun_fifo _ lruInit_queue (by simp [NeverEmpty, LruOp.spec])

end Refinement

end DemandPaging
