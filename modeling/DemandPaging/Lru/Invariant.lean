/-
The representation invariant of the LRU ring over whole runs. No removal resets `lru.head`, so an
operation that takes the last frame out of the ring leaves the head on a free frame. As long as no
step empties the ring, every operation returns and the ring stays exactly the frames in use; and a
step that does empty it breaks the invariant.
-/
import DemandPaging.Lru.Ring

namespace DemandPaging

open Ring

/-! ## Runs -/

/-- The operations on the ring, each run to completion. -/
inductive LruOp
  | insert (pid : Int) (vaddr : Nat)
  | freeFrame (pid : Int) (vaddr : Nat)
  | free (pid : Int)
  | delete

namespace LruOp

def run : LruOp → Lru → Except Stuck Lru
  | .insert pid vaddr, l => do return (← lruInsert pid vaddr l).2
  | .freeFrame pid vaddr, l => lruFreeFrame pid vaddr l
  | .free pid, l => lruFree pid l
  | .delete, l => do
    match ← lruDelete l with
    | (none, l) => return l
    | (some index, l) => lruReleaseFrame index l

/-- The operation takes out the only frame of the ring. -/
def Empties : LruOp → Lru → Prop
  | .insert _ _, _ => False
  | .freeFrame pid vaddr, l => ∃ x, l.head = some x ∧ (l.frames x).next = some x ∧ l.entry x = (pid, vaddr)
  | .free pid, l => ∃ x, l.head = some x ∧ (l.frames x).next = some x ∧ (l.frames x).pid = pid
  | .delete, l => ∃ x, l.head = some x ∧ (l.frames x).next = some x

end LruOp

/-- A sequence of operations. -/
def lruRun : List LruOp → Lru → Except Stuck Lru
  | [], l => .ok l
  | op :: ops, l => do lruRun ops (← op.run l)

/-- No step of the run takes out the only frame. -/
def Sparing : List LruOp → Lru → Prop
  | [], _ => True
  | op :: ops, l => ¬op.Empties l ∧ ∀ l', op.run l = .ok l' → Sparing ops l'

/-! ## One step -/

section Step

variable {l : Lru}

theorem not_ringOk {x : LruIdx} (hh : l.head = some x) (hb : l.bitmap x = -1) : ¬RingOk l := by
  rintro ⟨L, h⟩
  rw [h.head] at hh
  exact (h.used x).2 (List.mem_of_head? hh) hb

/-- The head is alone exactly when its successor is itself. -/
theorem LruRep.alone {x : LruIdx} {L : List LruIdx} (h : LruRep l (x :: L)) :
    (∃ y, l.head = some y ∧ (l.frames y).next = some y) ↔ L = [] := by
  have hhd : l.head = some x := h.head
  rw [← h.ring.next_self_iff]
  constructor
  · rintro ⟨y, hy, hn⟩; rw [hhd] at hy; cases hy; exact hn
  · intro hn; exact ⟨x, hhd, hn⟩

theorem insert_step {L : List LruIdx} (h : LruRep l L) (hlk : l.lk = false) (pid : Int) (vaddr : Nat) :
    ∃ l', (LruOp.insert pid vaddr).run l = .ok l' ∧ RingOk l' ∧ l'.lk = false := by
  rcases hf : getFreeFrameLru l with _ | i
  · exact ⟨l, by simp [LruOp.run, lruInsert_full hlk hf], ⟨L, h⟩, hlk⟩
  · obtain ⟨l', h1, h2, h3, -⟩ := lruInsert_rep h hlk hf pid vaddr
    exact ⟨l', by simp [LruOp.run, h1], ⟨_, h2⟩, h3⟩

theorem freeFrame_step {L : List LruIdx} (h : LruRep l L) (hlk : l.lk = false) (pid : Int) (vaddr : Nat)
    (hs : ¬(LruOp.freeFrame pid vaddr).Empties l) :
    ∃ l', (LruOp.freeFrame pid vaddr).run l = .ok l' ∧ RingOk l' ∧ l'.lk = false := by
  by_cases hm : ∀ i ∈ L, l.entry i ≠ (pid, vaddr)
  · exact ⟨l, lruFreeFrame_missing h hlk hm, ⟨L, h⟩, hlk⟩
  · -- split the ring at the first frame of the page
    obtain ⟨A, y, B, rfl, hA, hy⟩ : ∃ A y B, L = A ++ y :: B ∧ (∀ i ∈ A, l.entry i ≠ (pid, vaddr)) ∧
        l.entry y = (pid, vaddr) := by
      push Not at hm
      obtain ⟨y, hy, he⟩ := hm
      have hsome : (L.find? fun i => l.entry i = (pid, vaddr)).isSome := by
        rw [List.find?_isSome]; exact ⟨y, hy, by simpa using he⟩
      obtain ⟨y, hf⟩ := Option.isSome_iff_exists.1 hsome
      obtain ⟨he, A, B, rfl, hA⟩ := List.find?_eq_some_iff_append.1 hf
      exact ⟨A, y, B, rfl, fun i hi => by simpa using hA i hi, by simpa using he⟩
    have hne : A ++ B ≠ [] := by
      intro hc
      simp only [List.append_eq_nil_iff] at hc
      obtain ⟨rfl, rfl⟩ := hc
      exact hs ⟨y, h.head, (isRing_singleton.1 h.ring).1, hy⟩
    obtain ⟨l', h1, h2, h3, -⟩ := lruFreeFrame_rep h hlk hne hA hy
    exact ⟨l', h1, ⟨_, h2⟩, h3⟩

theorem free_step {L : List LruIdx} (h : LruRep l L) (hlk : l.lk = false) (pid : Int)
    (hs : ¬(LruOp.free pid).Empties l) : ∃ l', (LruOp.free pid).run l = .ok l' ∧ RingOk l' ∧ l'.lk = false := by
  obtain ⟨l', L', h1, h2, h3, -⟩ := lruFree_rep pid h hlk (by
    rintro x rfl hx
    exact hs ⟨x, h.head, (isRing_singleton.1 h.ring).1, hx⟩)
  exact ⟨l', h1, ⟨L', h2⟩, h3⟩

theorem delete_step {L : List LruIdx} (h : LruRep l L) (hlk : l.lk = false) (hs : ¬LruOp.delete.Empties l) :
    ∃ l', LruOp.delete.run l = .ok l' ∧ RingOk l' ∧ l'.lk = false := by
  cases L with
  | nil =>
    refine ⟨l, ?_, ⟨_, h⟩, hlk⟩
    have hhd : l.head = none := h.head
    simp [LruOp.run, lruDelete, hhd]
  | cons x L =>
    have hne : L ≠ [] := fun hc => hs (h.alone.2 hc)
    obtain ⟨l₁, l₂, h1, -, -, h2, h3, h4, -⟩ := lruDelete_rep h hlk hne
    exact ⟨l₂, by simp [LruOp.run, h1, h2], ⟨_, h3⟩, h4⟩

/-- An operation that leaves the ring a frame returns and keeps the invariant. -/
theorem ringOk_step (h : RingOk l) (hlk : l.lk = false) {op : LruOp} (hs : ¬op.Empties l) :
    ∃ l', op.run l = .ok l' ∧ RingOk l' ∧ l'.lk = false := by
  obtain ⟨L, h⟩ := h
  cases op with
  | insert pid vaddr => exact insert_step h hlk pid vaddr
  | freeFrame pid vaddr => exact freeFrame_step h hlk pid vaddr hs
  | free pid => exact free_step h hlk pid hs
  | delete => exact delete_step h hlk hs

/-- An operation that takes the only frame out leaves `lru.head` on a free frame. -/
theorem ringOk_broken (h : RingOk l) (hlk : l.lk = false) {op : LruOp} (hs : op.Empties l) {l' : Lru}
    (hr : op.run l = .ok l') : ¬RingOk l' := by
  obtain ⟨L, h⟩ := h
  have hone : ∀ {x}, l.head = some x → (l.frames x).next = some x → L = [x] := by
    intro x hx hn
    rw [h.head] at hx
    cases L with
    | nil => simp at hx
    | cons y L =>
      simp at hx
      subst hx
      rw [h.ring.next_self_iff.1 hn]
  cases op with
  | insert pid vaddr => exact absurd hs id
  | freeFrame pid vaddr =>
    obtain ⟨x, hx, hn, he⟩ := hs
    cases hone hx hn
    obtain ⟨l₁, h1, h2, h3, -⟩ := lruFreeFrame_only h hlk he
    rw [LruOp.run, h1] at hr
    cases hr
    exact not_ringOk h2 h3
  | free pid =>
    obtain ⟨x, hx, hn, he⟩ := hs
    cases hone hx hn
    obtain ⟨l₁, h1, h2, h3, -⟩ := lruFree_only h hlk he
    rw [LruOp.run, h1] at hr
    cases hr
    exact not_ringOk h2 h3
  | delete =>
    obtain ⟨x, hx, hn⟩ := hs
    cases hone hx hn
    obtain ⟨l₁, l₂, h1, h2, h3, h4, -⟩ := lruDelete_only h hlk
    simp [LruOp.run, h1, h2] at hr
    subst hr
    exact not_ringOk h3 h4

end Step

/-! ## Whole runs -/

/-- In every run from the initial ring whose steps all leave the ring a frame (or find it empty)
every operation returns and the ring is well formed in every state reached; and from there a further
operation keeps it well formed exactly when it does not take out the only frame. -/
theorem lruRun_ringOk (ops : List LruOp) (h : Sparing ops lruInit) :
    ∃ l, lruRun ops lruInit = .ok l ∧ RingOk l ∧
      ∀ op : LruOp, (∃ l', op.run l = .ok l' ∧ RingOk l') ↔ ¬op.Empties l := by
  have key : ∀ (ops : List LruOp) (l : Lru), RingOk l → l.lk = false → Sparing ops l →
      ∃ l', lruRun ops l = .ok l' ∧ RingOk l' ∧ l'.lk = false := by
    intro ops
    induction ops with
    | nil => intro l hl hk _; exact ⟨l, rfl, hl, hk⟩
    | cons op ops ih =>
      intro l hl hk hs
      obtain ⟨l₁, h1, h2, h3⟩ := ringOk_step hl hk hs.1
      obtain ⟨l', h4, h5⟩ := ih l₁ h2 h3 (hs.2 l₁ h1)
      exact ⟨l', by simp [lruRun, h1, h4], h5⟩
  obtain ⟨l, h1, h2, h3⟩ := key ops lruInit ⟨[], lruInit_rep⟩ rfl h
  refine ⟨l, h1, h2, fun op => ⟨?_, ?_⟩⟩
  · rintro ⟨l', hr, hl'⟩ hc
    exact ringOk_broken h2 h3 hc hr hl'
  · intro hs
    obtain ⟨l', hr, hl', -⟩ := ringOk_step h2 h3 hs
    exact ⟨l', hr, hl'⟩

/-- Two insertions and a removal of the older frame leave a ring of one frame. -/
theorem lruRun_ringOk_two : ∃ l, lruRun [.insert 1 0, .insert 1 4096, .delete] lruInit = .ok l ∧ RingOk l := by
  have hrun : ∀ l₁ l₂, (LruOp.insert 1 0).run lruInit = .ok l₁ → (LruOp.insert 1 4096).run l₁ = .ok l₂ →
      l₂.head = some 0 ∧ (l₂.frames 0).next = some 1 := by
    have hdec : (match lruRun [.insert 1 0, .insert 1 4096] lruInit with
        | .ok l => decide (l.head = some 0 ∧ (l.frames 0).next = some 1)
        | .error _ => false) = true := by decide +kernel
    intro l₁ l₂ h₁ h₂
    simpa [lruRun, h₁, h₂] using hdec
  obtain ⟨l, h1, h2, -⟩ := lruRun_ringOk [.insert 1 0, .insert 1 4096, .delete] (by
    refine ⟨id, fun l₁ h₁ => ⟨id, fun l₂ h₂ => ⟨?_, fun _ _ => trivial⟩⟩⟩
    rintro ⟨x, hx, hn⟩
    obtain ⟨hh, hh'⟩ := hrun l₁ l₂ h₁ h₂
    rw [hh] at hx
    cases hx
    rw [hh'] at hn
    exact absurd hn (by decide))
  exact ⟨l, h1, h2⟩

/-- A frame inserted into the initial ring and removed again by `lru_delete` stays reachable from
`lru.head` although it is free. -/
theorem lruRun_emptied : ∃ l, lruRun [.insert 1 0, .delete] lruInit = .ok l ∧ ¬RingOk l := by
  have hdec : (match lruRun [.insert 1 0, .delete] lruInit with
      | .ok l => decide (l.head = some 0 ∧ l.bitmap 0 = -1)
      | .error _ => false) = true := by decide +kernel
  cases h : lruRun [.insert 1 0, .delete] lruInit with
  | error e => simp [h] at hdec
  | ok l =>
    simp only [h, decide_eq_true_eq] at hdec
    exact ⟨l, rfl, not_ringOk hdec.1 hdec.2⟩

end DemandPaging
