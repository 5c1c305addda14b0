/-
The locks `lru.lk` and `swap.lk` over the functions of `lru_swap.c`. From a state in which neither
is held every function returns with both free, `lru_delete` alone keeping `lru.lk` for its caller,
except that a `swap_out` that finds no free slot returns with `swap.lk` held.
-/
import DemandPaging.Lib.Outcome
import DemandPaging.Swap.Steps

namespace DemandPaging

open Outcome

/-- The computation returns a value with `P`, or is stuck otherwise than on a lock it holds. -/
abbrev Quiet {α : Type} (P : α → Prop) : Except Stuck α → Prop := Ends P (· ≠ .panic "acquire")

theorem deref_quiet {α : Type} (o : Option α) : Quiet (fun _ => True) (deref o) := by
  cases o <;> simp [deref]

/-! ## The ring -/

section Ring

variable {l : Lru} {pid : Int} {vaddr : Nat}

theorem Lru.acquire_quiet (h : l.lk = false) : Quiet (fun l' : Lru => l'.lk = true) l.acquire := by
  simp [acquire, h]

theorem Lru.release_quiet (h : l.lk = true) : Quiet (fun l' : Lru => l'.lk = false) l.release := by
  simp [release, h]

theorem lruInsert_quiet (h : l.lk = false) : Quiet (fun r : Int × Lru => r.2.lk = false) (lruInsert pid vaddr l) := by
  unfold lruInsert
  cases l.head with
  | none =>
    refine (Lru.acquire_quiet h).bind fun l₁ h₁ => ?_
    split
    · exact (Lru.release_quiet h₁).bind fun l₂ h₂ => h₂
    · exact Ends.bind (Lru.release_quiet (by exact h₁)) fun l₂ h₂ => h₂
  | some head =>
    refine (Lru.acquire_quiet h).bind fun l₁ h₁ => ?_
    split
    · exact (Lru.release_quiet h₁).bind fun l₂ h₂ => h₂
    · exact (deref_quiet _).bind fun z _ => Ends.bind (Lru.release_quiet (by exact h₁)) fun l₂ h₂ => h₂

theorem freeFrameWalk_quiet (head : LruIdx) : ∀ (fuel : Nat) (curr : LruIdx) (prev : Option LruIdx),
    Quiet (fun _ => True) (freeFrameWalk l pid vaddr head fuel curr prev)
  | 0, _, _ => by simp [freeFrameWalk]
  | fuel + 1, curr, prev => by
    rw [freeFrameWalk]
    split
    · split
      · trivial
      · exact (deref_quiet _).bind fun nx _ => freeFrameWalk_quiet head fuel nx _
    · trivial

theorem unlinkFrame_quiet (curr : LruIdx) : Quiet (fun l' : Lru => l'.lk = l.lk) (unlinkFrame l curr) := by
  unfold unlinkFrame
  exact (deref_quiet _).bind fun z _ => (deref_quiet _).bind fun w _ => rfl

theorem lruFreeFrame_quiet (h : l.lk = false) : Quiet (fun l' : Lru => l'.lk = false) (lruFreeFrame pid vaddr l) := by
  unfold lruFreeFrame
  cases l.head with
  | none => exact h
  | some head =>
    refine (Lru.acquire_quiet h).bind fun l₁ h₁ => (freeFrameWalk_quiet head _ _ _).bind ?_
    rintro ⟨curr, prev⟩ -
    simp only
    have hhead : (if curr = head then { l₁ with head := (l₁.frames head).next } else l₁).lk = true := by
      split <;> exact h₁
    generalize (if curr = head then { l₁ with head := (l₁.frames head).next } else l₁) = l₂ at hhead
    split
    · split
      · exact (deref_quiet _).bind fun z _ => (deref_quiet _).bind fun w _ => Lru.release_quiet hhead
      · exact (unlinkFrame_quiet curr).bind fun l₃ h₃ => Lru.release_quiet (h₃.trans hhead)
    · exact Lru.release_quiet h₁

/-- `lru_delete` holds the lock exactly when it returns a frame. -/
theorem lruDelete_quiet (h : l.lk = false) :
    Quiet (fun r : Option LruIdx × Lru => r.2.lk = r.1.isSome) (lruDelete l) := by
  unfold lruDelete
  cases l.head with
  | none => exact h
  | some head =>
    refine (Lru.acquire_quiet h).bind fun l₁ h₁ => ?_
    split
    · exact h₁
    · exact (unlinkFrame_quiet head).bind fun l₂ h₂ => h₂.trans h₁

theorem freeCurr_lk (l : Lru) (curr : LruIdx) : (freeCurr l curr).1.lk = l.lk := by
  have hhead : (if some curr = l.head then { l with head := (l.frames curr).next } else l).lk = l.lk := by
    split <;> rfl
  unfold freeCurr
  simp only
  generalize (if some curr = l.head then { l with head := (l.frames curr).next } else l) = l₁ at hhead
  rw [← hhead]
  cases (l₁.frames curr).prev <;> (dsimp only; split <;> rfl)

theorem lruFreeLoop_quiet : ∀ (fuel : Nat) (curr : LruIdx) (l : Lru),
    Quiet (fun l' : Lru => l'.lk = l.lk) (lruFreeLoop pid fuel curr l)
  | 0, _, _ => by simp [lruFreeLoop]
  | fuel + 1, curr, l => by
    rw [lruFreeLoop]
    have hlk : (if (l.frames curr).pid = pid then freeCurr l curr else (l, false)).1.lk = l.lk := by
      split
      · exact freeCurr_lk l curr
      · rfl
    generalize (if (l.frames curr).pid = pid then freeCurr l curr else (l, false)) = r at hlk
    obtain ⟨l₁, flag⟩ := r
    refine (deref_quiet _).bind fun nx _ => ?_
    split
    · exact hlk
    · split
      · exact (lruFreeLoop_quiet fuel nx l₁).mono fun l' h' => h'.trans hlk
      · exact hlk

theorem lruFree_quiet (h : l.lk = false) : Quiet (fun l' : Lru => l'.lk = false) (lruFree pid l) := by
  unfold lruFree
  cases l.head with
  | none => exact h
  | some head =>
    exact (Lru.acquire_quiet h).bind fun l₁ h₁ => (lruFreeLoop_quiet _ head l₁).bind fun l₂ h₂ =>
      Lru.release_quiet (h₂.trans h₁)

end Ring

/-! ## The swap table -/

section Table

variable {sw : Swap} {list : Option SlotIdx} {kind : SwapKind} {vaddr : Nat}

theorem Swap.acquire_quiet (h : sw.lk = false) : Quiet (fun sw' : Swap => sw' = { sw with lk := true }) sw.acquire := by
  simp [acquire, h]

theorem Swap.release_quiet (h : sw.lk = true) : Quiet (fun sw' : Swap => sw'.lk = false) sw.release := by
  simp [release, h]

theorem lastSlot_quiet : ∀ (fuel : Nat) (curr : SlotIdx), Quiet (fun _ => True) (lastSlot sw fuel curr)
  | 0, _ => by simp [lastSlot]
  | fuel + 1, curr => by
    rw [lastSlot]
    split
    · trivial
    · exact lastSlot_quiet fuel _

/-- `swap_out*` keeps the lock when it takes no slot. -/
theorem linkSlot_quiet (h : sw.lk = false) : Quiet (fun r : Option SlotIdx × Option SlotIdx × Swap =>
    r.2.2.lk = r.1.isNone) (linkSlot kind vaddr list sw) := by
  have hfree : ∀ (sw₁ : Swap) (i : SlotIdx) (sw₂ : Swap), swapGetFreeFrame sw₁ = some (i, sw₂) → sw₂.lk = sw₁.lk := by
    intro sw₁ i sw₂ he
    obtain ⟨j, -, he⟩ := Option.map_eq_some_iff.1 he
    cases he
    rfl
  unfold linkSlot
  cases list with
  | none =>
    refine (Swap.acquire_quiet h).bind ?_
    rintro sw₁ rfl
    split
    · rfl
    · rename_i findex sw₂ he
      exact Ends.bind (Swap.release_quiet (hfree _ _ _ he)) fun sw₃ h₃ => h₃
  | some head =>
    refine (lastSlot_quiet _ head).bind fun curr _ => (Swap.acquire_quiet h).bind ?_
    rintro sw₁ rfl
    split
    · rfl
    · rename_i findex sw₂ he
      exact Ends.bind (Swap.release_quiet (hfree _ _ _ he)) fun sw₃ h₃ => h₃

theorem findSlot_quiet : ∀ (fuel : Nat) (curr : SlotIdx) (prev : Option SlotIdx),
    Quiet (fun _ => True) (findSlot sw vaddr fuel curr prev)
  | 0, _, _ => by simp [findSlot]
  | fuel + 1, curr, prev => by
    rw [findSlot]
    split
    · trivial
    · split
      · trivial
      · exact findSlot_quiet fuel _ _

theorem takeSlot_quiet (h : sw.lk = false) : Quiet (fun r : Option SlotIdx × Option SlotIdx × Swap =>
    r.2.2.lk = false) (takeSlot vaddr list sw) := by
  unfold takeSlot
  cases list with
  | none => exact h
  | some head =>
    refine (Swap.acquire_quiet h).bind ?_
    rintro sw₁ rfl
    refine (findSlot_quiet _ _ _).bind ?_
    rintro ⟨curr, prev⟩ -
    simp only
    split
    · exact (Swap.release_quiet rfl).bind fun sw₂ h₂ => h₂
    · split
      · split
        · exact (Swap.release_quiet rfl).bind fun sw₂ h₂ => h₂
        · exact (deref_quiet _).bind fun z _ => (Swap.release_quiet rfl).bind fun sw₂ h₂ => h₂
      · exact (Swap.release_quiet rfl).bind fun sw₂ h₂ => h₂

theorem checkSlot_quiet : ∀ (fuel : Nat) (df : SlotIdx), Quiet (fun _ => True) (checkSlot sw vaddr fuel df)
  | 0, _ => by simp [checkSlot]
  | fuel + 1, df => by
    rw [checkSlot]
    split
    · trivial
    · split
      · trivial
      · split
        · trivial
        · exact checkSlot_quiet fuel _

theorem swapCheck_quiet (h : sw.lk = false) : Quiet (fun r : Option SwapKind × Swap => r.2.lk = false)
    (swapCheck vaddr list sw) := by
  unfold swapCheck
  cases list with
  | none => exact h
  | some df =>
    refine (Swap.acquire_quiet h).bind ?_
    rintro sw₁ rfl
    split
    · exact (Swap.release_quiet rfl).bind fun sw₂ h₂ => h₂
    · exact (checkSlot_quiet _ _).bind fun r _ => (Swap.release_quiet rfl).bind fun sw₂ h₂ => h₂

theorem freeSlotsLoop_quiet : ∀ (fuel : Nat) (curr : SlotIdx) (sw : Swap),
    Quiet (fun sw' : Swap => sw'.lk = sw.lk) (freeSlotsLoop fuel curr sw)
  | 0, _, _ => by simp [freeSlotsLoop]
  | fuel + 1, curr, sw => by
    rw [freeSlotsLoop]
    split
    · rfl
    · refine (freeSlotsLoop_quiet fuel _ _).mono fun sw' h' => h'.trans ?_
      split <;> rfl

theorem freeSlots_quiet (h : sw.lk = false) : Quiet (fun r : Option SlotIdx × Swap => r.2.lk = false)
    (freeSlots list sw) := by
  unfold freeSlots
  refine (Swap.acquire_quiet h).bind ?_
  rintro sw₁ rfl
  split
  · exact (Swap.release_quiet rfl).bind fun sw₂ h₂ => h₂
  · split
    · exact (Swap.release_quiet rfl).bind fun sw₂ h₂ => h₂
    · exact (freeSlotsLoop_quiet _ _ _).bind fun sw₂ h₂ => (Swap.release_quiet h₂).bind fun sw₃ h₃ => h₃

end Table

/-! ## The kernel -/

/-- Neither lock is held. -/
structure Unlocked (s : Kernel) : Prop where
  lru : s.lru.lk = false
  swap : s.swap.lk = false

section Functions

variable {s : Kernel} {p : ProcIdx} {kind : SwapKind} {vaddr : Nat} {pid : Int}

theorem klruFreeSwap_quiet (h : s.lru.lk = false) : Quiet (fun s' : Kernel => s'.lru.lk = false ∧ s'.swap = s.swap)
    (klruFreeSwap p vaddr s) := by
  unfold klruFreeSwap
  split
  · exact (lruFreeFrame_quiet h).bind fun l hl => ⟨hl, rfl⟩
  · exact ⟨h, rfl⟩

theorem demappagesSwapOut_quiet : Quiet (fun s' : Kernel => s'.lru = s.lru ∧ s'.swap = s.swap)
    (demappagesSwapOut p vaddr s) := by
  unfold demappagesSwapOut
  refine (deref_quiet _).bind fun pd _ => ?_
  split
  · simp
  · exact ⟨rfl, rfl⟩

/-- A swap-out that fails, and only one that fails, holds `swap.lk` on return. -/
theorem swapOutWith_quiet (kind : SwapKind) (p : ProcIdx) (vaddr : Nat) (h : Unlocked s) : Quiet (fun r : Int × Kernel =>
    r.2.lru.lk = false ∧ (r.1 = 1 ∧ r.2.swap.lk = false ∨ r.1 = -1 ∧ r.2.swap.lk = true)) (swapOutWith kind p vaddr s) := by
  unfold swapOutWith
  refine (linkSlot_quiet h.swap).bind ?_
  rintro ⟨_ | findex, list, sw⟩ hsw
  · exact ⟨h.lru, .inr ⟨rfl, hsw⟩⟩
  · refine demappagesSwapOut_quiet.bind fun s₁ h₁ => (klruFreeSwap_quiet ?_).bind fun s₂ h₂ => ?_
    · rw [h₁.1]; exact h.lru
    · refine ⟨h₂.1, .inl ⟨rfl, ?_⟩⟩
      rw [h₂.2, h₁.2]
      exact hsw

theorem swapFree_quiet (h : Unlocked s) : Quiet Unlocked (swapFree pid s) := by
  unfold swapFree
  split
  · exact h
  · split
    · exact ⟨h.lru, h.swap⟩
    · exact (freeSlots_quiet h.swap).bind fun r hr => ⟨h.lru, hr⟩

theorem readVaddr_quiet (h : Unlocked s) : Quiet (fun r : Int × Kernel => Unlocked r.2) (readVaddr p vaddr s) := by
  unfold readVaddr
  refine (deref_quiet _).bind fun pd _ => ?_
  split
  · exact h
  · split
    · exact h
    · exact ⟨h.lru, h.swap⟩

theorem evict_quiet (h : Unlocked s) : Quiet Unlocked (evict s) := by
  have hget : ∀ (index : LruIdx) (l : Lru), l.lk = true → Quiet (fun _ : Int => True) (lruGetPidFrame index l) := by
    intro index l hl; simp [lruGetPidFrame, hl]
  have hget' : ∀ (index : LruIdx) (l : Lru), l.lk = true → Quiet (fun _ : Nat => True) (lruGetVaddrFrame index l) := by
    intro index l hl; simp [lruGetVaddrFrame, hl]
  unfold evict
  refine (lruDelete_quiet h.lru).bind ?_
  rintro ⟨_ | index, l₁⟩ h₁
  · simp
  · refine (hget index l₁ h₁).bind fun pid₁ _ => (hget' index l₁ h₁).bind fun vaddr₁ _ => ?_
    refine Ends.bind (Lru.release_quiet (by exact h₁)) fun l₂ h₂ => ?_
    have hs : Unlocked { s with lru := l₂ } := ⟨h₂, h.swap⟩
    dsimp only
    split
    · exact (lruFree_quiet h₂).bind fun l₃ h₃ => swapFree_quiet ⟨h₃, h.swap⟩
    · refine (readVaddr_quiet hs).bind fun r hr => ?_
      split
      · exact hr
      · refine (swapOutWith_quiet _ _ _ hr).bind fun r' hr' => ?_
        split
        · simp
        · rename_i hneg
          rcases hr'.2 with ⟨-, hk⟩ | ⟨hm, -⟩
          · exact ⟨hr'.1, hk⟩
          · rw [hm] at hneg
            exact absurd (by decide) hneg

theorem getLruLoop_quiet : ∀ (fuel : Nat) (s : Kernel), Unlocked s → Quiet Unlocked (getLruLoop pid vaddr fuel s)
  | 0, _, _ => by simp [getLruLoop]
  | fuel + 1, s, h => by
    rw [getLruLoop]
    refine (lruInsert_quiet h.lru).bind ?_
    rintro ⟨r, l⟩ hl
    have hs : Unlocked { s with lru := l } := ⟨hl, h.swap⟩
    dsimp only
    split
    · exact (evict_quiet hs).bind fun s₁ h₁ => getLruLoop_quiet fuel s₁ h₁
    · exact hs

theorem swapInWith_quiet (h : Unlocked s) : Quiet (fun r : Int × Kernel => Unlocked r.2) (swapInWith kind p vaddr s) := by
  unfold swapInWith
  refine (takeSlot_quiet h.swap).bind ?_
  rintro ⟨_ | findex, list, sw⟩ hsw
  · exact ⟨h.lru, hsw⟩
  · have hk : ∀ s₁ : Kernel, Quiet (fun r : Option Nat × Kernel => r.2.lru = s₁.lru ∧ r.2.swap = s₁.swap)
        (kalloc (s₁.ptable p).pid (-1) s₁) := by
      intro s₁
      unfold kalloc
      split
      · exact ⟨rfl, rfl⟩
      · rw [if_neg (by simp)]
        exact ⟨rfl, rfl⟩
    have hread : Quiet (fun r : Nat × Kernel => Unlocked r.2)
        (readswap p (kind.start + findex * 8) (s.setSwap p list sw)) := by
      unfold readswap
      refine (hk _).bind ?_
      rintro ⟨_ | f, s₁⟩ ⟨hl, hs⟩
      · simp
      · exact ⟨(congrArg Lru.lk hl).trans h.lru, (congrArg Swap.lk hs).trans hsw⟩
    refine hread.bind fun r hr => ?_
    have hmap : Quiet (fun r' : Int × Kernel => Unlocked r'.2)
        (mappagesProc p vaddr pgSize (r.1 * pgSize) ⟨false, true, true⟩ true r.2) :=
      (deref_quiet _).bind fun pd _ => ⟨hr.lru, hr.swap⟩
    exact hmap.bind fun r' hr' => hr'

end Functions

/-! ## Calls -/

/-- The functions of `lru_swap.c` that use the locks, as they are called from outside. -/
inductive LockCall
  | lruInsert (pid : Int) (vaddr : Nat)
  | lruFreeFrame (pid : Int) (vaddr : Nat)
  | lruFree (pid : Int)
  | lruDelete
  | swapOut (kind : SwapKind) (p : ProcIdx) (vaddr : Nat)
  | swapIn (kind : SwapKind) (p : ProcIdx) (vaddr : Nat)
  | swapCheck (p : ProcIdx) (vaddr : Nat)
  | swapFree (pid : Int)
  | getLru (pid : Int) (vaddr : Nat)

/-- The index of a swap space in `swapfunc_ptr_arr`. -/
def SwapKind.index : SwapKind → Int
  | .generic => 0
  | .stack => 1
  | .heap => 2

namespace LockCall

/-- A call, with what it returns (`0` for a function that returns nothing). -/
def run : LockCall → Kernel → Except Stuck (Int × Kernel)
  | .lruInsert pid vaddr, s => do
    let (r, l) ← DemandPaging.lruInsert pid vaddr s.lru
    return (r, { s with lru := l })
  | .lruFreeFrame pid vaddr, s => do return (0, { s with lru := ← DemandPaging.lruFreeFrame pid vaddr s.lru })
  | .lruFree pid, s => do return (0, { s with lru := ← DemandPaging.lruFree pid s.lru })
  | .lruDelete, s => do
    let (index, l) ← DemandPaging.lruDelete s.lru
    return (index.elim (-1) fun i => (i.val : Int), { s with lru := l })
  | .swapOut kind p vaddr, s => swapOutFunc kind p vaddr s
  | .swapIn kind p vaddr, s => swapInFunc kind p vaddr s
  | .swapCheck p vaddr, s => do
    let (swapno, sw) ← DemandPaging.swapCheck vaddr (s.ptable p).swapList s.swap
    return (swapno.elim (-1) SwapKind.index, { s with swap := sw })
  | .swapFree pid, s => do return (0, ← DemandPaging.swapFree pid s)
  | .getLru pid vaddr, s => do return (0, ← DemandPaging.getLru pid vaddr s)

/-- What the call returns with: no lock, or `lru.lk` after an `lru_delete` that returns a frame; and it
never asks for a lock it holds. -/
structure Balanced (c : LockCall) (s : Kernel) : Prop where
  lru : ∀ r s', c.run s = .ok (r, s') → (s'.lru.lk = true ↔ c = .lruDelete ∧ 0 ≤ r)
  swap : ∀ r s', c.run s = .ok (r, s') → s'.swap.lk = false
  acquire : c.run s ≠ .error (.panic "acquire")

/-- A `swap_out` of a process whose swap list ends, with every slot in use. -/
def Refused : LockCall → Kernel → Prop
  | .swapOut _ p _, s => (∀ i, s.swap.bitmap i ≠ -1) ∧ ∃ L, SwapList s.swap (s.ptable p).swapList L
  | _, _ => False

/-- A call that ends with no lock is balanced, unless it is `lru_delete`. -/
theorem balanced_of_quiet {c : LockCall} {s : Kernel} (hc : c ≠ .lruDelete)
    (h : Quiet (fun r : Int × Kernel => Unlocked r.2) (c.run s)) : c.Balanced s where
  lru := fun r s' hr => by
    have hl : s'.lru.lk = false := (h.of_ok hr).lru
    simp [hl, hc]
  swap := fun r s' hr => (h.of_ok hr).swap
  acquire := fun hr => h.of_error hr rfl

theorem lruDelete_balanced {s : Kernel} (h : Unlocked s) : LockCall.lruDelete.Balanced s := by
  have hq : Quiet (fun r : Int × Kernel => (r.2.lru.lk = true ↔ 0 ≤ r.1) ∧ r.2.swap.lk = false)
      (LockCall.lruDelete.run s) := by
    refine (lruDelete_quiet h.lru).bind ?_
    rintro ⟨_ | i, l⟩ hl
    · refine ⟨?_, h.swap⟩
      simp only [Option.isSome_none] at hl
      simp [hl]
    · refine ⟨?_, h.swap⟩
      simp only [Option.isSome_some] at hl
      simp [hl]
  refine ⟨fun r s' hr => ?_, fun r s' hr => (hq.of_ok hr).2, fun hr => hq.of_error hr rfl⟩
  simpa using (hq.of_ok hr).1

/-- A swap-out returns with `swap.lk` held exactly when it is refused. -/
theorem swapOut_balanced_iff {s : Kernel} (h : Unlocked s) (kind : SwapKind) (p : ProcIdx) (vaddr : Nat) :
    (LockCall.swapOut kind p vaddr).Balanced s ↔ ¬(LockCall.swapOut kind p vaddr).Refused s := by
  have hrun : (LockCall.swapOut kind p vaddr).run s = swapOutWith kind p vaddr s := by rw [run, swapOutFunc_eq]
  have hq := swapOutWith_quiet kind p vaddr h
  constructor
  · rintro hb ⟨hfull, L, hL⟩
    have hlink : linkSlot kind vaddr (s.ptable p).swapList s.swap =
        .ok (none, (s.ptable p).swapList, { s.swap with lk := true }) := linkSlot_full hL h.swap (freeSlot?_none.2 hfull)
    have hout : swapOutWith kind p vaddr s = .ok (-1, s.setSwap p (s.ptable p).swapList { s.swap with lk := true }) := by
      rw [swapOutWith, hlink]
      rfl
    have := hb.swap _ _ (hrun.trans hout)
    exact absurd this (by simp [Kernel.setSwap])
  · intro hr
    refine balanced_of_quiet (by simp) ?_
    rw [hrun]
    cases hc : swapOutWith kind p vaddr s with
    | error e => exact hq.of_error hc
    | ok r =>
      obtain ⟨r, s'⟩ := r
      obtain ⟨hl, ⟨-, hk⟩ | ⟨-, hk⟩⟩ := hq.of_ok hc
      · exact ⟨hl, hk⟩
      · -- the lock is only kept when no slot was taken
        obtain ⟨slot, list, sw, hlink, hsw, -⟩ := swapOutWith_ok hc
        have hnone := (linkSlot_quiet h.swap).of_ok hlink
        rw [← hsw, hk, eq_comm, Option.isNone_iff_eq_none] at hnone
        obtain ⟨hslot, -⟩ := linkSlot_ok hlink
        obtain ⟨-, L, hL, -⟩ := linkSlot_inv hlink
        refine absurd ⟨?_, L, hL⟩ hr
        exact freeSlot?_none.1 (hslot.symm.trans hnone)

/-- From every state in which neither lock is held, a call is balanced exactly when it is not a swap-out
that finds every slot in use. -/
theorem balanced_iff (c : LockCall) (s : Kernel) (h : Unlocked s) : c.Balanced s ↔ ¬c.Refused s := by
  have hall : ∀ {c : LockCall}, c ≠ .lruDelete → ¬c.Refused s →
      Quiet (fun r : Int × Kernel => Unlocked r.2) (c.run s) → (c.Balanced s ↔ ¬c.Refused s) :=
    fun hc hr hq => ⟨fun _ => hr, fun _ => balanced_of_quiet hc hq⟩
  cases c with
  | lruInsert pid vaddr =>
    exact hall (by simp) id ((lruInsert_quiet h.lru).bind fun r hr => ⟨hr, h.swap⟩)
  | lruFreeFrame pid vaddr =>
    exact hall (by simp) id ((lruFreeFrame_quiet h.lru).bind fun l hl => ⟨hl, h.swap⟩)
  | lruFree pid => exact hall (by simp) id ((lruFree_quiet h.lru).bind fun l hl => ⟨hl, h.swap⟩)
  | lruDelete => exact ⟨fun _ => id, fun _ => lruDelete_balanced h⟩
  | swapOut kind p vaddr => exact swapOut_balanced_iff h kind p vaddr
  | swapIn kind p vaddr =>
    refine hall (by simp) id ?_
    rw [run, swapInFunc_eq]
    exact swapInWith_quiet h
  | swapCheck p vaddr => exact hall (by simp) id ((swapCheck_quiet h.swap).bind fun r hr => ⟨h.lru, hr⟩)
  | swapFree pid => exact hall (by simp) id ((swapFree_quiet h).bind fun s' hs' => hs')
  | getLru pid vaddr => exact hall (by simp) id ((getLruLoop_quiet 2 s h).bind fun s' hs' => hs')

/-- With free slots a swap-out is balanced. -/
theorem balanced_iff_small : (LockCall.swapOut .heap 0 (2 * pgSize)).Balanced smallKernel := by
  refine (balanced_iff _ smallKernel ⟨rfl, rfl⟩).2 ?_
  rintro ⟨hfull, -⟩
  exact hfull 0 rfl

/-- The table with every slot on one list. -/
def fullSwap : Swap where
  frames := fun i => ⟨i * pgSize, if h : i.val + 1 < maxFrameSwap then some ⟨i + 1, h⟩ else none, .heap, 1⟩
  bitmap := fun _ => 1
  lk := false

/-- Process 1 has grown until every slot was in use; process 2 has none yet. -/
def fullKernel : Kernel :=
  { smallKernel with
    swap := fullSwap
    ptable := fun i =>
      if i = 0 then { smallProc with sz := maxFrameSwap * pgSize, swapList := some 0 }
      else if i = 1 then { smallProc with pid := 2 }
      else smallKernel.ptable i }

/-- Process 2 asks for a page of heap: the call fails with `swap.lk` held, and the next one is the
panic of `acquire`. -/
theorem balanced_fails : Unlocked fullKernel ∧ ∃ s', (LockCall.swapOut .heap 1 (2 * pgSize)).run fullKernel = .ok (-1, s') ∧
    s'.swap.lk = true ∧ (LockCall.swapOut .heap 1 (2 * pgSize)).run s' = .error (.panic "acquire") := by
  have hfull : freeSlot? fullKernel.swap = none := freeSlot?_none.2 fun i => by
    show (1 : Int) ≠ -1
    decide
  have hlink : linkSlot .heap (2 * pgSize) none fullKernel.swap = .ok (none, none, { fullKernel.swap with lk := true }) :=
    linkSlot_full (L := []) rfl rfl hfull
  refine ⟨⟨rfl, rfl⟩, fullKernel.setSwap 1 none { fullKernel.swap with lk := true }, ?_, rfl, ?_⟩
  · rw [run, swapOutFunc_eq, swapOutWith, show (fullKernel.ptable 1).swapList = none from rfl, hlink]
    rfl
  · rw [run, swapOutFunc_eq, swapOutWith]
    rfl

end LockCall

end DemandPaging
