/-
`swap_check` and `swap_in*` walk the list in two different ways and stop at the same slot: the first
one of the page. `swap_in*` counts the slot down and takes it out of the list with its last reference.
-/
import DemandPaging.Swap.Steps

namespace DemandPaging

/-- The first slot of the page in a list. -/
def firstSlot (sw : Swap) (vaddr : Nat) (L : List SlotIdx) : Option SlotIdx := L.find? fun i => (sw.frames i).vaddr = vaddr

theorem firstSlot_eq_none {sw : Swap} {vaddr : Nat} {L : List SlotIdx} :
    firstSlot sw vaddr L = none ↔ ∀ i ∈ L, (sw.frames i).vaddr ≠ vaddr := by
  simp [firstSlot]

/-- The first slot splits its list. -/
theorem firstSlot_eq_some {sw : Swap} {vaddr : Nat} {L : List SlotIdx} {y : SlotIdx} (h : firstSlot sw vaddr L = some y) :
    (sw.frames y).vaddr = vaddr ∧ ∃ A B, L = A ++ y :: B ∧ ∀ i ∈ A, (sw.frames i).vaddr ≠ vaddr := by
  obtain ⟨hy, A, B, hL, hA⟩ := List.find?_eq_some_iff_append.1 h
  exact ⟨by simpa using hy, A, B, hL, fun i hi => by simpa using hA i hi⟩

/-- What taking the slot `y` of the list `L` leaves: one reference less, and with the last one the slot
out of the list and its bit cleared. Nothing else of the table changes but the pointer to the slot. -/
structure FirstTaken (sw : Swap) (list : Option SlotIdx) (L : List SlotIdx) (y : SlotIdx) (sw' : Swap)
    (list' : Option SlotIdx) : Prop where
  lk : sw'.lk = false
  count : ∀ j, (sw'.frames j).count = (sw.frames j).count - if j = y then 1 else 0
  page : ∀ j, (sw'.frames j).vaddr = (sw.frames j).vaddr ∧ (sw'.frames j).swap = (sw.frames j).swap
  last : (sw'.frames y).count = 0 → SwapList sw' list' (L.erase y) ∧ sw'.bitmap = Function.update sw.bitmap y (-1) ∧
    ∀ j ∉ L, (sw'.frames j).next = (sw.frames j).next
  shared : (sw'.frames y).count ≠ 0 → list' = list ∧ SwapList sw' list' L ∧ sw'.bitmap = sw.bitmap ∧
    ∀ j, (sw'.frames j).next = (sw.frames j).next

section Take

variable {sw : Swap} {list : Option SlotIdx} {L : List SlotIdx} {vaddr : Nat} {y : SlotIdx}

theorem takeSlot_taken (h : SwapList sw list L) (hlk : sw.lk = false) (hy : firstSlot sw vaddr L = some y) :
    ∃ list' sw', takeSlot vaddr list sw = .ok (some y, list', sw') ∧ FirstTaken sw list L y sw' list' := by
  obtain ⟨hv, A, B, rfl, hA⟩ := firstSlot_eq_some hy
  by_cases hc : (sw.frames y).count = 1
  · have hyA : y ∉ A := fun hmem => hA y hmem hv
    have herase : (A ++ y :: B).erase y = A ++ B := by simp [List.erase_append_right _ hyA]
    refine ⟨_, _, takeSlot_last h hlk hA hv hc, rfl, ?_, ?_, ?_, ?_⟩
    · intro j
      by_cases hj : j = y
      · subst hj; simp [Swap.unlinked, hc]
      · simp only [Swap.unlinked, hj, if_false]
        split <;> simp
    · intro j
      by_cases hj : j = y
      · subst hj; simp [Swap.unlinked]
      · simp only [Swap.unlinked, hj, if_false]
        split <;> simp
    · intro _
      rw [herase]
      refine ⟨h.unlinked, rfl, ?_⟩
      intro j hj
      have hjy : j ≠ y := by rintro rfl; simp at hj
      have hjA : A.getLast? ≠ some j := fun hl => hj (by simp [List.mem_of_getLast? hl])
      simp [Swap.unlinked, hjy, hjA]
    · intro hne
      simp [Swap.unlinked] at hne
  · refine ⟨_, _, takeSlot_shared h hlk hA hv hc, hlk, ?_, ?_, ?_, ?_⟩
    · intro j
      rw [Swap.addCount_frames]
      split <;> simp_all [sub_eq_add_neg]
    · intro j
      rw [Swap.addCount_frames]
      split <;> simp_all
    · intro hzero
      rw [Swap.addCount_frames, if_pos rfl] at hzero
      simp only at hzero
      omega
    · intro _
      have hnext : ∀ j, ((sw.addCount y (-1)).frames j).next = (sw.frames j).next := by
        intro j
        rw [Swap.addCount_frames]
        split <;> simp_all
      exact ⟨rfl, h.congr fun i _ => hnext i, rfl, hnext⟩

end Take

theorem Kernel.setSwap_self (s : Kernel) (p : ProcIdx) : s.setSwap p (s.ptable p).swapList s.swap = s := by
  unfold Kernel.setSwap Kernel.setProc
  rw [Function.update_eq_self]

/-- `swap_check` and the three `swap_in*` agree on the slot of a page: the first in the list. -/
theorem swapCheck_swapIn_agree (s : Kernel) (p : ProcIdx) (vaddr : Nat) (L : List SlotIdx)
    (h : SwapList s.swap (s.ptable p).swapList L) (hlk : s.swap.lk = false) :
    swapCheck vaddr (s.ptable p).swapList s.swap =
        .ok ((firstSlot s.swap vaddr L).map (fun i => (s.swap.frames i).swap), s.swap) ∧
      (firstSlot s.swap vaddr L = none → ∀ kind, swapInFunc kind p vaddr s = .ok (-1, s)) ∧
      ∀ y, firstSlot s.swap vaddr L = some y → ∃ list' sw', FirstTaken s.swap (s.ptable p).swapList L y sw' list' ∧
        ∀ kind, swapInFunc kind p vaddr s = (do
            let (f, t) ← readswap p (kind.start + y * 8) (s.setSwap p list' sw')
            mappagesSwapIn p f vaddr t) ∧
          ∀ r s', swapInFunc kind p vaddr s = .ok (r, s') → s'.swap = sw' ∧ (s'.ptable p).swapList = list' := by
  refine ⟨swapCheck_eq h hlk, ?_, ?_⟩
  · intro hnone kind
    rw [swapInFunc_eq, swapInWith, takeSlot_missing h hlk (firstSlot_eq_none.1 hnone), ok_bind]
    simp only [s.setSwap_self]
    rfl
  · intro y hy
    obtain ⟨list', sw', htake, htaken⟩ := takeSlot_taken h hlk hy
    refine ⟨list', sw', htaken, fun kind => ⟨?_, ?_⟩⟩
    · rw [swapInFunc_eq, swapInWith, htake, ok_bind]
    · intro r s' hin
      rw [swapInFunc_eq] at hin
      obtain ⟨slot, list, sw, htake', hsw, -, hframe⟩ := swapInWith_ok hin
      rw [htake] at htake'
      cases htake'
      obtain ⟨pgdir, hself⟩ := hframe.self
      exact ⟨hsw, by rw [hself]⟩

/-- Three slots, the last two of one page. -/
def chainKernel : Kernel :=
  { smallKernel with
    swap := ⟨fun i => if i = 0 then ⟨0, some 1, .heap, 1⟩ else if i = 1 then ⟨pgSize, some 2, .generic, 1⟩
      else ⟨pgSize, none, .stack, 1⟩, fun _ => 1, false⟩
    ptable := fun i => if i = 0 then { smallProc with swapList := some 0 } else smallKernel.ptable i }

/-- The slot in the middle is the first of its page. -/
theorem swapCheck_swapIn_agree_middle :
    swapCheck pgSize (some 0) chainKernel.swap = .ok (some .generic, chainKernel.swap) ∧
      ∃ list' sw', FirstTaken chainKernel.swap (some 0) [0, 1, 2] 1 sw' list' := by
  have h := swapCheck_swapIn_agree chainKernel 0 pgSize [0, 1, 2] ⟨rfl, rfl, rfl, rfl⟩ rfl
  refine ⟨h.1, ?_⟩
  obtain ⟨list', sw', htaken, -⟩ := h.2.2 1 rfl
  exact ⟨list', sw', htaken⟩

end DemandPaging
