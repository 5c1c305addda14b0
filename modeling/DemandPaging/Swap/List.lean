/-
What the swap table's operations do to a swap list: `SwapList sw list L` says that the slots `L`
are the list read from `list`. On such a list every walk ends, and each operation is given by an
equation for the resulting table: `swap_out*` appends the first free slot, `swap_in*` finds the
first slot of the page and unlinks it when its count drops to zero, `swap_check` names the kind of
that slot, `swap_free` clears the bits of the list, `swap_fork` counts every slot of it once more.
-/
import DemandPaging.Lib.Chain
import DemandPaging.Kernel.Swap

namespace DemandPaging

open Chain

/-- The slots read from `list` along `next`. -/
def SwapList (sw : Swap) (list : Option SlotIdx) (L : List SlotIdx) : Prop :=
  Path (fun i => (sw.frames i).next) list L

theorem SwapList.length_le {sw : Swap} {list : Option SlotIdx} {L : List SlotIdx} (h : SwapList sw list L) :
    L.length ≤ maxFrameSwap := by
  simpa using h.nodup.length_le_card

/-- A list is read through the `next` fields of its slots only. -/
theorem SwapList.congr {sw sw' : Swap} {list : Option SlotIdx} {L : List SlotIdx} (h : SwapList sw list L)
    (hn : ∀ i ∈ L, (sw'.frames i).next = (sw.frames i).next) : SwapList sw' list L :=
  Path.congr h hn

theorem SwapList.cons {sw : Swap} {x y : SlotIdx} {L : List SlotIdx} (hn : (sw.frames x).next = some y) (h : SwapList sw (some y) L) :
    SwapList sw (some x) (x :: L) := ⟨rfl, show Path _ (sw.frames x).next L from hn.symm ▸ h⟩

/-! ## Field updates -/

namespace Swap

theorem acquire_eq {sw : Swap} (h : sw.lk = false) : sw.acquire = .ok { sw with lk := true } := by
  simp [acquire, h]

theorem release_eq {sw : Swap} (h : sw.lk = true) : sw.release = .ok { sw with lk := false } := by
  simp [release, h]

variable (sw : Swap) (i j : SlotIdx)

theorem setSlot_frames (d : DiskFrame) : (sw.setSlot i d).frames j = if j = i then d else sw.frames j := by
  simp [setSlot, Function.update_apply]

theorem setNext_frames (q : Option SlotIdx) :
    (sw.setNext i q).frames j = if j = i then { sw.frames j with next := q } else sw.frames j := by
  rw [setNext, setSlot_frames]; split <;> simp_all

theorem addCount_frames (n : Int) : (sw.addCount i n).frames j =
    if j = i then { sw.frames j with count := (sw.frames j).count + n } else sw.frames j := by
  rw [addCount, setSlot_frames]; split <;> simp_all

@[simp] theorem addCount_next (n : Int) : ((sw.addCount i n).frames j).next = (sw.frames j).next := by
  rw [addCount_frames]; split <;> rfl

@[simp] theorem addCount_vaddr (n : Int) : ((sw.addCount i n).frames j).vaddr = (sw.frames j).vaddr := by
  rw [addCount_frames]; split <;> rfl

@[simp] theorem setBit_frames (b : Int) : (sw.setBit i b).frames = sw.frames := rfl

theorem setBit_bitmap (b : Int) : (sw.setBit i b).bitmap j = if j = i then b else sw.bitmap j := by
  simp [setBit, Function.update_apply]

end Swap

/-! ## Free slots -/

theorem freeSlot?_some {sw : Swap} {f : SlotIdx} (h : freeSlot? sw = some f) : sw.bitmap f = -1 := by
  unfold freeSlot? at h
  simpa using Fin.eq_true_of_find?_eq_some h

theorem freeSlot?_none {sw : Swap} : freeSlot? sw = none ↔ ∀ i, sw.bitmap i ≠ -1 := by
  unfold freeSlot?; rw [Fin.find?_eq_none_iff]; simp

theorem freeSlot?_congr {sw sw' : Swap} (h : sw'.bitmap = sw.bitmap) : freeSlot? sw' = freeSlot? sw := by
  unfold freeSlot?; rw [h]

/-! ## Appending a slot -/

section Link

variable {sw : Swap} {list : Option SlotIdx} {L : List SlotIdx} {kind : SwapKind} {vaddr : Nat} {f : SlotIdx}

theorem lastSlot_eq : ∀ (A : List SlotIdx) (x z : SlotIdx) (fuel : Nat), SwapList sw (some x) (A ++ [z]) →
    A.length < fuel → lastSlot sw fuel x = .ok z
  | [], x, z, fuel + 1, h, _ => by
    obtain ⟨hx, hz⟩ := h
    cases hx
    rw [lastSlot, show (sw.frames x).next = none from hz]
  | a :: A, x, z, fuel + 1, h, hl => by
    obtain ⟨hx, hA⟩ := h
    obtain rfl := Option.some.inj hx
    obtain ⟨y, hy⟩ : ∃ y, (sw.frames x).next = some y := by
      cases A with
      | nil => exact ⟨z, hA.1⟩
      | cons b A => exact ⟨b, hA.1⟩
    rw [lastSlot, hy]
    refine lastSlot_eq A y z fuel ?_ (by simp at hl; omega)
    rw [← hy]; exact hA
  | [], _, _, 0, _, h => by simp at h
  | _ :: _, _, _, 0, _, h => by simp at h

/-- The table after `f` has been appended to the list `L`. -/
def Swap.linked (sw : Swap) (L : List SlotIdx) (kind : SwapKind) (vaddr : Nat) (f : SlotIdx) : Swap where
  frames := fun j => if j = f then ⟨vaddr, none, kind, 1⟩
    else if L.getLast? = some j then { sw.frames j with next := some f } else sw.frames j
  bitmap := Function.update sw.bitmap f 1
  lk := false

theorem linkSlot_full (h : SwapList sw list L) (hlk : sw.lk = false) (hf : freeSlot? sw = none) :
    linkSlot kind vaddr list sw = .ok (none, list, { sw with lk := true }) := by
  have hf' : freeSlot? { sw with lk := true } = none := by rw [← hf]; exact freeSlot?_congr rfl
  unfold linkSlot
  cases list with
  | none => simp [Swap.acquire_eq hlk, swapGetFreeFrame, hf']
  | some head =>
    dsimp only
    obtain ⟨A, z, rfl⟩ := Path.exists_snoc h
    have hlen := h.length_le
    rw [lastSlot_eq A head z maxFrameSwap h (by simp at hlen; omega)]
    simp [Swap.acquire_eq hlk, swapGetFreeFrame, hf']

/-- `swap_out*` takes the first free slot and hangs it at the end of the list. -/
theorem linkSlot_eq (h : SwapList sw list L) (hlk : sw.lk = false) (hf : freeSlot? sw = some f) :
    linkSlot kind vaddr list sw = .ok (some f, list.or (some f), sw.linked L kind vaddr f) := by
  have hf' : freeSlot? { sw with lk := true } = some f := by rw [← hf]; exact freeSlot?_congr rfl
  unfold linkSlot
  cases list with
  | none =>
    cases path_none.1 h
    simp only [Swap.acquire_eq hlk, ok_bind, swapGetFreeFrame, hf', Option.map_some]
    rw [Swap.release_eq rfl]
    simp [Swap.linked, Swap.setSlot, Swap.setBit, Function.update_apply, funext_iff]
  | some head =>
    dsimp only
    obtain ⟨A, z, rfl⟩ := Path.exists_snoc h
    have hlen := h.length_le
    rw [lastSlot_eq A head z maxFrameSwap h (by simp at hlen; omega)]
    simp only [Swap.acquire_eq hlk, ok_bind, swapGetFreeFrame, hf', Option.map_some]
    rw [Swap.release_eq rfl]
    have hfr : (fun j => ((({ sw with lk := true } : Swap).setBit f 1).setNext z (some f)).setSlot f
        ⟨vaddr, none, kind, 1⟩ |>.frames j) = (sw.linked (A ++ [z]) kind vaddr f).frames := by
      funext j
      simp only [Swap.setSlot_frames, Swap.setNext_frames, Swap.linked, List.getLast?_append, List.getLast?_singleton,
        Option.some_or, Option.some.injEq, Swap.setBit_frames, @eq_comm _ z]
    simp only [pure_ok, ok_bind, Except.ok.injEq, Prod.mk.injEq, Option.some_or, true_and]
    rw [Swap.mk.injEq]
    exact ⟨hfr, rfl, rfl⟩

/-- The list after a slot outside it has been appended. -/
theorem SwapList.linked (h : SwapList sw list L) (hf : f ∉ L) :
    SwapList (sw.linked L kind vaddr f) (list.or (some f)) (L ++ [f]) := by
  rcases List.eq_nil_or_concat' L with rfl | ⟨A, z, rfl⟩
  · cases h
    exact ⟨rfl, by simp [Swap.linked]⟩
  · have hz : z ≠ f := by rintro rfl; simp at hf
    have hor : list.or (some f) = list := by
      cases list with
      | none => exact absurd (path_none.1 h) (by simp)
      | some x => rfl
    rw [hor]
    rw [List.append_assoc]
    refine Path.redirect h ?_ ?_ ?_
    · intro u hu
      have huf : u ≠ f := by rintro rfl; simp [hu] at hf
      have huz : u ≠ z := by
        rintro rfl
        have hnd := h.nodup
        rw [List.nodup_append] at hnd
        exact hnd.2.2 u hu u (by simp) rfl
      simp [Swap.linked, huf, huz.symm]
    · simp [Swap.linked, hz]
    · simp [Swap.linked]

/-- Another list that does not end where `L` ends is not changed by appending to `L`. -/
theorem SwapList.linked_other {list' : Option SlotIdx} {L' : List SlotIdx} (h' : SwapList sw list' L') (hf : f ∉ L')
    (hL : ∀ z ∈ L.getLast?, z ∉ L') : SwapList (sw.linked L kind vaddr f) list' L' := by
  refine h'.congr fun i hi => ?_
  have hif : i ≠ f := by rintro rfl; exact hf hi
  have hil : L.getLast? ≠ some i := fun hc => hL i hc hi
  simp [Swap.linked, hif, hil]

end Link

/-! ## Taking a slot -/

/-- A list with a slot of the page, split at the first one. -/
theorem exists_first {sw : Swap} {vaddr : Nat} {L : List SlotIdx} (h : ∃ i ∈ L, (sw.frames i).vaddr = vaddr) :
    ∃ A y B, L = A ++ y :: B ∧ (∀ i ∈ A, (sw.frames i).vaddr ≠ vaddr) ∧ (sw.frames y).vaddr = vaddr := by
  obtain ⟨i, hi, hv⟩ := h
  have hsome : (L.find? fun i => (sw.frames i).vaddr = vaddr).isSome := List.find?_isSome.2 ⟨i, hi, by simpa using hv⟩
  obtain ⟨y, hy⟩ := Option.isSome_iff_exists.1 hsome
  obtain ⟨hyv, A, B, hL, hA⟩ := List.find?_eq_some_iff_append.1 hy
  exact ⟨A, y, B, hL, fun j hj => by simpa using hA j hj, by simpa using hyv⟩

section Take

variable {sw : Swap} {list : Option SlotIdx} {vaddr : Nat}

/-- The search of `swap_in*` stops at the first slot of the page, and at the end of the list
when there is none. -/
theorem findSlot_eq (sw : Swap) : ∀ (A B : List SlotIdx) (x y : SlotIdx) (prev : Option SlotIdx) (fuel : Nat),
    SwapList sw (some x) (A ++ y :: B) → (∀ i ∈ A, (sw.frames i).vaddr ≠ vaddr) →
    ((sw.frames y).vaddr = vaddr ∨ B = []) → A.length < fuel →
    findSlot sw vaddr fuel x prev = .ok (y, A.getLast?.or prev)
  | [], B, x, y, prev, fuel + 1, h, _, hy, _ => by
    have hn := Path.next_eq (A := []) h
    obtain ⟨hx, -⟩ := h
    cases hx
    rw [findSlot]
    rcases hy with hy | rfl
    · rw [hn]; cases B <;> simp [hy]
    · simp [hn]
  | a :: A, B, x, y, prev, fuel + 1, h, hA, hy, hl => by
    obtain ⟨hx, h⟩ := h
    obtain rfl := Option.some.inj hx
    obtain ⟨b, hb⟩ : ∃ b, (sw.frames x).next = some b := by
      cases A with
      | nil => exact ⟨y, h.1⟩
      | cons b A => exact ⟨b, h.1⟩
    rw [findSlot, hb]
    dsimp only
    rw [if_neg (hA x (by simp)), findSlot_eq sw A B b y (some x) fuel (by rw [← hb]; exact h)
      (fun i hi => hA i (by simp [hi])) hy (by simp at hl; omega)]
    cases A with
    | nil => rfl
    | cons c A => simp [List.getLast?_eq_some_getLast]
  | [], _, _, _, _, 0, _, _, _, h => by simp at h
  | _ :: _, _, _, _, _, 0, _, _, _, h => by simp at h

theorem takeSlot_missing {L : List SlotIdx} (h : SwapList sw list L) (hlk : sw.lk = false)
    (hL : ∀ i ∈ L, (sw.frames i).vaddr ≠ vaddr) : takeSlot vaddr list sw = .ok (none, list, sw) := by
  unfold takeSlot
  cases list with
  | none => rfl
  | some head =>
    dsimp only
    obtain ⟨A, z, rfl⟩ := Path.exists_snoc h
    have hlen := h.length_le
    rw [Swap.acquire_eq hlk, ok_bind, findSlot_eq { sw with lk := true } A [] head z none maxFrameSwap h
      (fun i hi => hL i (by simp [hi])) (Or.inr rfl) (by simp at hlen; omega)]
    rw [ok_bind]
    dsimp only
    rw [if_pos (hL z (by simp)), Swap.release_eq rfl]
    cases sw; simp_all

/-- The table after the slot `y` behind `A` has lost its last reference. -/
def Swap.unlinked (sw : Swap) (A : List SlotIdx) (y : SlotIdx) : Swap where
  frames := fun j => if j = y then { sw.frames y with count := 0 }
    else if A.getLast? = some j then { sw.frames j with next := (sw.frames y).next } else sw.frames j
  bitmap := Function.update sw.bitmap y (-1)
  lk := false

section Found

variable {A B : List SlotIdx} {y : SlotIdx}

private theorem takeSlot_search (h : SwapList sw list (A ++ y :: B)) (hA : ∀ i ∈ A, (sw.frames i).vaddr ≠ vaddr)
    (hy : (sw.frames y).vaddr = vaddr) :
    ∃ head, list = some head ∧ (y = head ↔ A = []) ∧
      findSlot { sw with lk := true } vaddr maxFrameSwap head none = .ok (y, A.getLast?) := by
  have hlen := h.length_le
  have hnd := h.nodup
  cases list with
  | none => exact absurd (path_none.1 h) (by simp)
  | some head =>
    refine ⟨head, rfl, ?_, ?_⟩
    · cases A with
      | nil => simpa using (Option.some.inj h.1).symm
      | cons a A =>
        cases h.1
        simp only [List.cons_append, List.nodup_cons, List.mem_append, List.mem_cons, not_or] at hnd
        simpa using (Ne.symm hnd.1.2.1)
    · rw [findSlot_eq { sw with lk := true } A B head y none maxFrameSwap h hA (Or.inl hy)
        (by simp at hlen; omega)]
      simp

/-- A slot that others still count keeps its place in the list. -/
theorem takeSlot_shared (h : SwapList sw list (A ++ y :: B)) (hlk : sw.lk = false)
    (hA : ∀ i ∈ A, (sw.frames i).vaddr ≠ vaddr) (hy : (sw.frames y).vaddr = vaddr) (hc : (sw.frames y).count ≠ 1) :
    takeSlot vaddr list sw = .ok (some y, list, sw.addCount y (-1)) := by
  obtain ⟨head, rfl, -, hfind⟩ := takeSlot_search h hA hy
  have hc' : ((({ sw with lk := true } : Swap).addCount y (-1)).frames y).count ≠ 0 := by
    rw [Swap.addCount_frames, if_pos rfl]; simp only; omega
  unfold takeSlot
  dsimp only
  rw [Swap.acquire_eq hlk, ok_bind, hfind, ok_bind]
  dsimp only
  rw [if_neg (by simpa using hy), if_neg hc', Swap.release_eq rfl]
  simp [Swap.addCount, Swap.setSlot, hlk]

/-- A slot with one reference left is unlinked and its bit cleared. -/
theorem takeSlot_last (h : SwapList sw list (A ++ y :: B)) (hlk : sw.lk = false)
    (hA : ∀ i ∈ A, (sw.frames i).vaddr ≠ vaddr) (hy : (sw.frames y).vaddr = vaddr) (hc : (sw.frames y).count = 1) :
    takeSlot vaddr list sw = .ok (some y, if A = [] then (sw.frames y).next else list, sw.unlinked A y) := by
  obtain ⟨head, rfl, hhead, hfind⟩ := takeSlot_search h hA hy
  have hc' : ((({ sw with lk := true } : Swap).addCount y (-1)).frames y).count = 0 := by
    rw [Swap.addCount_frames, if_pos rfl]; simp only; omega
  unfold takeSlot
  dsimp only
  rw [Swap.acquire_eq hlk, ok_bind, hfind, ok_bind]
  dsimp only
  rw [if_neg (by simpa using hy), if_pos hc']
  rcases List.eq_nil_or_concat' A with rfl | ⟨C, z, rfl⟩
  · rw [if_pos (hhead.2 rfl), Swap.release_eq rfl]
    simp only [ok_bind, pure_ok, Swap.addCount_next, if_true, Except.ok.injEq, Prod.mk.injEq, true_and]
    rw [Swap.mk.injEq]
    refine ⟨?_, rfl, rfl⟩
    funext j
    by_cases hj : j = y
    · subst hj; simp [Swap.unlinked, Swap.addCount_frames, hc]
    · simp [Swap.unlinked, Swap.addCount_frames, hj]
  · have hz : z ≠ y := by
      rintro rfl
      simpa using (List.nodup_append.1 h.nodup).2.2 z
    have hne : ¬ y = head := fun e => absurd (hhead.1 e) (by simp)
    rw [if_neg hne]
    simp only [List.getLast?_append, List.getLast?_singleton, Option.some_or, deref_some, ok_bind]
    rw [Swap.release_eq rfl]
    simp only [ok_bind, pure_ok, List.append_eq_nil_iff, List.cons_ne_nil, and_false, if_false, Except.ok.injEq,
      Prod.mk.injEq, true_and]
    rw [Swap.mk.injEq]
    refine ⟨?_, rfl, rfl⟩
    funext j
    by_cases hj : j = y
    · subst hj; simp [Swap.unlinked, Swap.setNext_frames, Swap.addCount_frames, hc, hz.symm]
    · simp [Swap.unlinked, Swap.setNext_frames, Swap.addCount_frames, hj, @eq_comm _ z]

/-- The list without the slot taken. -/
theorem SwapList.unlinked (h : SwapList sw list (A ++ y :: B)) :
    SwapList (sw.unlinked A y) (if A = [] then (sw.frames y).next else list) (A ++ B) := by
  have hnd := h.nodup
  rcases List.eq_nil_or_concat' A with rfl | ⟨C, z, rfl⟩
  · rw [if_pos rfl, List.nil_append]
    refine Path.congr h.2 fun u hu => ?_
    have huy : u ≠ y := by rintro rfl; exact (List.nodup_cons.1 hnd).1 hu
    simp [Swap.unlinked, huy]
  · simp only [List.append_assoc, List.singleton_append] at h hnd ⊢
    have hz : z ≠ y := by
      rintro rfl
      simpa using (List.nodup_append.1 hnd).2.1
    rw [if_neg (by simp)]
    refine Path.cut h (fun u hu huz => ?_) ?_
    · by_cases huy : u = y
      · subst huy; simp [Swap.unlinked]
      · simp [Swap.unlinked, huy, Ne.symm huz]
    · simp [Swap.unlinked, hz]

/-- Another list is not changed when a slot it does not list is taken. -/
theorem SwapList.unlinked_other {list' : Option SlotIdx} {L' : List SlotIdx} (h' : SwapList sw list' L')
    (hA : ∀ z ∈ A.getLast?, z ∉ L') : SwapList (sw.unlinked A y) list' L' := by
  refine h'.congr fun i hi => ?_
  have hil : A.getLast? ≠ some i := fun hc => hA i hc hi
  simp only [Swap.unlinked, hil, if_false]
  split <;> simp_all

end Found

end Take

/-! ## Looking a page up -/

theorem checkSlot_eq (sw : Swap) {vaddr : Nat} : ∀ (L : List SlotIdx) (x : SlotIdx) (fuel : Nat),
    SwapList sw (some x) (x :: L) → L ≠ [] → L.length < fuel →
    checkSlot sw vaddr fuel x = .ok (((x :: L).find? fun i => (sw.frames i).vaddr = vaddr).map fun i => (sw.frames i).swap)
  | [], _, _, _, h, _ => absurd rfl h
  | [y], x, fuel + 2, h, _, _ => by
    have hx : (sw.frames x).next = some y := h.2.1
    have hy : (sw.frames y).next = none := h.2.2
    rw [checkSlot, hx]
    by_cases h1 : (sw.frames x).vaddr = vaddr
    · simp [h1]
    · by_cases h2 : (sw.frames y).vaddr = vaddr
      · simp [h1, h2, hy]
      · simp [h1, h2, checkSlot, hy]
  | y :: z :: L, x, fuel + 1, h, _, hl => by
    have hx : (sw.frames x).next = some y := h.2.1
    have hy : (sw.frames y).next = some z := h.2.2.1
    rw [checkSlot, hx]
    dsimp only
    by_cases h1 : (sw.frames x).vaddr = vaddr
    · simp [h1]
    · rw [if_neg h1, if_neg (by simp [hy]), checkSlot_eq sw (z :: L) y fuel ⟨rfl, h.2.2⟩ (by simp) (by simp at hl ⊢; omega)]
      rw [List.find?_cons_of_neg (a := x) (by simpa using h1)]
  | [_], _, 0, _, _, h => by simp at h
  | [_], _, 1, _, _, h => by simp at h
  | _ :: _ :: _, _, 0, _, _, h => by simp at h

/-- `swap_check` names the kind of the first slot of the page. -/
theorem swapCheck_eq {sw : Swap} {list : Option SlotIdx} {L : List SlotIdx} {vaddr : Nat} (h : SwapList sw list L)
    (hlk : sw.lk = false) : swapCheck vaddr list sw =
      .ok ((L.find? fun i => (sw.frames i).vaddr = vaddr).map (fun i => (sw.frames i).swap), sw) := by
  have hrel : ({ sw with lk := true } : Swap).release = .ok sw := by
    rw [Swap.release_eq rfl]; cases sw; simp_all
  unfold swapCheck
  cases L with
  | nil => cases h; rfl
  | cons x L =>
    have hlen := h.length_le
    obtain ⟨rfl, hL⟩ := h
    dsimp only
    rw [Swap.acquire_eq hlk, ok_bind]
    cases L with
    | nil =>
      have hn : (sw.frames x).next = none := hL
      by_cases hv : (sw.frames x).vaddr = vaddr
      · simp [hn, hv, hrel]
      · simp [hn, hv, hrel, checkSlot]
    | cons y L =>
      have hn : (sw.frames x).next = some y := hL.1
      rw [if_neg (by simp [hn]), checkSlot_eq { sw with lk := true } (y :: L) x maxFrameSwap ⟨rfl, hL⟩ (by simp)
        (by simp at hlen ⊢; omega), ok_bind, hrel]
      rfl

/-! ## Freeing a list -/

/-- The table with the bits of a list cleared. -/
def Swap.cleared (sw : Swap) (L : List SlotIdx) : Swap :=
  { sw with bitmap := fun j => if j ∈ L then -1 else sw.bitmap j }

theorem freeSlotsLoop_eq : ∀ (L : List SlotIdx) (x : SlotIdx) (sw : Swap) (fuel : Nat), SwapList sw (some x) (x :: L) →
    L ≠ [] → L.length < fuel →
    freeSlotsLoop fuel x sw = .ok (sw.cleared (x :: L))
  | [], _, _, _, _, h, _ => absurd rfl h
  | [y], x, sw, fuel + 2, h, _, _ => by
    have hx : (sw.frames x).next = some y := h.2.1
    have hy : (sw.frames y).next = none := h.2.2
    rw [freeSlotsLoop, hx]
    simp only [Swap.setBit_frames, hy, if_true, freeSlotsLoop, Except.ok.injEq]
    rw [Swap.cleared, Swap.mk.injEq]
    refine ⟨rfl, ?_, rfl⟩
    funext j
    simp only [Swap.setBit_bitmap, List.mem_cons, List.not_mem_nil, or_false]
    grind
  | y :: z :: L, x, sw, fuel + 1, h, _, hl => by
    have hx : (sw.frames x).next = some y := h.2.1
    have hy : (sw.frames y).next = some z := h.2.2.1
    rw [freeSlotsLoop, hx]
    dsimp only
    rw [if_neg (by simp [hy]), freeSlotsLoop_eq (z :: L) y (sw.setBit x (-1)) fuel ⟨rfl, h.2.2⟩ (by simp)
      (by simp at hl ⊢; omega)]
    rw [Except.ok.injEq]
    simp only [Swap.cleared]
    rw [Swap.mk.injEq]
    refine ⟨rfl, ?_, rfl⟩
    funext j
    simp only [Swap.setBit_bitmap, List.mem_cons]
    grind
  | [_], _, _, 0, _, _, h => by simp at h
  | [_], _, _, 1, _, _, h => by simp at h
  | _ :: _ :: _, _, _, 0, _, _, h => by simp at h

/-- `swap_free` clears the bits of the list; a list of one slot stays the process's list. -/
theorem freeSlots_eq {sw : Swap} {list : Option SlotIdx} {L : List SlotIdx} (h : SwapList sw list L)
    (hlk : sw.lk = false) : freeSlots list sw =
      .ok (if L.length = 1 then list else none, sw.cleared L) := by
  unfold freeSlots Swap.cleared
  rw [Swap.acquire_eq hlk, ok_bind]
  cases L with
  | nil =>
    cases h
    dsimp only
    rw [Swap.release_eq rfl]
    simp [hlk]
  | cons x L =>
    have hlen := h.length_le
    obtain ⟨rfl, hL⟩ := h
    dsimp only
    cases L with
    | nil =>
      rw [if_pos (show (sw.frames x).next = none from hL), Swap.release_eq rfl]
      simp only [ok_bind, pure_ok, List.length_singleton, if_true, Except.ok.injEq, Prod.mk.injEq, true_and]
      rw [Swap.mk.injEq]
      refine ⟨rfl, ?_, hlk.symm⟩
      funext j
      simp [Swap.setBit_bitmap]
    | cons y L =>
      have hn : (sw.frames x).next = some y := hL.1
      rw [if_neg (by simp [hn]), freeSlotsLoop_eq (y :: L) x { sw with lk := true } maxFrameSwap ⟨rfl, hL⟩ (by simp)
        (by simp at hlen ⊢; omega), ok_bind, Swap.release_eq rfl]
      simp [Swap.cleared, hlk]

/-! ## Sharing a list -/

/-- The table with every slot of a list counted once more. -/
def Swap.counted (sw : Swap) (L : List SlotIdx) : Swap :=
  { sw with frames := fun j =>
      if j ∈ L then { sw.frames j with count := (sw.frames j).count + 1 } else sw.frames j }

theorem Swap.counted_frames (sw : Swap) (L : List SlotIdx) (j : SlotIdx) : (sw.counted L).frames j =
    if j ∈ L then { sw.frames j with count := (sw.frames j).count + 1 } else sw.frames j := rfl

theorem swapForkLoop_eq : ∀ (L : List SlotIdx) (x : SlotIdx) (sw : Swap) (fuel : Nat), SwapList sw (some x) (x :: L) →
    L ≠ [] → L.length < fuel → swapForkLoop fuel x sw = .ok (sw.counted (x :: L))
  | [], _, _, _, _, h, _ => absurd rfl h
  | [y], x, sw, fuel + 2, h, _, _ => by
    have hnd := h.nodup
    have hx : (sw.frames x).next = some y := h.2.1
    have hy : (sw.frames y).next = none := h.2.2
    rw [swapForkLoop, hx]
    simp only [Swap.addCount_next, hy, if_true, swapForkLoop, Except.ok.injEq]
    rw [Swap.counted, Swap.mk.injEq]
    refine ⟨?_, rfl, rfl⟩
    funext j
    simp only [Swap.addCount_frames, List.mem_cons, List.not_mem_nil, or_false]
    simp only [List.nodup_cons, List.mem_singleton, List.not_mem_nil, not_false_eq_true, List.nodup_nil, and_true] at hnd
    grind
  | y :: z :: L, x, sw, fuel + 1, h, _, hl => by
    have hnd := h.nodup
    have hx : (sw.frames x).next = some y := h.2.1
    have hy : (sw.frames y).next = some z := h.2.2.1
    rw [swapForkLoop, hx]
    dsimp only
    rw [if_neg (by simp [hy]), swapForkLoop_eq (z :: L) y (sw.addCount x 1) fuel ?_ (by simp)
      (by simp at hl ⊢; omega)]
    · rw [Except.ok.injEq]
      simp only [Swap.counted]
      rw [Swap.mk.injEq]
      refine ⟨?_, rfl, rfl⟩
      funext j
      have hxL := (List.nodup_cons.1 hnd).1
      simp only [Swap.addCount_frames, List.mem_cons] at hxL ⊢
      grind
    · exact SwapList.congr ⟨rfl, h.2.2⟩ fun i _ => by simp
  | [_], _, _, 0, _, _, h => by simp at h
  | [_], _, _, 1, _, _, h => by simp at h
  | _ :: _ :: _, _, _, 0, _, _, h => by simp at h

/-- `swap_fork` adds one to the count of every slot of the list. -/
theorem swapFork_eq {sw : Swap} {list : Option SlotIdx} {L : List SlotIdx} (h : SwapList sw list L) :
    swapFork list sw = .ok (sw.counted L) := by
  unfold swapFork
  cases L with
  | nil => cases h; simp [Swap.counted]
  | cons x L =>
    have hlen := h.length_le
    obtain ⟨rfl, hL⟩ := h
    dsimp only
    cases L with
    | nil =>
      rw [if_pos (show (sw.frames x).next = none from hL), Except.ok.injEq, Swap.counted, Swap.mk.injEq]
      refine ⟨?_, rfl, rfl⟩
      funext j
      simp [Swap.addCount_frames]
    | cons y L =>
      have hn : (sw.frames x).next = some y := hL.1
      rw [if_neg (by simp [hn]), swapForkLoop_eq (y :: L) x sw maxFrameSwap ⟨rfl, hL⟩ (by simp)
        (by simp at hlen ⊢; omega)]

end DemandPaging
