/-
What the kernel's swap operations change: `swap_out*` and `swap_in*` of a process touch its swap
list, its page directory, the swap table, one slot's blocks and the LRU ring or the free pages,
and nothing else. These facts hold in every state, also where the lists are damaged.
-/
import DemandPaging.Kernel.Process
import DemandPaging.Swap.List

namespace DemandPaging

/-! ## The table -/

section Table

variable {sw sw' : Swap} {list list' : Option SlotIdx} {slot : Option SlotIdx} {kind : SwapKind} {vaddr : Nat}

theorem Swap.acquire_ok (h : sw.acquire = .ok sw') : sw' = { sw with lk := true } ∧ sw.lk = false := by
  unfold Swap.acquire at h
  split at h <;> simp_all

theorem Swap.release_ok (h : sw.release = .ok sw') : sw' = { sw with lk := false } := by
  unfold Swap.release at h
  split at h <;> simp_all

/-- The walk of `swap_out*` only comes back from a list that ends. -/
theorem lastSlot_ends : ∀ (fuel : Nat) (curr z : SlotIdx), lastSlot sw fuel curr = .ok z → ∃ L, SwapList sw (some curr) L
  | 0, _, _, h => by cases h
  | fuel + 1, curr, z, h => by
    rw [lastSlot] at h
    split at h
    · next hn => exact ⟨[curr], rfl, hn⟩
    · next nx hn =>
      obtain ⟨L, hL⟩ := lastSlot_ends fuel nx z h
      exact ⟨curr :: L, SwapList.cons hn hL⟩

/-- `swap_out*` comes back where the list ends; it takes the first free slot and hangs it at the end. -/
theorem linkSlot_inv (h : linkSlot kind vaddr list sw = .ok (slot, list', sw')) : sw.lk = false ∧ ∃ L, SwapList sw list L ∧
    ((freeSlot? sw = none ∧ slot = none ∧ list' = list ∧ sw' = { sw with lk := true }) ∨
      ∃ f, freeSlot? sw = some f ∧ slot = some f ∧ list' = list.or (some f) ∧ sw' = sw.linked L kind vaddr f) := by
  have hlist : sw.lk = false ∧ ∃ L, SwapList sw list L := by
    unfold linkSlot at h
    cases list with
    | none =>
      obtain ⟨sw₁, hacq, -⟩ := bind_eq_ok.1 h
      exact ⟨(Swap.acquire_ok hacq).2, [], rfl⟩
    | some head =>
      obtain ⟨curr, hcurr, h⟩ := bind_eq_ok.1 h
      obtain ⟨sw₁, hacq, -⟩ := bind_eq_ok.1 h
      exact ⟨(Swap.acquire_ok hacq).2, lastSlot_ends _ _ _ hcurr⟩
  obtain ⟨hlk, L, hL⟩ := hlist
  refine ⟨hlk, L, hL, ?_⟩
  cases hf : freeSlot? sw with
  | none =>
    cases (linkSlot_full hL hlk hf).symm.trans h
    exact .inl ⟨rfl, rfl, rfl, rfl⟩
  | some f =>
    cases (linkSlot_eq hL hlk hf).symm.trans h
    exact .inr ⟨f, rfl, rfl, rfl, rfl⟩

theorem Swap.linked_swap (sw : Swap) (L : List SlotIdx) (kind : SwapKind) (vaddr : Nat) (f j : SlotIdx) :
    ((sw.linked L kind vaddr f).frames j).swap = if j = f then kind else (sw.frames j).swap := by
  simp only [linked]
  split_ifs <;> rfl

theorem linkSlot_ok (h : linkSlot kind vaddr list sw = .ok (slot, list', sw')) :
    slot = freeSlot? sw ∧ (slot = none → list' = list ∧ sw'.bitmap = sw.bitmap ∧ sw'.frames = sw.frames) ∧
      ∀ f, slot = some f → sw'.bitmap = Function.update sw.bitmap f 1 ∧
        ∀ j, (sw'.frames j).swap = if j = f then kind else (sw.frames j).swap := by
  obtain ⟨-, L, -, ⟨hf, rfl, rfl, rfl⟩ | ⟨f, hf, rfl, -, rfl⟩⟩ := linkSlot_inv h
  · exact ⟨hf.symm, fun _ => ⟨rfl, rfl, rfl⟩, by rintro f ⟨⟩⟩
  · refine ⟨hf.symm, by rintro ⟨⟩, ?_⟩
    rintro _ ⟨⟩
    exact ⟨rfl, sw.linked_swap L kind vaddr f⟩

theorem findSlot_lk (b : Bool) : ∀ (fuel : Nat) (curr : SlotIdx) (prev : Option SlotIdx),
    findSlot { sw with lk := b } vaddr fuel curr prev = findSlot sw vaddr fuel curr prev
  | 0, _, _ => rfl
  | fuel + 1, curr, prev => by
    rw [findSlot, findSlot]
    simp only [findSlot_lk b fuel]

/-- A slot on the chain from `x`. -/
def Swap.Reaches (sw : Swap) (x i : SlotIdx) : Prop := Relation.ReflTransGen (fun i j => (sw.frames i).next = some j) x i

theorem Swap.Reaches.step {x y i : SlotIdx} (hxy : (sw.frames x).next = some y) (h : sw.Reaches y i) : sw.Reaches x i :=
  .head hxy h

/-- Where the search of `swap_in*` stops: on the chain, and with a slot before it unless it has not
moved. -/
theorem findSlot_ok : ∀ {fuel : Nat} {x y : SlotIdx} {prev prev' : Option SlotIdx},
    findSlot sw vaddr fuel x prev = .ok (y, prev') →
    sw.Reaches x y ∧ (y = x ∧ prev' = prev ∨ ∃ z, prev' = some z ∧ sw.Reaches x z ∧ (sw.frames z).next = some y)
  | 0, _, _, _, _, h => by cases h
  | fuel + 1, x, y, prev, prev', h => by
    rw [findSlot] at h
    cases hx : (sw.frames x).next with
    | none =>
      rw [hx] at h
      cases h
      exact ⟨.refl, Or.inl ⟨rfl, rfl⟩⟩
    | some nx =>
      rw [hx] at h
      dsimp only at h
      split at h
      · cases h
        exact ⟨.refl, Or.inl ⟨rfl, rfl⟩⟩
      · obtain ⟨hr, hcase⟩ := findSlot_ok h
        refine ⟨hr.step hx, Or.inr ?_⟩
        rcases hcase with ⟨rfl, rfl⟩ | ⟨z, hz, hrz, hzn⟩
        · exact ⟨x, rfl, .refl, hx⟩
        · exact ⟨z, hz, hrz.step hx, hzn⟩

/-- What `swap_in*` does with the slot `y` that its search finds, from the list at `x`. -/
structure TakenFrom (sw : Swap) (vaddr : Nat) (x y : SlotIdx) (list' : Option SlotIdx) (sw' : Swap) : Prop where
  reach : sw.Reaches x y
  page : (sw.frames y).vaddr = vaddr
  effect : ((sw.frames y).count ≠ 1 ∧ list' = some x ∧ sw' = sw.addCount y (-1)) ∨ (sw.frames y).count = 1 ∧
    ((y = x ∧ list' = (sw.frames y).next ∧ sw' = (sw.addCount y (-1)).setBit y (-1)) ∨
      ∃ z, sw.Reaches x z ∧ (sw.frames z).next = some y ∧ list' = some x ∧
        sw' = ((sw.addCount y (-1)).setNext z (sw.frames y).next).setBit y (-1))

theorem takeSlot_inv (h : takeSlot vaddr list sw = .ok (slot, list', sw')) :
    (slot = none ∧ list' = list ∧ sw' = sw ∧ (list = none ∨ sw.lk = false)) ∨
      ∃ x y, list = some x ∧ sw.lk = false ∧ slot = some y ∧ TakenFrom sw vaddr x y list' sw' := by
  unfold takeSlot at h
  cases list with
  | none =>
    cases h
    exact .inl ⟨rfl, rfl, rfl, .inl rfl⟩
  | some x =>
    obtain ⟨sw₁, hacq, h⟩ := bind_eq_ok.1 h
    obtain ⟨rfl, hlk⟩ := Swap.acquire_ok hacq
    obtain ⟨⟨y, prev⟩, hfind, h⟩ := bind_eq_ok.1 h
    rw [findSlot_lk] at hfind
    obtain ⟨hreach, hprev⟩ := findSlot_ok hfind
    obtain ⟨frames, bitmap, lk⟩ := sw
    subst hlk
    have hcount : (((⟨frames, bitmap, true⟩ : Swap).addCount y (-1)).frames y).count = (frames y).count - 1 := by
      rw [Swap.addCount_frames, if_pos rfl]
      rfl
    dsimp only at h
    split at h
    · obtain ⟨sw₂, hrel, h⟩ := bind_eq_ok.1 h
      cases h
      rw [Swap.release_ok hrel]
      exact .inl ⟨rfl, rfl, rfl, .inr rfl⟩
    · next hv =>
      refine .inr ⟨x, y, rfl, rfl, ?_⟩
      have hpage : (frames y).vaddr = vaddr := by simpa using hv
      rw [hcount] at h
      split at h
      · next hc =>
        have hone : (frames y).count = 1 := by omega
        split at h
        · next hyx =>
          obtain ⟨sw₂, hrel, h⟩ := bind_eq_ok.1 h
          cases h
          rw [Swap.release_ok hrel]
          exact ⟨rfl, hreach, hpage, .inr ⟨hone, .inl ⟨hyx, Swap.addCount_next _ _ _ _, rfl⟩⟩⟩
        · next hyx =>
          obtain ⟨z, hz, h⟩ := bind_eq_ok.1 h
          obtain ⟨sw₂, hrel, h⟩ := bind_eq_ok.1 h
          cases h
          rw [Swap.release_ok hrel, Swap.addCount_next]
          obtain ⟨hx, -⟩ | ⟨z', rfl, hrz, hzn⟩ := hprev
          · exact absurd hx hyx
          cases hz
          exact ⟨rfl, hreach, hpage, .inr ⟨hone, .inr ⟨z, hrz, hzn, rfl, rfl⟩⟩⟩
      · next hc =>
        obtain ⟨sw₂, hrel, h⟩ := bind_eq_ok.1 h
        cases h
        rw [Swap.release_ok hrel]
        exact ⟨rfl, hreach, hpage, .inl ⟨fun hone => hc (sub_eq_zero.2 hone), rfl, rfl⟩⟩

/-- The loop of `swap_free` only comes back from a list that ends. -/
theorem freeSlotsLoop_ends : ∀ {fuel : Nat} {curr : SlotIdx} {sw sw' : Swap}, freeSlotsLoop fuel curr sw = .ok sw' →
    ∃ L, SwapList sw (some curr) L
  | 0, _, _, _, h => by cases h
  | fuel + 1, curr, sw, sw', h => by
    rw [freeSlotsLoop] at h
    split at h
    · next hn => exact ⟨[curr], rfl, hn⟩
    · next nx hn =>
      obtain ⟨L, hL⟩ := freeSlotsLoop_ends h
      refine ⟨curr :: L, .cons hn (hL.congr fun i _ => ?_)⟩
      split <;> rfl

/-- `swap_free` comes back where the list ends, and clears its bits. -/
theorem freeSlots_inv (h : freeSlots list sw = .ok (list', sw')) : sw.lk = false ∧ ∃ L, SwapList sw list L ∧
    list' = (if L.length = 1 then list else none) ∧ sw' = sw.cleared L := by
  obtain ⟨sw₁, hacq, hres⟩ := bind_eq_ok.1 h
  obtain ⟨rfl, hlk⟩ := Swap.acquire_ok hacq
  have hlist : ∃ L, SwapList sw list L := by
    cases list with
    | none => exact ⟨[], rfl⟩
    | some curr =>
      dsimp only at hres
      split at hres
      · next hn => exact ⟨[curr], rfl, hn⟩
      · obtain ⟨sw₂, hloop, -⟩ := bind_eq_ok.1 hres
        obtain ⟨L, hL⟩ := freeSlotsLoop_ends hloop
        exact ⟨L, hL⟩
  obtain ⟨L, hL⟩ := hlist
  cases (freeSlots_eq hL hlk).symm.trans h
  exact ⟨hlk, L, hL, rfl, rfl⟩

theorem swapForkLoop_ends : ∀ {fuel : Nat} {curr : SlotIdx} {sw sw' : Swap}, swapForkLoop fuel curr sw = .ok sw' →
    ∃ L, SwapList sw (some curr) L
  | 0, _, _, _, h => by cases h
  | fuel + 1, curr, sw, sw', h => by
    rw [swapForkLoop] at h
    split at h
    · next hn => exact ⟨[curr], rfl, hn⟩
    · next nx hn =>
      obtain ⟨L, hL⟩ := swapForkLoop_ends h
      refine ⟨curr :: L, .cons hn (hL.congr fun i _ => ?_)⟩
      split <;> simp

/-- `swap_fork` comes back where the list ends, and counts its slots. -/
theorem swapFork_inv (h : swapFork list sw = .ok sw') : ∃ L, SwapList sw list L ∧ sw' = sw.counted L := by
  have hlist : ∃ L, SwapList sw list L := by
    unfold swapFork at h
    cases list with
    | none => exact ⟨[], rfl⟩
    | some curr =>
      dsimp only at h
      split at h
      · next hn => exact ⟨[curr], rfl, hn⟩
      · exact swapForkLoop_ends h
  obtain ⟨L, hL⟩ := hlist
  cases (swapFork_eq hL).symm.trans h
  exact ⟨L, hL, rfl⟩

/-- A step that takes no slot: the kinds of the slots stay, and no free slot comes into use. -/
structure Swap.Shrinks (sw sw' : Swap) : Prop where
  kinds : ∀ j, (sw'.frames j).swap = (sw.frames j).swap
  used : ∀ j, sw'.bitmap j ≠ -1 → sw.bitmap j ≠ -1

namespace Swap.Shrinks

theorem refl (sw : Swap) : Shrinks sw sw := ⟨fun _ => rfl, fun _ h => h⟩

theorem trans {a b c : Swap} (h : Shrinks a b) (h' : Shrinks b c) : Shrinks a c :=
  ⟨fun j => (h'.kinds j).trans (h.kinds j), fun j hj => h.used j (h'.used j hj)⟩

theorem setBit (sw : Swap) (i : SlotIdx) : Shrinks sw (sw.setBit i (-1)) := by
  refine ⟨fun _ => rfl, fun j => ?_⟩
  rw [Swap.setBit_bitmap]
  split <;> simp

theorem setNext (sw : Swap) (i : SlotIdx) (q : Option SlotIdx) : Shrinks sw (sw.setNext i q) := by
  refine ⟨fun j => ?_, fun _ h => h⟩
  rw [Swap.setNext_frames]
  split <;> rfl

theorem addCount (sw : Swap) (i : SlotIdx) (n : Int) : Shrinks sw (sw.addCount i n) := by
  refine ⟨fun j => ?_, fun _ h => h⟩
  rw [Swap.addCount_frames]
  split <;> rfl

end Swap.Shrinks

open Swap.Shrinks in
theorem takeSlot_shrinks (h : takeSlot vaddr list sw = .ok (slot, list', sw')) : sw.Shrinks sw' := by
  obtain ⟨-, -, rfl, -⟩ | ⟨x, y, -, -, -, -, -, ⟨-, -, rfl⟩ | ⟨-, ⟨-, -, rfl⟩ | ⟨z, -, -, -, rfl⟩⟩⟩ := takeSlot_inv h
  · exact refl _
  · exact addCount _ _ _
  · exact (addCount _ _ _).trans (setBit _ _)
  · exact ((addCount _ _ _).trans (setNext _ _ _)).trans (setBit _ _)

theorem freeSlots_shrinks (h : freeSlots list sw = .ok (list', sw')) : sw.Shrinks sw' := by
  obtain ⟨-, L, -, -, rfl⟩ := freeSlots_inv h
  refine ⟨fun _ => rfl, fun j hj hbit => hj ?_⟩
  simp [Swap.cleared, hbit]

theorem swapFork_shrinks (h : swapFork list sw = .ok sw') : sw.Shrinks sw' := by
  obtain ⟨L, -, rfl⟩ := swapFork_inv h
  refine ⟨fun j => ?_, fun _ h => h⟩
  rw [Swap.counted_frames]
  split <;> rfl

end Table

/-! ## The state -/

section State

variable {s s' : Kernel} {kind : SwapKind} {p : ProcIdx} {vaddr : Nat} {r : Int}

theorem demappagesSwapOut_ok (h : demappagesSwapOut p vaddr s = .ok s') :
    ∃ pd pte, (s.ptable p).pgdir = some pd ∧ pd.pte? vaddr = some pte ∧
      s' = s.setPgdir p (pd.setPte vaddr { pte with present := false }) := by
  unfold demappagesSwapOut at h
  obtain ⟨pd, hpd, h⟩ := bind_eq_ok.1 h
  cases hpg : (s.ptable p).pgdir with
  | none => rw [hpg] at hpd; cases hpd
  | some pd' =>
    rw [hpg] at hpd; cases hpd
    cases hpte : pd.pte? vaddr with
    | none => simp [hpte] at h
    | some pte => simp [hpte] at h; exact ⟨pd, pte, rfl, hpte, h.symm⟩

theorem klruFreeSwap_ok (h : klruFreeSwap p vaddr s = .ok s') : ∃ lru phys, s' = { s with lru := lru, phys := phys } := by
  unfold klruFreeSwap at h
  split at h
  · obtain ⟨lru, -, h⟩ := bind_eq_ok.1 h
    cases h; exact ⟨lru, s.phys, rfl⟩
  · cases h; exact ⟨s.lru, _, rfl⟩

/-- Of the processes only the swap list and the page directory of `p` change. -/
structure SwapFrame (p : ProcIdx) (list : Option SlotIdx) (s s' : Kernel) : Prop where
  fs : s'.fs = s.fs
  nextpid : s'.nextpid = s.nextpid
  initproc : s'.initproc = s.initproc
  other : ∀ q, q ≠ p → s'.ptable q = s.ptable q
  self : ∃ pgdir, s'.ptable p = { s.ptable p with swapList := list, pgdir := pgdir }

namespace SwapFrame

variable {list : Option SlotIdx} (h : SwapFrame p list s s') (q : ProcIdx)

include h

theorem state : (s'.ptable q).state = (s.ptable q).state := by
  by_cases hq : q = p
  · subst hq; obtain ⟨pgdir, h⟩ := h.self; rw [h]
  · rw [h.other q hq]

theorem pid : (s'.ptable q).pid = (s.ptable q).pid := by
  by_cases hq : q = p
  · subst hq; obtain ⟨pgdir, h⟩ := h.self; rw [h]
  · rw [h.other q hq]

theorem swapList : (fun q => (s'.ptable q).swapList) = Function.update (fun q => (s.ptable q).swapList) p list := by
  funext q
  by_cases hq : q = p
  · subst hq; obtain ⟨pgdir, h⟩ := h.self; simp [h]
  · simp [h.other q hq, hq]

end SwapFrame

/-- What `swap_out*` changes. -/
theorem swapOutWith_ok (h : swapOutWith kind p vaddr s = .ok (r, s')) :
    ∃ slot list sw, linkSlot kind vaddr (s.ptable p).swapList s.swap = .ok (slot, list, sw) ∧
      s'.swap = sw ∧ SwapFrame p list s s' ∧ (slot = none → r = -1 ∧ s'.disk = s.disk) ∧
      ∀ f, slot = some f → r = 1 ∧ s'.disk = writeswap (kind.buffer (s.ptable p)) (kind.start + f * 8) s.disk := by
  unfold swapOutWith at h
  obtain ⟨⟨slot, list, sw⟩, hlink, h⟩ := bind_eq_ok.1 h
  refine ⟨slot, list, sw, hlink, ?_⟩
  cases slot with
  | none =>
    cases h
    refine ⟨rfl, ⟨rfl, rfl, rfl, fun q hq => ?_, (s.ptable p).pgdir, ?_⟩, by simp [Kernel.setSwap], by simp⟩
    · simp [Kernel.setSwap_ptable, hq]
    · simp [Kernel.setSwap_ptable]
  | some f =>
    obtain ⟨s₁, hdem, h⟩ := bind_eq_ok.1 h
    obtain ⟨s₂, hk, h⟩ := bind_eq_ok.1 h
    cases h
    obtain ⟨pd, pte, -, -, rfl⟩ := demappagesSwapOut_ok hdem
    obtain ⟨lru, phys, rfl⟩ := klruFreeSwap_ok hk
    refine ⟨rfl, ⟨rfl, rfl, rfl, fun q hq => ?_, some (pd.setPte vaddr { pte with present := false }), ?_⟩, by simp, ?_⟩
    · simp [Kernel.setPgdir_ptable, Kernel.setSwap_ptable, hq]
    · simp only [Kernel.setPgdir_ptable, Kernel.setSwap_ptable, if_true]
    · rintro _ ⟨⟩
      refine ⟨rfl, ?_⟩
      cases kind <;> simp [SwapKind.buffer, Kernel.setPgdir, Kernel.setSwap, Kernel.setProc]

theorem swapOutFunc_eq (kind : SwapKind) : swapOutFunc kind = swapOutWith kind := by cases kind <;> rfl

theorem swapInFunc_eq (kind : SwapKind) : swapInFunc kind = swapInWith kind := by cases kind <;> rfl

/-- An allocation that is not to be evicted later takes a page and does nothing else. -/
theorem kalloc_ok {pid lru : Int} {f : Option Nat} (hpl : pid = -1 ∨ lru = -1) (h : kalloc pid lru s = .ok (f, s')) :
    f = s.phys.freelist.head? ∧ s' = { s with phys := { s.phys with freelist := s.phys.freelist.tail } } := by
  unfold kalloc kallocPage at h
  cases hfl : s.phys.freelist with
  | nil =>
    simp only [hfl, Except.ok.injEq, Prod.mk.injEq] at h
    obtain ⟨rfl, rfl⟩ := h
    refine ⟨rfl, ?_⟩
    rw [List.tail_nil, ← hfl]
  | cons g fl =>
    simp only [hfl] at h
    rw [if_neg (by tauto)] at h
    cases h
    exact ⟨rfl, rfl⟩

theorem readswap_ok {bno f : Nat} (h : readswap p bno s = .ok (f, s')) :
    s.phys.freelist.head? = some f ∧ s' = { s with phys :=
      { s.phys with freelist := s.phys.freelist.tail, mem := Function.update s.phys.mem f (diskPage s.disk bno) } } := by
  unfold readswap at h
  obtain ⟨⟨f', s₁⟩, hk, h⟩ := bind_eq_ok.1 h
  obtain ⟨rfl, rfl⟩ := kalloc_ok (Or.inr rfl) hk
  cases hf : s.phys.freelist.head? with
  | none => simp [hf] at h
  | some g =>
    simp only [hf, pure_ok, Except.ok.injEq, Prod.mk.injEq] at h
    obtain ⟨rfl, rfl⟩ := h
    exact ⟨rfl, rfl⟩

theorem mappagesProc_ok {va size pa : Nat} {perm : Flags} {setPte : Bool}
    (h : mappagesProc p va size pa perm setPte s = .ok (r, s')) :
    ∃ pd, (s.ptable p).pgdir = some pd ∧ r = (mappages pd va size pa perm setPte s.phys).1 ∧
      s' = { s.setPgdir p (mappages pd va size pa perm setPte s.phys).2.1 with
        phys := (mappages pd va size pa perm setPte s.phys).2.2 } := by
  unfold mappagesProc at h
  obtain ⟨pd, hpd, h⟩ := bind_eq_ok.1 h
  cases hpg : (s.ptable p).pgdir with
  | none => rw [hpg] at hpd; cases hpd
  | some pd' =>
    rw [hpg] at hpd; cases hpd
    cases h
    exact ⟨pd, rfl, rfl, rfl⟩

/-- What `swap_in*` changes. -/
theorem swapInWith_ok (h : swapInWith kind p vaddr s = .ok (r, s')) :
    ∃ slot list sw, takeSlot vaddr (s.ptable p).swapList s.swap = .ok (slot, list, sw) ∧
      s'.swap = sw ∧ s'.disk = s.disk ∧ SwapFrame p list s s' := by
  unfold swapInWith at h
  obtain ⟨⟨slot, list, sw⟩, htake, h⟩ := bind_eq_ok.1 h
  refine ⟨slot, list, sw, htake, ?_⟩
  cases slot with
  | none =>
    cases h
    refine ⟨rfl, rfl, rfl, rfl, rfl, fun q hq => ?_, (s.ptable p).pgdir, ?_⟩
    · simp [Kernel.setSwap_ptable, hq]
    · simp [Kernel.setSwap_ptable]
  | some findex =>
    obtain ⟨⟨f, s₁⟩, hread, h⟩ := bind_eq_ok.1 h
    obtain ⟨-, rfl⟩ := readswap_ok hread
    unfold mappagesSwapIn at h
    obtain ⟨⟨r', s₂⟩, hmap, h⟩ := bind_eq_ok.1 h
    obtain ⟨pd, -, -, hs₂⟩ := mappagesProc_ok hmap
    cases h
    refine ⟨by rw [hs₂]; rfl, by rw [hs₂]; rfl, by rw [hs₂]; rfl, by rw [hs₂]; rfl, by rw [hs₂]; rfl, fun q hq => ?_,
      (s'.ptable p).pgdir, ?_⟩
    · simp [hs₂, Kernel.setPgdir_ptable, Kernel.setSwap_ptable, hq]
    · simp only [hs₂, Kernel.setPgdir_ptable, Kernel.setSwap_ptable, if_true]

/-- What `swap_free` does to the process it finds. -/
theorem swapFree_cases {pid : Int} (h : swapFree pid s = .ok s') :
    (getProc pid s = none ∧ s' = s) ∨ ∃ q, getProc pid s = some q ∧
      (((s.ptable q).forked = true ∧ s' = s.setSwap q none s.swap) ∨ ((s.ptable q).forked = false ∧
        ∃ list sw, freeSlots (s.ptable q).swapList s.swap = .ok (list, sw) ∧ s' = s.setSwap q list sw)) := by
  unfold swapFree at h
  split at h
  · next hg => cases h; exact Or.inl ⟨hg, rfl⟩
  · next q hg =>
    refine Or.inr ⟨q, hg, ?_⟩
    split at h
    · next hf => cases h; exact Or.inl ⟨hf, rfl⟩
    · next hf =>
      obtain ⟨⟨list, sw⟩, hfree, h⟩ := bind_eq_ok.1 h
      cases h
      exact Or.inr ⟨by simpa using hf, list, sw, hfree, rfl⟩

end State

end DemandPaging
