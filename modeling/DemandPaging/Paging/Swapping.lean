/-
What `swap_out*`, `swap_in*` and a `growproc` by one page do to the whole state when nothing is in
their way: a free slot and an entry of the page table, or a slot of the page on the list and a free page.
-/
import DemandPaging.Lru.Queue
import DemandPaging.Memory.Tables
import DemandPaging.Swap.Steps

namespace DemandPaging

section Swapping

variable {s : Kernel} {p : ProcIdx} {kind : SwapKind} {vaddr : Nat} {L : List SlotIdx} {pd pd' : PageDir} {pte : Pte}

/-- The page of the process has gone to slot `f`, behind the slots `L` of its list. -/
def Kernel.swappedOut (s : Kernel) (kind : SwapKind) (p : ProcIdx) (vaddr : Nat) (L : List SlotIdx) (f : SlotIdx)
    (pd : PageDir) (pte : Pte) : Kernel :=
  { s with
    swap := s.swap.linked L kind vaddr f
    disk := writeswap (kind.buffer (s.ptable p)) (kind.start + f * 8) s.disk
    ptable := Function.update s.ptable p { s.ptable p with
      swapList := (s.ptable p).swapList.or (some f)
      pgdir := some (pd.setPte vaddr { pte with present := false }) } }

theorem swappedOut_self {f : SlotIdx} : (s.swappedOut kind p vaddr L f pd pte).ptable p = { s.ptable p with
    swapList := (s.ptable p).swapList.or (some f), pgdir := some (pd.setPte vaddr { pte with present := false }) } := by
  simp [Kernel.swappedOut]

theorem swappedOut_other {f : SlotIdx} {q : ProcIdx} (hq : q ≠ p) :
    (s.swappedOut kind p vaddr L f pd pte).ptable q = s.ptable q := by
  simp [Kernel.swappedOut, hq]

theorem Layout.lt_kernEnd (l : Layout) (hv : vaddr ≤ kernBase) : vaddr < l.kernEnd := by
  have h1 := l.link_lt
  have h2 := l.data_le
  simp only [kernLink, kernBase, extMem] at h1 hv
  omega

/-- For a user address only the LRU entry goes. -/
theorem klruFreeSwap_user {l : Lru} (hl : lruFreeFrame (s.ptable p).pid vaddr s.lru = .ok l) (hv : vaddr ≤ kernBase) :
    klruFreeSwap p vaddr s = .ok { s with lru := l } := by
  unfold klruFreeSwap
  rw [if_pos (Or.inr (Or.inl (s.phys.layout.lt_kernEnd hv))), hl]
  rfl

theorem swapOutWith_free {f : SlotIdx} {l : Lru} (hL : SwapList s.swap (s.ptable p).swapList L)
    (hlk : s.swap.lk = false) (hf : freeSlot? s.swap = some f) (hpd : (s.ptable p).pgdir = some pd)
    (hpte : pd.pte? vaddr = some pte) (hl : lruFreeFrame (s.ptable p).pid vaddr s.lru = .ok l) (hv : vaddr ≤ kernBase) :
    swapOutWith kind p vaddr s = .ok (1, { s.swappedOut kind p vaddr L f pd pte with lru := l }) := by
  unfold swapOutWith demappagesSwapOut
  rw [linkSlot_eq hL hlk hf]
  simp only [ok_bind, Kernel.setSwap, Kernel.setPgdir, Kernel.setProc, Function.update_self, Function.update_idem, hpd,
    deref_some, hpte, pure_ok]
  have hk : klruFreeSwap p vaddr (s.swappedOut kind p vaddr L f pd pte) =
      .ok { s.swappedOut kind p vaddr L f pd pte with lru := l } := by
    refine klruFreeSwap_user ?_ hv
    rw [swappedOut_self]
    exact hl
  have hbuf : kind.buffer { s.ptable p with pgdir := some pd, swapList := (s.ptable p).swapList.or (some f) } =
      kind.buffer (s.ptable p) := by cases kind <;> rfl
  rw [Kernel.swappedOut] at hk ⊢
  rw [hbuf, hk]
  rfl

theorem swapOutWith_eq {f : SlotIdx} {E : List (Int × Nat)} (hL : SwapList s.swap (s.ptable p).swapList L)
    (hlk : s.swap.lk = false) (hf : freeSlot? s.swap = some f) (hpd : (s.ptable p).pgdir = some pd)
    (hpte : pd.pte? vaddr = some pte) (hE : Queue s.lru E) (hv : vaddr ≤ kernBase)
    (hm : ((s.ptable p).pid, vaddr) ∉ E) :
    swapOutWith kind p vaddr s = .ok (1, s.swappedOut kind p vaddr L f pd pte) :=
  swapOutWith_free hL hlk hf hpd hpte (hE.freeFrame_missing hm) hv

/-- A page of the process that has gone out: everything that has changed. -/
theorem swapOutWith_user {r : Int} {s' : Kernel} (h : swapOutWith kind p vaddr s = .ok (r, s')) (hr : 0 ≤ r)
    (hv : vaddr ≤ kernBase) : ∃ f list sw pd pte l,
      linkSlot kind vaddr (s.ptable p).swapList s.swap = .ok (some f, list, sw) ∧
      (s.ptable p).pgdir = some pd ∧ pd.pte? vaddr = some pte ∧ lruFreeFrame (s.ptable p).pid vaddr s.lru = .ok l ∧
      s' = { s with
        swap := sw
        lru := l
        disk := writeswap (kind.buffer (s.ptable p)) (kind.start + f * 8) s.disk
        ptable := Function.update s.ptable p { s.ptable p with
          swapList := list, pgdir := some (pd.setPte vaddr { pte with present := false }) } } := by
  unfold swapOutWith at h
  obtain ⟨⟨slot, list, sw⟩, hlink, h⟩ := bind_eq_ok.1 h
  cases slot with
  | none =>
    cases h
    exact absurd hr (by decide)
  | some f =>
    obtain ⟨t, hdemap, h⟩ := bind_eq_ok.1 h
    obtain ⟨pd, pte, hpd, hpte, rfl⟩ := demappagesSwapOut_ok hdemap
    obtain ⟨t', hfree, h⟩ := bind_eq_ok.1 h
    cases h
    unfold klruFreeSwap at hfree
    rw [if_pos (Or.inr (Or.inl (Layout.lt_kernEnd _ hv)))] at hfree
    obtain ⟨l, hl, hfree⟩ := bind_eq_ok.1 hfree
    simp only [Kernel.setSwap, Kernel.setPgdir, Kernel.setProc, Function.update_self] at hpd hl
    refine ⟨f, list, sw, pd, pte, l, hlink, hpd, hpte, hl, ?_⟩
    cases hfree
    have hbuf : kind.buffer { s.ptable p with swapList := list } = kind.buffer (s.ptable p) := by cases kind <;> rfl
    simp [Kernel.setSwap, Kernel.setPgdir, Kernel.setProc, hbuf]

/-- `swap_in*` once the slot is found: its blocks are read into a free page, which is mapped. -/
theorem swapInWith_eq {y : SlotIdx} {list : Option SlotIdx} {sw : Swap} {f : Nat} {fl : List Nat} {m : Phys}
    (htake : takeSlot vaddr (s.ptable p).swapList s.swap = .ok (some y, list, sw)) (hpd : (s.ptable p).pgdir = some pd)
    (hfl : s.phys.freelist = f :: fl)
    (hmap : mappages pd vaddr pgSize (f * pgSize) ⟨false, true, true⟩ true
      ({ s.phys with freelist := fl }.setPage f (diskPage s.disk (kind.start + y * 8))) = (0, pd', m)) :
    swapInWith kind p vaddr s = .ok (0, { s with
      swap := sw
      phys := m
      ptable := Function.update s.ptable p { s.ptable p with swapList := list, pgdir := some pd' } }) := by
  unfold swapInWith readswap kalloc kallocPage mappagesSwapIn mappagesProc
  rw [htake]
  simp only [ok_bind, Kernel.setSwap, Kernel.setPgdir, Kernel.setProc, Function.update_self, Function.update_idem, hpd,
    deref_some, hfl, pure_ok, ne_eq, not_true_eq_false, and_false, if_false]
  rw [hmap]
  rfl

theorem switchuvm_ok {k : Nat} (hk : (s.ptable p).kstack = some k) (hpd : (s.ptable p).pgdir = some pd) :
    switchuvm p s = .ok () := by
  unfold switchuvm
  rw [hk, hpd]
  rfl

/-- The state after `growproc` has added one page: it starts in slot `f`. -/
def Kernel.grown (s : Kernel) (p : ProcIdx) (m : Phys) (L : List SlotIdx) (f : SlotIdx) (pd : PageDir) (pte : Pte) (sz : Nat) : Kernel :=
  let t := ({ s with phys := m } : Kernel).setProc p { s.ptable p with pgdir := some pd, heapBuffer := zeroPage }
  let t := t.swappedOut .heap p (s.ptable p).sz L f pd pte
  t.setProc p { t.ptable p with sz := sz }

/-- `growproc` by one page. -/
theorem growproc_page {n : Int} {newsz k : Nat} {m : Phys} {f : SlotIdx} {E : List (Int × Nat)} (hn : 0 < n)
    (hnew : (((s.ptable p).sz + n) % wordSize).toNat = newsz) (hlt : newsz < kernBase) (hle : (s.ptable p).sz ≤ newsz)
    (hpage : pgRoundUp newsz = pgRoundUp (s.ptable p).sz + pgSize) (hpd : (s.ptable p).pgdir = some pd)
    (hk : (s.ptable p).kstack = some k)
    (hmap : mappages pd (pgRoundUp (s.ptable p).sz) pgSize 0 ⟨false, true, true⟩ false s.phys = (0, pd', m))
    (hL : SwapList s.swap (s.ptable p).swapList L) (hlk : s.swap.lk = false) (hf : freeSlot? s.swap = some f)
    (hpte : pd'.pte? (s.ptable p).sz = some pte) (hE : Queue s.lru E) (hm : ((s.ptable p).pid, (s.ptable p).sz) ∉ E) :
    growproc p n s = .ok (0, s.grown p m L f pd' pte newsz) := by
  have hrounds : (newsz - pgRoundUp (s.ptable p).sz + pgSize - 1) / pgSize = 1 := by
    simp only [pgRoundUp, pgSize, kernBase, wordSize] at *
    omega
  have hpages : subWord (pgRoundUp newsz) (pgRoundUp (s.ptable p).sz) / pgSize = 1 := by
    rw [hpage]
    simp only [subWord, pgRoundUp, pgSize, kernBase, wordSize] at *
    omega
  have halloc : allocuvm p pd (s.ptable p).sz newsz false s = .ok (newsz, pd', { s with phys := m }) := by
    unfold allocuvm
    rw [if_neg (by omega), if_neg (by omega)]
    dsimp only
    rw [hrounds, allocuvmLoop]
    simp only [Bool.false_eq_true, if_false, pure_ok, ok_bind, Nat.zero_mul, hmap, lt_self_iff_false, allocuvmLoop, if_true]
  have hword : ((s.ptable p).sz + 0 * pgSize) % wordSize = (s.ptable p).sz := by
    rw [Nat.zero_mul, Nat.add_zero]
    exact Nat.mod_eq_of_lt (by simp only [kernBase, wordSize] at *; omega)
  generalize ht : ({ s with phys := m } : Kernel).setProc p { s.ptable p with pgdir := some pd', heapBuffer := zeroPage } = t
  have htp : t.ptable p = { s.ptable p with pgdir := some pd', heapBuffer := zeroPage } := by rw [← ht]; simp
  have hts : t.swap = s.swap ∧ t.lru = s.lru := by rw [← ht]; exact ⟨rfl, rfl⟩
  have hout : swapOutFunc .heap p (s.ptable p).sz t = .ok (1, t.swappedOut .heap p (s.ptable p).sz L f pd' pte) := by
    rw [swapOutFunc_eq]
    refine swapOutWith_eq (E := E) ?_ ?_ ?_ ?_ hpte ?_ (by omega) ?_
    · rw [hts.1, htp]; exact hL
    · rw [hts.1]; exact hlk
    · rw [hts.1]; exact hf
    · rw [htp]
    · rw [hts.2]; exact hE
    · rw [htp]; exact hm
  have hloop : growprocLoop p 1 0 (({ s with phys := m } : Kernel).setPgdir p pd') =
      .ok (0, t.swappedOut .heap p (s.ptable p).sz L f pd' pte) := by
    rw [growprocLoop]
    simp only [Kernel.setPgdir, Kernel.setProc_same, hword]
    rw [show (({ s with phys := m } : Kernel).setProc p { s.ptable p with pgdir := some pd' }).setProc p
      { s.ptable p with pgdir := some pd', heapBuffer := zeroPage } = t by rw [← ht]; simp [Kernel.setProc], hout]
    rfl
  unfold growproc
  dsimp only
  rw [hnew, if_neg (by omega), hpd, deref_some, ok_bind, if_pos hn, halloc, ok_bind]
  dsimp only
  rw [if_neg (by have := hpage; simp only [pgRoundUp, pgSize, kernBase, wordSize] at *; omega), hpages, hloop, ok_bind]
  dsimp only
  have hswitch : switchuvm p (s.grown p m L f pd' pte newsz) = .ok () := by
    refine switchuvm_ok (k := k) ?_ (by rw [Kernel.grown, Kernel.setProc_same, swappedOut_self])
    rw [Kernel.grown, Kernel.setProc_same, swappedOut_self, Kernel.setProc_same]
    exact hk
  rw [Kernel.grown, ht] at hswitch ⊢
  rw [if_neg (by decide), hswitch]
  rfl

end Swapping

end DemandPaging
