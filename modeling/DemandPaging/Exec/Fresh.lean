/-
A successful `exec` and what is left of the old image. `exec` takes nothing off the swap list of the
process and nothing out of the LRU ring but an entry of the new stack page: the image is fresh only
for a process that had neither slots nor entries.
-/
import DemandPaging.Exec.Image
import DemandPaging.Swap.Isolation

namespace DemandPaging

/-- The address of the stack page of an executable. -/
def stackPage (file : File) : Nat := pgRoundUp (imageEnd 0 (loadHdrs file)) + pgSize

/-- `swap_check` of the process for a page. -/
def swapno (p : ProcIdx) (v : Nat) (s : Kernel) : Except Stuck (Option SwapKind) :=
  Prod.fst <$> swapCheck v (s.ptable p).swapList s.swap

/-- After `exec` from `s` to `s'` only the stack page is on swap, in the slot that `exec` took and with
the bytes of `stack_buffer`, and the ring holds no entry of the process. -/
structure FreshImage (p : ProcIdx) (s s' : Kernel) : Prop where
  only : ∀ v, (∃ kind, swapno p v s' = .ok (some kind)) ↔ v = (s'.ptable p).sz - pgSize
  slot : Prod.fst <$> takeSlot ((s'.ptable p).sz - pgSize) (s'.ptable p).swapList s'.swap = .ok (freeSlot? s.swap)
  page : swapView p ((s'.ptable p).sz - pgSize) s' = .ok (some (.stack, (s'.ptable p).stackBuffer))
  ring : ¬s'.lru.Holds (s'.ptable p).pid

section Slots

variable {sw : Swap} {x : SlotIdx} {v : Nat}

/-- Whatever hangs behind it, the head of a list is found. -/
theorem swapCheck_head (hlk : sw.lk = false) :
    Prod.fst <$> swapCheck (sw.frames x).vaddr (some x) sw = .ok (some (sw.frames x).swap) := by
  rw [swapCheck_fst hlk]
  split
  · rfl
  · next hne =>
    rw [checkSlot]
    cases hn : (sw.frames x).next with
    | none => exact absurd ⟨hn, rfl⟩ hne
    | some y => simp

theorem takeSlot_head (hlk : sw.lk = false) : Prod.fst <$> takeSlot (sw.frames x).vaddr (some x) sw = .ok (some x) := by
  have hfind : findSlot sw (sw.frames x).vaddr maxFrameSwap x none = .ok (x, none) := by
    rw [findSlot]
    cases hn : (sw.frames x).next with
    | none => rfl
    | some y => simp
  rw [takeSlot_fst hlk, hfind]
  simp

end Slots

section Exec

variable {s s₀ : Kernel} {p : ProcIdx} {path : List UInt8} {argv : List (List UInt8)} {ip : InodeInfo} {E : List (Int × Nat)}

/-- `exec` starts from a fresh image exactly when the process had no swap list, or one whose head is the
slot that `exec` takes for the stack page, and no entry of the ring, or only one for the new stack
page among entries of others. -/
theorem exec_fresh_iff (hexec : exec p path argv s = .ok (0, s₀)) (hip : s.fs.namei path = some ip) (hE : Queue s.lru E) :
    FreshImage p s s₀ ↔
      ((s.ptable p).swapList = none ∨ (s.ptable p).swapList = freeSlot? s.swap) ∧
      (E.filter (·.1 = (s.ptable p).pid) = [] ∨
        2 ≤ E.length ∧ E.filter (·.1 = (s.ptable p).pid) = [((s.ptable p).pid, stackPage (s.fs.file ip))]) := by
  obtain ⟨im, pte, f, list, sw, l, m, old, hip', him, -, hlink, hl, -, -, rfl⟩ := exec_eq hexec
  obtain rfl : im.ip = ip := Option.some.inj (hip'.symm.trans hip)
  have hstack : im.sz - pgSize = stackPage (s.fs.file im.ip) := by
    rw [him.size, stackPage, him.cdb]
    simp only [pgSize]
    omega
  obtain ⟨hf, rfl, hlk, hslot, -⟩ := linkSlot_slot hlink
  have hring := hE.freeFrame_holds hl
  rw [hstack] at hring hslot
  constructor
  · rintro ⟨honly, htake, -, hno⟩
    simp only [Function.update_self, hstack] at honly htake hno
    refine ⟨?_, ?_⟩
    · cases hlist : (s.ptable p).swapList with
      | none => exact Or.inl rfl
      | some x =>
        -- the head of the old list would be found for its own page
        by_contra hx
        rw [hlist, Option.getD_some] at honly htake
        have hfound : Prod.fst <$> swapCheck (sw.frames x).vaddr (some x) sw = .ok (some (sw.frames x).swap) := swapCheck_head hlk
        have hv := (honly (sw.frames x).vaddr).1 ⟨(sw.frames x).swap, by simp only [swapno, Function.update_self, hfound]⟩
        rw [← hv, takeSlot_head hlk] at htake
        exact hx (Or.inr (Except.ok.inj htake))
    · by_contra hc
      exact hno (hring.2 hc)
  · rintro ⟨hlist, hents⟩
    have hhead : (s.ptable p).swapList.getD f = f := by
      rcases hlist with hlist | hlist
      · rw [hlist]; rfl
      · rw [hlist, hf]; rfl
    have hcheck := fun v => swapCheck_single hlk hslot v
    have htake : Prod.fst <$> takeSlot (stackPage (s.fs.file im.ip)) (some f) sw = .ok (some f) := by
      have := takeSlot_head (x := f) hlk
      rwa [hslot] at this
    refine ⟨fun v => ?_, ?_, ?_, ?_⟩
    · simp only [swapno, Function.update_self, hstack, hhead, hcheck]
      by_cases hv : v = stackPage (s.fs.file im.ip)
      · simp [hv, Functor.map, Except.map]
      · simp [hv, Functor.map, Except.map]
    · simp only [Function.update_self, hstack, hhead]
      rw [htake, hf]
    · simp only [swapView, Function.update_self, hstack, hhead, hcheck, htake]
      have hpg := diskPage_writeswap_self im.stackBuffer (SwapKind.stack.start + f * 8) s.disk
      simp only [if_true]
      exact congrArg (fun pg => Except.ok (some (SwapKind.stack, pg))) hpg
    · simp only [Function.update_self]
      rw [hring]
      exact not_not.2 hents

theorem exec_fresh_iff_small : ∃ s₀, exec 0 [] [] (execKernel 0) = .ok (0, s₀) ∧ FreshImage 0 (execKernel 0) s₀ := by
  obtain ⟨s₀, hexec⟩ := execKernel_exec (v := 0) (by decide)
  exact ⟨s₀, hexec, (exec_fresh_iff hexec rfl lruInit_queue).2 ⟨Or.inl rfl, Or.inl rfl⟩⟩

/-- The small machine once page 0 of the old image has gone to swap. -/
def execSwapped : Kernel := (execKernel 0).swappedOut .heap 0 0 [] 0 smallDir ⟨⟨false, true, true⟩, 0⟩

theorem execSwapped_out : swapOutFunc .heap 0 0 (execKernel 0) = .ok (1, execSwapped) := by
  rw [swapOutFunc_eq]
  exact swapOutWith_eq (E := []) (show SwapList _ none [] from rfl) rfl freeSlot?_init rfl rfl lruInit_queue (by decide) (by simp)

theorem smallDir_setPte : smallDir.setPte 0 ⟨⟨false, true, true⟩, 0⟩ = smallDir := by
  have h0 : smallDir.tables (pdx 0) = some ⟨999, fun _ => ⟨⟨false, true, true⟩, 0⟩⟩ := rfl
  have hsame := Function.update_eq_self (ptx 0) fun _ : Fin 1024 => (⟨⟨false, true, true⟩, 0⟩ : Pte)
  rw [PageDir.setPte, h0]
  dsimp only at hsame ⊢
  rw [hsame, ← h0, Function.update_eq_self]

theorem execSwapped_ready : Ready execSwapped 0 where
  kstack := by rw [execSwapped, swappedOut_self]; exact (execKernel_ready 0).kstack
  list := ⟨[0], rfl, rfl⟩
  unlocked := rfl
  slot := by
    rw [Ne, freeSlot?_none]
    exact fun h => absurd (h 1) (by decide)
  queue := ⟨[], lruInit_queue, by simp⟩
  old := by
    refine ⟨smallDir, ?_, fun m hm => ?_⟩
    · rw [execSwapped, swappedOut_self]
      exact congrArg some smallDir_setPte
    · obtain ⟨m', hm', -⟩ := freevm_small hm
      exact ⟨m', hm'⟩

/-- The old page is still on the list: a fault of the new program on page 0 is served from it. -/
theorem exec_fresh_fails : swapOutFunc .heap 0 0 (execKernel 0) = .ok (1, execSwapped) ∧
    ∃ s₀, exec 0 [] [] execSwapped = .ok (0, s₀) ∧ swapno 0 0 s₀ = .ok (some .heap) ∧ 0 ≠ (s₀.ptable 0).sz - pgSize := by
  refine ⟨execSwapped_out, ?_⟩
  obtain ⟨s₀, hexec⟩ := smallElf_exec (v := 0) execSwapped_ready (by simp [execSwapped, Kernel.swappedOut, execKernel]) rfl rfl
    (by decide)
  refine ⟨s₀, hexec, ?_⟩
  obtain ⟨im, pte, f, list, sw, l, m, old, -, him, -, hlink, -, -, -, rfl⟩ := exec_eq hexec
  obtain ⟨hf, rfl, hlk, -, hother⟩ := linkSlot_slot hlink
  have hne : (0 : SlotIdx) ≠ f := by
    rintro rfl
    exact absurd (freeSlot?_some hf) (by decide)
  obtain ⟨hv, hk, -⟩ := hother 0 hne
  have hlist : (execSwapped.ptable 0).swapList = some 0 := rfl
  have hfound : Prod.fst <$> swapCheck (sw.frames 0).vaddr (some 0) sw = .ok (some (sw.frames 0).swap) := swapCheck_head hlk
  rw [hv, hk] at hfound
  simp only [swapno, Function.update_self, hlist, Option.getD_some]
  refine ⟨hfound, ?_⟩
  have hsize := him.size
  simp only [pgSize] at *
  omega

end Exec

end DemandPaging
