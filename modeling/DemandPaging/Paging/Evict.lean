/-
What an allocation can do to the rest of the system. `get_lru` swaps out the page of the oldest
entry when the ring is full and touches nothing but the ring when it is not; so a property that one
such swap-out keeps is kept by every allocation, and by `copyuvm`, which makes many.
-/
import DemandPaging.Lru.Queue
import DemandPaging.Memory.Tables
import DemandPaging.Swap.Steps

namespace DemandPaging

/-! ## The ring, in any condition -/

section Ring

variable {l l' : Lru} {pid : Int} {vaddr : Nat} {r : Int}

/-- `lru_insert` fails exactly when no entry is free, and otherwise takes the first one. -/
theorem lruInsert_ok (h : lruInsert pid vaddr l = .ok (r, l')) :
    (getFreeFrameLru l = none ∧ r = -1 ∧ l'.bitmap = l.bitmap) ∨
      ∃ i, getFreeFrameLru l = some i ∧ r = 0 ∧ l'.bitmap = Function.update l.bitmap i 1 := by
  have hf : ∀ k, getFreeFrameLru { l with lk := k } = getFreeFrameLru l :=
    fun _ => getFreeFrameLru_congr rfl
  unfold lruInsert at h
  split at h
  · obtain ⟨l₁, hacq, h⟩ := bind_eq_ok.1 h
    rw [(Lru.acquire_ok hacq).1, hf] at h
    split at h
    · next hfree =>
      obtain ⟨l₂, hrel, h⟩ := bind_eq_ok.1 h
      cases h; rw [Lru.release_ok hrel]
      exact Or.inl ⟨hfree, rfl, rfl⟩
    · next i hfree =>
      obtain ⟨l₂, hrel, h⟩ := bind_eq_ok.1 h
      cases h; rw [Lru.release_ok hrel]
      exact Or.inr ⟨i, hfree, rfl, rfl⟩
  · obtain ⟨l₁, hacq, h⟩ := bind_eq_ok.1 h
    rw [(Lru.acquire_ok hacq).1, hf] at h
    split at h
    · next hfree =>
      obtain ⟨l₂, hrel, h⟩ := bind_eq_ok.1 h
      cases h; rw [Lru.release_ok hrel]
      exact Or.inl ⟨hfree, rfl, rfl⟩
    · next i hfree =>
      obtain ⟨last, -, h⟩ := bind_eq_ok.1 h
      obtain ⟨l₂, hrel, h⟩ := bind_eq_ok.1 h
      cases h; rw [Lru.release_ok hrel]
      exact Or.inr ⟨i, hfree, rfl, rfl⟩

end Ring

/-! ## Evictions -/

section Rule

/-- A property that no eviction disturbs. -/
structure EvictStable (P : Kernel → Prop) : Prop where
  lru : ∀ s lru, P s → P { s with lru := lru }
  buffer : ∀ s q pg, P s → (s.ptable q).pgdir ≠ none → P (s.setProc q { s.ptable q with writeBuffer := pg })
  out : ∀ s s' q vaddr r, P s → (s.ptable q).pgdir ≠ none → swapOutFunc .generic q vaddr s = .ok (r, s') → P s'

variable {P : Kernel → Prop} {s s' : Kernel} {pid : Int}

theorem readVaddr_ok {q : ProcIdx} {vaddr : Nat} {r : Int} (h : readVaddr q vaddr s = .ok (r, s')) :
    (s.ptable q).pgdir ≠ none ∧ (s' = s ∨ ∃ pg, s' = s.setProc q { s.ptable q with writeBuffer := pg }) := by
  unfold readVaddr at h
  obtain ⟨pd, hpd, h⟩ := bind_eq_ok.1 h
  refine ⟨?_, ?_⟩
  · intro hn
    rw [hn] at hpd; cases hpd
  · split at h
    · cases h; exact Or.inl rfl
    · split at h
      · cases h; exact Or.inl rfl
      · cases h; exact Or.inr ⟨_, rfl⟩

theorem EvictStable.evict (hP : EvictStable P) (hs : P s) (h : evict s = .ok s') : P s' := by
  unfold DemandPaging.evict at h
  obtain ⟨⟨index, lru⟩, -, h⟩ := bind_eq_ok.1 h
  cases index with
  | none => cases h
  | some index =>
    obtain ⟨pidLru, -, h⟩ := bind_eq_ok.1 h
    obtain ⟨vaddrLru, -, h⟩ := bind_eq_ok.1 h
    obtain ⟨lru₁, -, h⟩ := bind_eq_ok.1 h
    have hs₁ := hP.lru s lru₁ hs
    cases hg : getProc pidLru { s with lru := lru₁ } with
    | none =>
      -- the process is gone: `swap_free` does not find it either
      simp only [hg] at h
      obtain ⟨lru₂, -, h⟩ := bind_eq_ok.1 h
      have hg' : getProc pidLru { s with lru := lru₂ } = none := by
        rw [getProc_congr { s with lru := lru₁ } { s with lru := lru₂ } fun _ => rfl, hg]
      simp only [swapFree, hg'] at h
      cases h
      exact hP.lru s lru₂ hs
    | some pr =>
      simp only [hg] at h
      obtain ⟨⟨r, s₂⟩, hread, h⟩ := bind_eq_ok.1 h
      obtain ⟨hpg, hs₂⟩ := readVaddr_ok hread
      have hp₂ : P s₂ := by
        rcases hs₂ with rfl | ⟨pg, rfl⟩
        · exact hs₁
        · exact hP.buffer _ _ _ hs₁ hpg
      have hpg₂ : (s₂.ptable pr).pgdir ≠ none := by
        rcases hs₂ with rfl | ⟨pg, rfl⟩
        · exact hpg
        · simpa using hpg
      dsimp only at h
      split at h
      · cases h; exact hp₂
      · obtain ⟨⟨r', s₃⟩, hout, h⟩ := bind_eq_ok.1 h
        dsimp only at h
        split at h
        · cases h
        · cases h; exact hP.out _ _ _ _ _ hp₂ hpg₂ hout

theorem EvictStable.getLruLoop (hP : EvictStable P) {vaddr : Nat} : ∀ {fuel : Nat} {s s' : Kernel}, P s →
    getLruLoop pid vaddr fuel s = .ok s' → P s'
  | 0, _, _, _, h => by cases h
  | fuel + 1, s, s', hs, h => by
    rw [DemandPaging.getLruLoop] at h
    obtain ⟨⟨r, lru⟩, -, h⟩ := bind_eq_ok.1 h
    have hs₁ := hP.lru s lru hs
    dsimp only at h
    split at h
    · obtain ⟨s₂, hev, h⟩ := bind_eq_ok.1 h
      exact hP.getLruLoop (hP.evict hs₁ hev) h
    · cases h; exact hs₁

/-- A property that no allocation disturbs. -/
structure AllocStable (P : Kernel → Prop) : Prop extends EvictStable P where
  phys : ∀ s phys, P s → P { s with phys := phys }

theorem AllocStable.kalloc (hP : AllocStable P) {lru : Int} {f : Option Nat} (hs : P s)
    (h : kalloc pid lru s = .ok (f, s')) : P s' := by
  unfold DemandPaging.kalloc at h
  split at h
  · cases h; exact hs
  · next f m hk =>
    dsimp only at h
    split at h
    · obtain ⟨s₁, hget, h⟩ := bind_eq_ok.1 h
      cases h; exact hP.getLruLoop (hP.phys s m hs) hget
    · cases h; exact hP.phys s m hs

/-- `copyuvm` up to its failure exit. -/
theorem AllocStable.copyuvmLoop (hP : AllocStable P) {old new : ProcIdx} : ∀ {n i : Nat} {mem : Option Nat} {d d' : PageDir}
    {s s' : Kernel} {done : Bool}, P s → copyuvmLoop old new n i mem d s = .ok (done, d', s') → P s'
  | 0, _, _, _, _, _, _, _, hs, h => by cases h; exact hs
  | n + 1, i, mem, d, d', s, s', done, hs, h => by
    rw [DemandPaging.copyuvmLoop] at h
    obtain ⟨pd, -, h⟩ := bind_eq_ok.1 h
    split at h
    · cases h
    · split at h
      · dsimp only at h
        split at h
        · cases h; exact hP.phys _ _ hs
        · exact hP.copyuvmLoop (hP.phys _ _ hs) h
      · obtain ⟨⟨mem', s₁⟩, hk, h⟩ := bind_eq_ok.1 h
        have hs₁ := hP.kalloc hs hk
        dsimp only at h
        split at h
        · cases h; exact hs₁
        · obtain ⟨pd', -, h⟩ := bind_eq_ok.1 h
          split at h
          · cases h
          · split at h
            · obtain ⟨s₂, hfree, h⟩ := bind_eq_ok.1 h
              cases h
              obtain ⟨lru, phys, rfl⟩ := klruFreeSwap_ok hfree
              exact hP.lru { s₁ with phys := phys } lru (hP.phys _ _ hs₁)
            · exact hP.copyuvmLoop (hP.phys _ _ hs₁) h

end Rule

/-! ## Free entries -/

section Room

variable {s s' : Kernel} {pid lru : Int}

/-- While an entry is free nothing is evicted. -/
theorem getLru_room {vaddr : Nat} (hroom : 0 < freeEntries s.lru) (h : getLru pid vaddr s = .ok s') :
    ∃ l, s' = { s with lru := l } ∧ freeEntries l + 1 = freeEntries s.lru := by
  unfold getLru at h
  rw [getLruLoop] at h
  obtain ⟨⟨r, l⟩, hins, h⟩ := bind_eq_ok.1 h
  rcases lruInsert_ok hins with ⟨hn, -⟩ | ⟨i, hi, rfl, hb⟩
  · exact absurd hn (exists_free_of_freeEntries hroom)
  · cases h
    exact ⟨l, rfl, freeEntries_take (getFreeFrameLru_some hi) hb⟩

theorem kalloc_room {f : Option Nat} (hroom : 0 < freeEntries s.lru) (h : kalloc pid lru s = .ok (f, s')) :
    ∃ l m, s' = { s with lru := l, phys := m } ∧ freeEntries s.lru ≤ freeEntries l + 1 := by
  unfold kalloc at h
  split at h
  · cases h; exact ⟨s.lru, s.phys, rfl, by omega⟩
  · next f m hk =>
    dsimp only at h
    split at h
    · obtain ⟨s₁, hget, h⟩ := bind_eq_ok.1 h
      cases h
      obtain ⟨l, rfl, hl⟩ := getLru_room (s := { s with phys := m }) hroom hget
      exact ⟨l, m, rfl, le_of_eq hl.symm⟩
    · cases h; exact ⟨s.lru, m, rfl, by omega⟩

/-- With an entry for each page to copy, `copyuvm` evicts nothing. -/
theorem copyuvmLoop_room {old new : ProcIdx} : ∀ {n i : Nat} {mem : Option Nat} {d d' : PageDir} {s s' : Kernel} {done : Bool},
    n ≤ freeEntries s.lru → copyuvmLoop old new n i mem d s = .ok (done, d', s') →
    ∃ l m, s' = { s with lru := l, phys := m }
  | 0, _, _, _, _, s, _, _, _, h => by cases h; exact ⟨s.lru, s.phys, rfl⟩
  | n + 1, i, mem, d, d', s, s', done, hroom, h => by
    rw [copyuvmLoop] at h
    obtain ⟨pd, -, h⟩ := bind_eq_ok.1 h
    split at h
    · cases h
    · split at h
      · dsimp only at h
        split at h
        · cases h; exact ⟨s.lru, _, rfl⟩
        · obtain ⟨l, m, rfl⟩ := copyuvmLoop_room (by simp only; omega) h
          exact ⟨l, m, rfl⟩
      · obtain ⟨⟨mem', s₁⟩, hk, h⟩ := bind_eq_ok.1 h
        obtain ⟨l, m, rfl, hl⟩ := kalloc_room (by omega) hk
        dsimp only at h
        split at h
        · cases h; exact ⟨l, m, rfl⟩
        · obtain ⟨pd', -, h⟩ := bind_eq_ok.1 h
          split at h
          · cases h
          · split at h
            · obtain ⟨s₂, hfree, h⟩ := bind_eq_ok.1 h
              cases h
              obtain ⟨l', m', rfl⟩ := klruFreeSwap_ok hfree
              exact ⟨l', m', rfl⟩
            · obtain ⟨l', m', rfl⟩ := copyuvmLoop_room (by simp only; omega) h
              exact ⟨l', m', rfl⟩

end Room

/-! ## Free pages -/

section Free

variable {s s' : Kernel} {pid lru : Int}

theorem klruFreeSwap_free {p : ProcIdx} {v : Nat} (h : klruFreeSwap p v s = .ok s') :
    s.phys.freelist.length ≤ s'.phys.freelist.length := by
  unfold klruFreeSwap at h
  split at h
  · obtain ⟨lru, -, h⟩ := bind_eq_ok.1 h
    cases h; exact le_rfl
  · cases h; simp

/-- No eviction takes a page. -/
theorem evictStable_free (n : Nat) : EvictStable fun s => n ≤ s.phys.freelist.length where
  lru := fun _ _ h => h
  buffer := fun _ _ _ h _ => h
  out := by
    intro s s' q vaddr r h _ hout
    rw [swapOutFunc_eq] at hout
    unfold swapOutWith at hout
    obtain ⟨⟨slot, list, sw⟩, -, hout⟩ := bind_eq_ok.1 hout
    cases slot with
    | none => cases hout; exact h
    | some f =>
      obtain ⟨s₁, hdem, hout⟩ := bind_eq_ok.1 hout
      obtain ⟨s₂, hk, hout⟩ := bind_eq_ok.1 hout
      cases hout
      obtain ⟨pd, pte, -, -, rfl⟩ := demappagesSwapOut_ok hdem
      have := klruFreeSwap_free hk
      exact h.trans this

theorem kalloc_free {f : Option Nat} (h : kalloc pid lru s = .ok (f, s')) :
    s.phys.freelist.length ≤ s'.phys.freelist.length + 1 ∧ (f = none → s.phys.freelist = []) := by
  unfold kalloc kallocPage at h
  cases hfl : s.phys.freelist with
  | nil => simp
  | cons g fl =>
    simp only [hfl] at h
    split at h
    · obtain ⟨s₁, hget, h⟩ := bind_eq_ok.1 h
      cases h
      have := (evictStable_free fl.length).getLruLoop (s := { s with phys := { s.phys with freelist := fl } }) le_rfl hget
      simpa using this
    · cases h; simp

/-- With two free pages for each page to copy, `copyuvm` does not run out of them. -/
theorem copyuvmLoop_done {old new : ProcIdx} : ∀ {n i : Nat} {mem : Option Nat} {d d' : PageDir} {s s' : Kernel} {done : Bool},
    i % pgSize = 0 → i + n * pgSize ≤ wordSize → 2 * n ≤ s.phys.freelist.length →
    copyuvmLoop old new n i mem d s = .ok (done, d', s') → done = true
  | 0, _, _, _, _, _, _, _, _, _, _, h => by cases h; rfl
  | n + 1, i, mem, d, d', s, s', done, hi, hw, hfree, h => by
    have hi' : (i + pgSize) % pgSize = 0 := by simp only [pgSize] at *; omega
    have hw' : i + pgSize + n * pgSize ≤ wordSize := by simp only [pgSize] at *; omega
    have hlt : i < wordSize := by simp only [pgSize, wordSize] at *; omega
    rw [DemandPaging.copyuvmLoop] at h
    obtain ⟨pd, -, h⟩ := bind_eq_ok.1 h
    split at h
    · cases h
    · split at h
      · rcases mappages_page_cases (mem.elim kernBase (· * pgSize)) ⟨false, true, true⟩ false d s.phys hi hlt with
          ⟨hnil, -⟩ | ⟨d₁, m₁, hmap, hmapped⟩
        · simp [hnil] at hfree
        · rw [hmap] at h
          have := hmapped.length
          exact copyuvmLoop_done hi' hw' (by simp only; omega) h
      · obtain ⟨⟨mem', s₁⟩, hk, h⟩ := bind_eq_ok.1 h
        obtain ⟨hlen, hnone⟩ := kalloc_free hk
        dsimp only at h
        split at h
        · exact absurd (hnone rfl) (by rintro hnil; simp [hnil] at hfree)
        · next f =>
          obtain ⟨pd', -, h⟩ := bind_eq_ok.1 h
          split at h
          · cases h
          · next pte _ =>
            rcases mappages_page_cases (f * pgSize) pte.toFlags true d (s₁.phys.setPage f (s₁.phys.mem pte.frame)) hi hlt
              with ⟨hnil, -⟩ | ⟨d₁, m₁, hmap, hmapped⟩
            · have hnil : s₁.phys.freelist = [] := hnil
              simp [hnil] at hlen
              omega
            · rw [hmap] at h
              have hlen' : s₁.phys.freelist.length ≤ m₁.freelist.length + 1 := hmapped.length
              exact copyuvmLoop_done hi' hw' (by simp only; omega) h

end Free

end DemandPaging
