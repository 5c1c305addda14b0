/-
Page tables as maps, and what building them costs. `walkpgdir` and `mappages` leave the entries of
other pages alone and take pages only off the free list; a page table present and a page on the
free list are exchanged one for one, so that `setupkvm` succeeds exactly when there are pages for
the directory and the 64 tables of the kernel half.
-/
import DemandPaging.Kernel.Memory

namespace DemandPaging

/-! ## Addresses and entries -/

section Entries

variable {pd : PageDir} {a b va : Nat} {pte : Pte}

/-- Two addresses have the same entry exactly when they are on the same page. -/
theorem index_eq_iff (ha : a < wordSize) (hb : b < wordSize) :
    pdx a = pdx b ∧ ptx a = ptx b ↔ a / pgSize = b / pgSize := by
  simp only [pdx, ptx, Fin.mk.injEq, wordSize, pgSize] at *
  omega

theorem pgRoundUp_aligned (ha : a % pgSize = 0) (hk : a ≤ kernBase) : pgRoundUp a = a := by
  simp only [pgRoundUp, pgSize, wordSize, kernBase] at *
  omega

theorem subWord_le {a b : Nat} (h : b ≤ a) (ha : a < wordSize) : subWord a b = a - b := by
  simp only [subWord, wordSize] at *
  omega

theorem pgRoundDown_le (a : Nat) : pgRoundDown a ≤ a := by simp only [pgRoundDown, pgSize]; omega

theorem pgRoundDown_page (a : Nat) : pgRoundDown a / pgSize = a / pgSize := by simp only [pgRoundDown, pgSize]; omega

theorem pgRoundDown_mod (a : Nat) : pgRoundDown a % pgSize = 0 := by simp only [pgRoundDown, pgSize]; omega

theorem pte?_page (h : a / pgSize = b / pgSize) : pd.pte? a = pd.pte? b := by
  have hd : pdx a = pdx b := by
    simp only [pdx, Fin.mk.injEq, pgSize] at *
    omega
  have ht : ptx a = ptx b := by
    simp only [ptx, Fin.mk.injEq, pgSize] at *
    omega
  rw [PageDir.pte?, PageDir.pte?, hd, ht]

theorem pte?_setPte_same (h : pd.tables (pdx a) ≠ none) : (pd.setPte a pte).pte? a = some pte := by
  unfold PageDir.setPte PageDir.pte?
  cases ht : pd.tables (pdx a) with
  | none => exact absurd ht h
  | some t => simp

theorem pte?_setPte_other (h : ¬(pdx b = pdx a ∧ ptx b = ptx a)) : (pd.setPte a pte).pte? b = pd.pte? b := by
  unfold PageDir.setPte PageDir.pte?
  cases ht : pd.tables (pdx a) with
  | none => rfl
  | some t =>
    by_cases hd : pdx b = pdx a
    · have hp : ptx b ≠ ptx a := fun hp => h ⟨hd, hp⟩
      simp [hd, ht, hp]
    · simp [hd]

theorem pte?_eq_none : pd.pte? va = none ↔ pd.tables (pdx va) = none := by
  simp [PageDir.pte?]

@[simp] theorem setPte_frame : (pd.setPte a pte).frame = pd.frame := by
  unfold PageDir.setPte; split <;> rfl

/-- The indices that have a page table. -/
def PageDir.present (pd : PageDir) : Finset (Fin 1024) := Finset.univ.filter fun i => (pd.tables i).isSome

theorem mem_present {i : Fin 1024} : i ∈ pd.present ↔ pd.tables i ≠ none := by
  simp [PageDir.present, Option.isSome_iff_ne_none]

@[simp] theorem setPte_present : (pd.setPte a pte).present = pd.present := by
  ext i
  rw [mem_present, mem_present]
  unfold PageDir.setPte
  split
  · rfl
  · next t ht =>
    by_cases hi : i = pdx a
    · subst hi; simp [ht]
    · simp [hi]

end Entries

/-! ## Building tables -/

/-- Pages go off the front of the free list and only their bytes change. -/
structure Phys.Takes (m m' : Phys) : Prop where
  layout : m'.layout = m.layout
  taken : ∃ T, m.freelist = T ++ m'.freelist ∧ ∀ f, f ∉ T → m'.mem f = m.mem f

namespace Phys.Takes

variable {m m' m'' : Phys} {f : Nat}

theorem refl (m : Phys) : m.Takes m := ⟨rfl, [], rfl, fun _ _ => rfl⟩

theorem trans (h : m.Takes m') (h' : m'.Takes m'') : m.Takes m'' := by
  obtain ⟨T, hT, hmem⟩ := h.taken
  obtain ⟨T', hT', hmem'⟩ := h'.taken
  refine ⟨h'.layout.trans h.layout, T ++ T', by rw [hT, hT', List.append_assoc], fun f hf => ?_⟩
  rw [List.mem_append, not_or] at hf
  rw [hmem' f hf.2, hmem f hf.1]

/-- One page is taken and written. -/
theorem pop {fl : List Nat} (h : m.freelist = f :: fl) (pg : Page) :
    m.Takes { m with freelist := fl, mem := Function.update m.mem f pg } := by
  refine ⟨rfl, [f], by simp [h], fun g hg => ?_⟩
  rw [List.mem_singleton] at hg
  simp [hg]

end Phys.Takes

section Walk

variable {pd pd' : PageDir} {m m' : Phys} {va : Nat}

theorem walkpgdir_present (h : pd.tables (pdx va) ≠ none) : walkpgdir pd va m = (some pd, m) := by
  unfold walkpgdir
  split
  · rfl
  · next hn => exact absurd hn h

/-- What `walkpgdir` does: nothing when there is a table, else a page becomes an empty one, and
without a page it fails. -/
theorem walkpgdir_cases (pd : PageDir) (va : Nat) (m : Phys) :
    (pdx va ∈ pd.present ∧ walkpgdir pd va m = (some pd, m)) ∨
    (pdx va ∉ pd.present ∧ m.freelist = [] ∧ walkpgdir pd va m = (none, m)) ∨
    ∃ f fl, pdx va ∉ pd.present ∧ m.freelist = f :: fl ∧ walkpgdir pd va m =
      (some { pd with tables := Function.update pd.tables (pdx va) (some ⟨f, fun _ => Pte.zero⟩) },
        { m with freelist := fl, mem := Function.update m.mem f zeroPage }) := by
  by_cases hp : pdx va ∈ pd.present
  · exact Or.inl ⟨hp, walkpgdir_present (mem_present.1 hp)⟩
  · have ht : pd.tables (pdx va) = none := by simpa [mem_present] using hp
    refine Or.inr ?_
    unfold walkpgdir kallocPage
    rw [ht]
    cases hfl : m.freelist with
    | nil => exact Or.inl ⟨hp, rfl, rfl⟩
    | cons f fl => exact Or.inr ⟨f, fl, hp, rfl, rfl⟩

theorem insert_present (pd : PageDir) (i : Fin 1024) (t : PageTable) :
    PageDir.present { pd with tables := Function.update pd.tables i (some t) } = insert i pd.present := by
  ext j
  rw [mem_present, Finset.mem_insert, mem_present]
  by_cases hj : j = i
  · subst hj; simp
  · simp [hj]

end Walk

/-- The page tables and the free list after `mappages` over pages with indices `I`. -/
structure Maps (I : Set (Fin 1024)) (pd : PageDir) (m : Phys) (r : Int) (pd' : PageDir) (m' : Phys) : Prop where
  takes : m.Takes m'
  frame : pd'.frame = pd.frame
  balance : pd'.present.card + m'.freelist.length = pd.present.card + m.freelist.length
  grows : pd.present ⊆ pd'.present
  within : ∀ i ∈ pd'.present, i ∈ pd.present ∨ i ∈ I
  result : r = 0 ∧ (∀ i ∈ I, i ∈ pd'.present) ∨ r = -1 ∧ m'.freelist = [] ∧ ∃ i ∈ I, i ∉ pd'.present

theorem Maps.mono {I J : Set (Fin 1024)} {pd pd' : PageDir} {m m' : Phys} {r : Int} (h : Maps I pd m r pd' m')
    (hIJ : I = J) : Maps J pd m r pd' m' := hIJ ▸ h

theorem Maps.seq {I J : Set (Fin 1024)} {pd pd' pd'' : PageDir} {m m' m'' : Phys} {r : Int} (h : Maps I pd m 0 pd' m')
    (h' : Maps J pd' m' r pd'' m'') : Maps (I ∪ J) pd m r pd'' m'' := by
  have hI : ∀ i ∈ I, i ∈ pd'.present := by
    rcases h.result with ⟨-, hI⟩ | ⟨hr, -⟩
    · exact hI
    · cases hr
  refine ⟨h.takes.trans h'.takes, h'.frame.trans h.frame, h'.balance.trans h.balance, h.grows.trans h'.grows, ?_, ?_⟩
  · intro i hi
    rcases h'.within i hi with hi | hi
    · rcases h.within i hi with hi | hi
      · exact Or.inl hi
      · exact Or.inr (Or.inl hi)
    · exact Or.inr (Or.inr hi)
  · rcases h'.result with ⟨hr, hJ⟩ | ⟨hr, hfl, i, hi, hn⟩
    · refine Or.inl ⟨hr, ?_⟩
      rintro i (hi | hi)
      · exact h'.grows (hI i hi)
      · exact hJ i hi
    · exact Or.inr ⟨hr, hfl, i, Or.inr hi, hn⟩

theorem Maps.of_failed {I J : Set (Fin 1024)} {pd pd' : PageDir} {m m' : Phys} (h : Maps I pd m (-1) pd' m')
    (hIJ : I ⊆ J) : Maps J pd m (-1) pd' m' := by
  refine ⟨h.takes, h.frame, h.balance, h.grows, fun i hi => (h.within i hi).imp id fun hi => hIJ hi, ?_⟩
  rcases h.result with ⟨hr, -⟩ | ⟨hr, hfl, i, hi, hn⟩
  · cases hr
  · exact Or.inr ⟨hr, hfl, i, hIJ hi, hn⟩

/-- One round of `mappages`. -/
theorem walkpgdir_maps (pd : PageDir) (a : Nat) (m : Phys) (pte : Pte) :
    (∃ pd' m', walkpgdir pd a m = (some pd', m') ∧ Maps {pdx a} pd m 0 (pd'.setPte a pte) m') ∨
      walkpgdir pd a m = (none, m) ∧ Maps {pdx a} pd m (-1) pd m := by
  rcases walkpgdir_cases pd a m with ⟨hp, hwalk⟩ | ⟨hp, hfl, hwalk⟩ | ⟨f, fl, hp, hfl, hwalk⟩
  · refine Or.inl ⟨pd, m, hwalk, Phys.Takes.refl m, by simp, by simp, by simp, ?_, Or.inl ⟨rfl, by simpa using hp⟩⟩
    intro i hi
    exact Or.inl (by simpa using hi)
  · exact Or.inr ⟨hwalk, Phys.Takes.refl m, rfl, rfl, subset_rfl, fun i hi => Or.inl hi, Or.inr ⟨rfl, hfl, pdx a, rfl, hp⟩⟩
  · refine Or.inl ⟨_, _, hwalk, ?_⟩
    refine ⟨Phys.Takes.pop hfl zeroPage, by simp, ?_, ?_, ?_, Or.inl ⟨rfl, ?_⟩⟩
    · rw [setPte_present, insert_present, Finset.card_insert_of_notMem hp, hfl, List.length_cons]
      dsimp only
      omega
    · rw [setPte_present, insert_present]
      exact Finset.subset_insert _ _
    · intro i hi
      rw [setPte_present, insert_present, Finset.mem_insert] at hi
      exact hi.symm
    · rintro i rfl
      rw [setPte_present, insert_present]
      exact Finset.mem_insert_self _ _

theorem mappagesLoop_maps (flags : Flags) : ∀ (n a pa : Nat) (pd : PageDir) (m : Phys), a + n * pgSize < wordSize →
    Maps { i | ∃ k ≤ n, i = pdx (a + k * pgSize) } pd m (mappagesLoop flags n a pa pd m).1
      (mappagesLoop flags n a pa pd m).2.1 (mappagesLoop flags n a pa pd m).2.2
  | 0, a, pa, pd, m, hw => by
    have hI : ({pdx a} : Set (Fin 1024)) = { i | ∃ k ≤ 0, i = pdx (a + k * pgSize) } := by ext i; simp
    rw [mappagesLoop]
    rcases walkpgdir_maps pd a m { flags with frame := pa / pgSize } with ⟨pd', m', hwalk, h⟩ | ⟨hwalk, h⟩
    · rw [hwalk]; exact h.mono hI
    · rw [hwalk]; exact h.mono hI
  | n + 1, a, pa, pd, m, hw => by
    rw [mappagesLoop]
    rcases walkpgdir_maps pd a m { flags with frame := pa / pgSize } with ⟨pd', m', hwalk, h⟩ | ⟨hwalk, h⟩
    · rw [hwalk]
      have ha : (a + pgSize) % wordSize = a + pgSize := Nat.mod_eq_of_lt (by simp only [pgSize] at *; omega)
      dsimp only
      rw [ha]
      refine (h.seq (mappagesLoop_maps flags n (a + pgSize) ((pa + pgSize) % wordSize) _ m' ?_)).mono ?_
      · simp only [pgSize] at *; omega
      · ext i
        simp only [Set.mem_union, Set.mem_singleton_iff, Set.mem_ofPred_eq]
        constructor
        · rintro (rfl | ⟨k, hk, rfl⟩)
          · exact ⟨0, by omega, by simp⟩
          · exact ⟨k + 1, by omega, by rw [show a + pgSize + k * pgSize = a + (k + 1) * pgSize by ring]⟩
        · rintro ⟨k, hk, rfl⟩
          cases k with
          | zero => exact Or.inl (by simp)
          | succ k => exact Or.inr ⟨k, by omega, by rw [show a + pgSize + k * pgSize = a + (k + 1) * pgSize by ring]⟩
    · rw [hwalk]
      refine ⟨h.takes, h.frame, h.balance, h.grows, fun i hi => Or.inl hi, ?_⟩
      rcases h.result with ⟨hr, -⟩ | ⟨-, hfl, i, rfl, hn⟩
      · cases hr
      · exact Or.inr ⟨rfl, hfl, pdx a, ⟨0, by omega, by simp⟩, hn⟩

/-- The page directory indices of the pages that `mappages` goes over. -/
def indices (va size : Nat) : Set (Fin 1024) := { i | ∃ k ≤ (size - 1) / pgSize, i = pdx (va + k * pgSize) }

theorem mappages_rounds {va size : Nat} (ha : va % pgSize = 0) (hs : 0 < size) (hw : va + size ≤ wordSize) :
    pgRoundDown va = va ∧ subWord (pgRoundDown ((va + size - 1) % wordSize)) va / pgSize = (size - 1) / pgSize := by
  simp only [pgRoundDown, subWord, wordSize, pgSize] at *
  omega

theorem mappages_maps {va size : Nat} (pa : Nat) (perm : Flags) (set : Bool) (pd : PageDir) (m : Phys) (ha : va % pgSize = 0)
    (hs : 0 < size) (hw : va + size ≤ wordSize) :
    Maps (indices va size) pd m (mappages pd va size pa perm set m).1 (mappages pd va size pa perm set m).2.1
      (mappages pd va size pa perm set m).2.2 := by
  obtain ⟨h1, h2⟩ := mappages_rounds ha hs hw
  unfold mappages
  dsimp only
  rw [h1, h2]
  refine mappagesLoop_maps _ _ va pa pd m ?_
  simp only [wordSize, pgSize] at *
  omega

/-- `mappages` of one page is one round. -/
theorem mappages_page {a : Nat} (pa : Nat) (perm : Flags) (set : Bool) (pd : PageDir) (m : Phys) (ha : a % pgSize = 0)
    (hw : a < wordSize) : mappages pd a pgSize pa perm set m =
      match walkpgdir pd a m with
      | (none, m) => (-1, pd, m)
      | (some pd, m) =>
        (0, pd.setPte a { present := perm.present || set, write := perm.write, user := perm.user, frame := pa / pgSize }, m) := by
  obtain ⟨h1, h2⟩ := mappages_rounds ha (show 0 < pgSize by decide) (by simp only [wordSize, pgSize] at *; omega)
  unfold mappages
  dsimp only
  rw [h1, h2, show (pgSize - 1) / pgSize = 0 by decide]
  unfold mappagesLoop
  rcases walkpgdir pd a m with ⟨_ | _, _⟩ <;> rfl

/-- The entry for an address, zero when there is no table for it. -/
def PageDir.pte (pd : PageDir) (va : Nat) : Pte := (pd.pte? va).getD Pte.zero

/-- The page of `a` has been given the entry `pte`, and that is all. -/
structure Mapped (a : Nat) (pte : Pte) (pd : PageDir) (m : Phys) (pd' : PageDir) (m' : Phys) : Prop where
  takes : m.Takes m'
  length : m.freelist.length ≤ m'.freelist.length + 1
  balance : pd'.present.card + m'.freelist.length = pd.present.card + m.freelist.length
  frame : pd'.frame = pd.frame
  grows : pd.present ⊆ pd'.present
  entry : pd'.pte? a = some pte
  other : ∀ b, ¬(pdx b = pdx a ∧ ptx b = ptx a) → pd'.pte b = pd.pte b

theorem setPte_mapped (pd : PageDir) {a : Nat} (pte : Pte) (m : Phys) (h : pdx a ∈ pd.present) :
    Mapped a pte pd m (pd.setPte a pte) m := by
  refine ⟨Phys.Takes.refl m, by omega, by simp, by simp, by simp, pte?_setPte_same (mem_present.1 h), fun b hb => ?_⟩
  rw [PageDir.pte, PageDir.pte, pte?_setPte_other hb]

/-- `mappages` of one page fails without a page for the table that is missing, and otherwise sets
the entry. -/
theorem mappages_page_cases {a : Nat} (pa : Nat) (perm : Flags) (set : Bool) (pd : PageDir) (m : Phys) (ha : a % pgSize = 0)
    (hw : a < wordSize) :
    (m.freelist = [] ∧ pdx a ∉ pd.present ∧ mappages pd a pgSize pa perm set m = (-1, pd, m)) ∨
      ∃ pd' m', mappages pd a pgSize pa perm set m = (0, pd', m') ∧
        Mapped a { present := perm.present || set, write := perm.write, user := perm.user, frame := pa / pgSize }
          pd m pd' m' := by
  rw [mappages_page pa perm set pd m ha hw]
  rcases walkpgdir_cases pd a m with ⟨hp, hwalk⟩ | ⟨hp, hfl, hwalk⟩ | ⟨f, fl, hp, hfl, hwalk⟩
  · rw [hwalk]
    exact Or.inr ⟨_, m, rfl, setPte_mapped pd _ m hp⟩
  · rw [hwalk]
    exact Or.inl ⟨hfl, hp, rfl⟩
  · rw [hwalk]
    refine Or.inr ⟨_, _, rfl, ?_⟩
    have hins := insert_present pd (pdx a) ⟨f, fun _ => Pte.zero⟩
    have hset := setPte_mapped { pd with tables := Function.update pd.tables (pdx a) (some ⟨f, fun _ => Pte.zero⟩) }
      { present := perm.present || set, write := perm.write, user := perm.user, frame := pa / pgSize }
      { m with freelist := fl, mem := Function.update m.mem f zeroPage } (by rw [hins]; exact Finset.mem_insert_self _ _)
    refine ⟨Phys.Takes.pop hfl zeroPage, by simp [hfl], ?_, hset.frame, fun i hi => hset.grows ?_, hset.entry, fun b hb => ?_⟩
    · rw [setPte_present, hins, Finset.card_insert_of_notMem hp, hfl, List.length_cons]
      dsimp only
      omega
    · rw [hins]; exact Finset.mem_insert_of_mem hi
    · -- the new table holds zeros, as the missing one did
      rw [hset.other b hb]
      by_cases hd : pdx b = pdx a
      · have ht : pd.tables (pdx a) = none := by simpa [mem_present] using hp
        simp [PageDir.pte, PageDir.pte?, hd, ht]
      · simp [PageDir.pte, PageDir.pte?, hd]

/-- There is a table for a page that has been mapped. -/
theorem mappages_present {a pa : Nat} {perm : Flags} {set : Bool} {pd pd' : PageDir} {m m' : Phys} (ha : a % pgSize = 0)
    (hw : a < wordSize) (h : mappages pd a pgSize pa perm set m = (0, pd', m')) : pd'.present = insert (pdx a) pd.present := by
  rw [mappages_page pa perm set pd m ha hw] at h
  rcases walkpgdir_cases pd a m with ⟨hp, hwalk⟩ | ⟨-, -, hwalk⟩ | ⟨f, fl, -, -, hwalk⟩
  · rw [hwalk] at h
    cases h
    rw [setPte_present, Finset.insert_eq_of_mem hp]
  · rw [hwalk] at h
    cases h
  · rw [hwalk] at h
    cases h
    rw [setPte_present, insert_present]

/-- Where there is a table only the entry changes. -/
theorem mappages_table {a : Nat} (pa : Nat) (perm : Flags) (set : Bool) (pd : PageDir) (m : Phys) (ha : a % pgSize = 0)
    (hw : a < wordSize) (htab : pdx a ∈ pd.present) : mappages pd a pgSize pa perm set m =
      (0, pd.setPte a { present := perm.present || set, write := perm.write, user := perm.user, frame := pa / pgSize }, m) := by
  rw [mappages_page pa perm set pd m ha hw]
  rcases walkpgdir_cases pd a m with ⟨-, hwalk⟩ | ⟨hno, -⟩ | ⟨_, _, hno, -⟩
  · rw [hwalk]
  · exact absurd htab hno
  · exact absurd htab hno

/-! ## The kernel half -/

/-- The page directory indices of the kernel's mappings. -/
def kernelIdx : Finset (Fin 1024) := Finset.univ.filter fun i => 512 ≤ i.val ∧ i.val < 568 ∨ 1016 ≤ i.val

theorem kernelIdx_card : kernelIdx.card = 64 := by decide +kernel

/-- An entry of `kmap` that `mappages` goes through from the bottom to the top. -/
structure KMap.Ok (k : KMap) : Prop where
  aligned : k.virt % pgSize = 0
  pos : 0 < subWord k.physEnd k.physStart
  fits : k.virt + subWord k.physEnd k.physStart ≤ wordSize

def KMap.indices (k : KMap) : Set (Fin 1024) := DemandPaging.indices k.virt (subWord k.physEnd k.physStart)

theorem setupkvmLoop_maps : ∀ (ks : List KMap) (pd : PageDir) (m : Phys), (∀ k ∈ ks, k.Ok) →
    Maps { i | ∃ k ∈ ks, i ∈ k.indices } pd m (setupkvmLoop ks pd m).1 (setupkvmLoop ks pd m).2.1 (setupkvmLoop ks pd m).2.2
  | [], pd, m, _ => by
    refine ⟨Phys.Takes.refl m, rfl, rfl, subset_rfl, fun i hi => Or.inl hi, Or.inl ⟨rfl, ?_⟩⟩
    rintro i ⟨k, hk, -⟩; cases hk
  | k :: ks, pd, m, hok => by
    have hk := hok k (by simp)
    have h := mappages_maps k.physStart ⟨false, k.write, false⟩ true pd m hk.aligned hk.pos hk.fits
    rw [setupkvmLoop]
    generalize mappages pd k.virt (subWord k.physEnd k.physStart) k.physStart ⟨false, k.write, false⟩ true m = x at h
    obtain ⟨r, pd', m'⟩ := x
    dsimp only at h ⊢
    have hunion : { i | ∃ k' ∈ k :: ks, i ∈ k'.indices } = k.indices ∪ { i | ∃ k' ∈ ks, i ∈ KMap.indices k' } := by
      ext i
      simp only [List.mem_cons, Set.mem_union, Set.mem_ofPred_eq]
      constructor
      · rintro ⟨k', rfl | hk', hi⟩
        · exact Or.inl hi
        · exact Or.inr ⟨k', hk', hi⟩
      · rintro (hi | ⟨k', hk', hi⟩)
        · exact ⟨k, Or.inl rfl, hi⟩
        · exact ⟨k', Or.inr hk', hi⟩
    rw [hunion]
    rcases h.result with ⟨rfl, -⟩ | ⟨rfl, -⟩
    · rw [if_neg (by decide)]
      exact h.seq (setupkvmLoop_maps ks pd' m' fun k' hk' => hok k' (by simp [hk']))
    · rw [if_pos (by decide)]
      exact h.of_failed Set.subset_union_left

theorem kmap_ok (l : Layout) : ∀ k ∈ kmap l, k.Ok := by
  have h1 := l.data_aligned
  have h2 := l.link_lt
  have h3 := l.data_le
  have h4 := l.end_lt
  simp only [pgSize, kernLink, kernBase, extMem, physTop] at h1 h2 h3 h4
  intro k hk
  simp only [kmap, List.mem_cons, List.not_mem_nil, or_false] at hk
  rcases hk with rfl | rfl | rfl | rfl <;> constructor <;>
    simp only [subWord, wordSize, pgSize, kernLink, kernBase, extMem, physTop, devSpace] <;> omega

theorem kmap_indices (l : Layout) : { i | ∃ k ∈ kmap l, i ∈ KMap.indices k } = (kernelIdx : Set (Fin 1024)) := by
  have h1 := l.data_aligned
  have h2 := l.link_lt
  have h3 := l.data_le
  have h4 := l.end_lt
  simp only [pgSize, kernLink, kernBase, extMem, physTop] at h1 h2 h3 h4
  ext i
  have hi := i.isLt
  simp only [kmap, kernelIdx, KMap.indices, indices, List.mem_cons, List.not_mem_nil, or_false, Set.mem_ofPred_eq,
    exists_eq_or_imp, exists_eq_left, Finset.coe_filter, Finset.mem_univ, true_and, pdx, Fin.ext_iff, subWord, wordSize,
    pgSize, kernLink, kernBase, extMem, physTop, devSpace]
  constructor
  · rintro (⟨k, hk, he⟩ | ⟨k, hk, he⟩ | ⟨k, hk, he⟩ | ⟨k, hk, he⟩) <;> omega
  · -- the page at the start of the four megabytes is in one of the ranges
    rintro (⟨hlo, hhi⟩ | hlo)
    · by_cases h512 : i.val = 512
      · exact Or.inl ⟨0, by omega, by omega⟩
      by_cases hdata : i.val * 2 ^ 22 < l.data
      · exact Or.inr (Or.inl ⟨(i.val * 2 ^ 22 - 0x80100000) / 4096, by omega, by omega⟩)
      · exact Or.inr (Or.inr (Or.inl ⟨(i.val * 2 ^ 22 - l.data) / 4096, by omega, by omega⟩))
    · exact Or.inr (Or.inr (Or.inr ⟨(i.val * 2 ^ 22 - 0xFE000000) / 4096, by omega, by omega⟩))

/-- The directory that `setupkvm` starts from, and the pages left. -/
theorem setupkvmLoop_kmap (m : Phys) (f : Nat) (fl : List Nat) :
    Maps (kernelIdx : Set (Fin 1024)) ⟨f, fun _ => none⟩ ({ m with freelist := fl }.setPage f zeroPage)
      (setupkvmLoop (kmap m.layout) ⟨f, fun _ => none⟩ ({ m with freelist := fl }.setPage f zeroPage)).1
      (setupkvmLoop (kmap m.layout) ⟨f, fun _ => none⟩ ({ m with freelist := fl }.setPage f zeroPage)).2.1
      (setupkvmLoop (kmap m.layout) ⟨f, fun _ => none⟩ ({ m with freelist := fl }.setPage f zeroPage)).2.2 :=
  (setupkvmLoop_maps (kmap m.layout) _ _ (kmap_ok _)).mono (kmap_indices _)

theorem empty_present (f : Nat) : PageDir.present ⟨f, fun _ => none⟩ = ∅ := by
  simp [PageDir.present]

/-- A directory with the kernel's mappings and an empty user half, built from the free pages. -/
structure KernelDir (m : Phys) (pd : PageDir) (m' : Phys) : Prop where
  present : pd.present = kernelIdx
  length : m'.freelist.length + 65 = m.freelist.length
  takes : m.Takes m'
  frame : pd.frame ∈ m.freelist

/-- `setupkvm` succeeds exactly when there are 65 free pages. -/
theorem setupkvm_cases {m : Phys} : (m.freelist.length < 65 ∧ ∀ d m', setupkvm m = .ok (d, m') → d = none) ∨
    ∃ pd m', 65 ≤ m.freelist.length ∧ setupkvm m = .ok (some pd, m') ∧ KernelDir m pd m' := by
  unfold setupkvm kallocPage
  cases hfl : m.freelist with
  | nil =>
    refine Or.inl ⟨by simp, ?_⟩
    intro d m' h
    cases h; rfl
  | cons f fl =>
    have hmaps := setupkvmLoop_kmap m f fl
    have hlay : ({ m with freelist := fl }.setPage f zeroPage).layout = m.layout := rfl
    dsimp only
    rw [if_neg (by decide), hlay]
    generalize setupkvmLoop (kmap m.layout) ⟨f, fun _ => none⟩ ({ m with freelist := fl }.setPage f zeroPage) = x at hmaps
    obtain ⟨r, pd, m₁⟩ := x
    dsimp only at hmaps ⊢
    have hsub : pd.present ⊆ kernelIdx := by
      intro i hi
      rcases hmaps.within i hi with hi | hi
      · simp [empty_present] at hi
      · exact hi
    have hbal : pd.present.card + m₁.freelist.length = fl.length := by
      have := hmaps.balance
      rw [empty_present] at this
      simpa [Phys.setPage] using this
    rcases hmaps.result with ⟨rfl, hall⟩ | ⟨rfl, hnil, i, hi, hn⟩
    · have hpres : pd.present = kernelIdx := subset_antisymm hsub hall
      rw [hpres, kernelIdx_card] at hbal
      refine Or.inr ⟨pd, m₁, by simp; omega, by simp, hpres, by simp [hfl]; omega, ?_, by simp [hfl, hmaps.frame]⟩
      exact (Phys.Takes.pop hfl zeroPage).trans hmaps.takes
    · have hlt : pd.present.card < kernelIdx.card :=
        Finset.card_lt_card ⟨hsub, fun hc => hn (hc hi)⟩
      rw [kernelIdx_card] at hlt
      rw [hnil] at hbal
      refine Or.inl ⟨by simp at hbal ⊢; omega, ?_⟩
      intro d m' h
      rw [if_pos (by decide)] at h
      obtain ⟨m₂, -, h⟩ := bind_eq_ok.1 h
      cases h; rfl

end DemandPaging
