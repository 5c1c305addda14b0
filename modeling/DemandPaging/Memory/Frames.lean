/-
How often a page directory uses a physical page: as the directory itself, as one of its tables, and
through the present entries of the user half. Mapping a page, taking one away, building a directory
and freeing it exchange pages with the free list, one for one.
-/
import DemandPaging.Memory.Tables

namespace DemandPaging

/-! ## Uses of a page -/

def one (f g : Nat) : Nat := if f = g then 1 else 0

/-- A sum that is not to be written out. -/
@[irreducible] def tally {ι : Type*} [Fintype ι] (g : ι → Nat) : Nat := ∑ i, g i

/-- A present entry uses the page it points to. -/
def Pte.uses (pte : Pte) (f : Nat) : Nat := if pte.present then one pte.frame f else 0

/-- The page of a table and, in the user half, those of its present entries. -/
def PageDir.usesAt (pd : PageDir) (f : Nat) (i : Fin 1024) : Nat :=
  (pd.tables i).elim 0 fun t => one t.frame f + if i.val < 512 then tally fun j => (t.ptes j).uses f else 0

def PageDir.uses (pd : PageDir) (f : Nat) : Nat := one pd.frame f + tally (pd.usesAt f)

/-- How often the page is on the free list. -/
def Phys.free (m : Phys) (f : Nat) : Nat := m.freelist.count f

/-- The allocator accepts the page: it lies between the end of the kernel and `PHYSTOP`. -/
def Layout.Holds (l : Layout) (f : Nat) : Prop := l.kernEnd ≤ f * pgSize + kernBase ∧ f * pgSize < physTop

instance (l : Layout) (f : Nat) : Decidable (l.Holds f) := inferInstanceAs (Decidable (_ ∧ _))

section Tally

variable {ι : Type*} [Fintype ι] {g h : ι → Nat}

theorem tally_eq (g : ι → Nat) : tally g = ∑ i, g i := by unfold tally; rfl

theorem tally_zero (hg : ∀ i, g i = 0) : tally g = 0 := by rw [tally_eq]; exact Finset.sum_eq_zero fun i _ => hg i

theorem tally_congr (hgh : ∀ i, g i = h i) : tally g = tally h := congrArg tally (funext hgh)

theorem le_tally (i : ι) : g i ≤ tally g := by
  rw [tally_eq]
  exact Finset.single_le_sum (fun _ _ => Nat.zero_le _) (Finset.mem_univ i)

/-- Two sums that differ in one place. -/
theorem tally_exchange [DecidableEq ι] (a : ι) (hgh : ∀ i, i ≠ a → g i = h i) : tally g + h a = tally h + g a := by
  have hrest : ∑ i ∈ {a}ᶜ, g i = ∑ i ∈ {a}ᶜ, h i := Finset.sum_congr rfl fun i hi => hgh i (by simpa using hi)
  rw [tally_eq, tally_eq, Fintype.sum_eq_add_sum_compl a g, Fintype.sum_eq_add_sum_compl a h, hrest]
  omega

end Tally

section Entries

variable {pd pd' : PageDir} {m m' : Phys} {a b f : Nat} {pte old : Pte} {t : PageTable}

@[simp] theorem uses_zero : Pte.zero.uses f = 0 := rfl

theorem uses_of_not_present (h : pte.present = false) : pte.uses f = 0 := by rw [Pte.uses, h]; rfl

theorem uses_of_present (h : pte.present = true) : pte.uses f = one pte.frame f := by rw [Pte.uses, if_pos h]

theorem free_cons {g : Nat} {fl : List Nat} (h : m.freelist = g :: fl) : m.free f = fl.count f + one g f := by
  rw [Phys.free, h, List.count_cons, one]
  simp only [beq_iff_eq]

/-- A table takes the place of another. -/
theorem uses_update {i : Fin 1024} {u : Option PageTable} (pd : PageDir) (f : Nat) :
    PageDir.uses { pd with tables := Function.update pd.tables i u } f + pd.usesAt f i =
      pd.uses f + PageDir.usesAt { pd with tables := Function.update pd.tables i u } f i := by
  have h := tally_exchange (g := PageDir.usesAt { pd with tables := Function.update pd.tables i u } f) (h := pd.usesAt f) i
    fun j hj => by simp [PageDir.usesAt, hj]
  rw [PageDir.uses, PageDir.uses]
  dsimp only
  omega

theorem pdx_lt (ha : a < kernBase) : (pdx a).val < 512 := by
  simp only [pdx, kernBase] at *
  omega

theorem le_pdx (hk : kernBase ≤ a) (hw : a < wordSize) : 512 ≤ (pdx a).val := by
  simp only [pdx, kernBase, wordSize] at *
  omega

/-- An entry of the user half takes the place of another. -/
theorem uses_setPte (pte : Pte) (ha : a < kernBase) (hold : pd.pte? a = some old) (f : Nat) :
    (pd.setPte a pte).uses f + old.uses f = pd.uses f + pte.uses f := by
  obtain ⟨t, ht, rfl⟩ := Option.map_eq_some_iff.1 hold
  have hu := pdx_lt ha
  have hsum := tally_exchange (g := fun j => (Function.update t.ptes (ptx a) pte j).uses f) (h := fun j => (t.ptes j).uses f)
    (ptx a) fun j hj => by simp [hj]
  have hupd := uses_update pd f (i := pdx a) (u := some { t with ptes := Function.update t.ptes (ptx a) pte })
  simp only [PageDir.usesAt, ht, Option.elim_some, Function.update_self, if_pos hu] at hupd
  simp only [Function.update_self] at hsum
  unfold PageDir.setPte
  rw [ht]
  dsimp only
  omega

theorem uses_setPte_kernel (hk : kernBase ≤ a) (hw : a < wordSize) : (pd.setPte a pte).uses f = pd.uses f := by
  have hu : ¬(pdx a).val < 512 := not_lt.2 (le_pdx hk hw)
  unfold PageDir.setPte
  split
  · rfl
  · next t ht =>
    have hupd := uses_update pd f (i := pdx a) (u := some { t with ptes := Function.update t.ptes (ptx a) pte })
    simp only [PageDir.usesAt, ht, Option.elim_some, Function.update_self, if_neg hu] at hupd
    exact Nat.add_right_cancel hupd

/-! ## Mapping -/

theorem walkpgdir_uses (h : walkpgdir pd a m = (some pd', m')) (f : Nat) : pd'.uses f + m'.free f = pd.uses f + m.free f := by
  rcases walkpgdir_cases pd a m with ⟨-, hwalk⟩ | ⟨-, -, hwalk⟩ | ⟨g, fl, hp, hfl, hwalk⟩
  · cases hwalk.symm.trans h
    rfl
  · cases hwalk.symm.trans h
  · cases hwalk.symm.trans h
    have ht : pd.tables (pdx a) = none := by simpa [mem_present] using hp
    have hupd := uses_update pd f (i := pdx a) (u := some ⟨g, fun _ => Pte.zero⟩)
    simp only [PageDir.usesAt, ht, Option.elim_none, Option.elim_some, Function.update_self, add_zero, uses_zero,
      tally_zero fun _ : Fin 1024 => rfl, ite_self] at hupd
    rw [hupd, free_cons hfl, Phys.free]
    dsimp only
    omega

theorem walkpgdir_none (h : walkpgdir pd a m = (none, m')) : m' = m := by
  rcases walkpgdir_cases pd a m with ⟨-, hwalk⟩ | ⟨-, -, hwalk⟩ | ⟨g, fl, -, -, hwalk⟩
  all_goals cases hwalk.symm.trans h
  rfl

theorem walkpgdir_pte (h : walkpgdir pd a m = (some pd', m')) : pd'.pte? a = some (pd.pte a) := by
  rcases walkpgdir_cases pd a m with ⟨hp, hwalk⟩ | ⟨-, -, hwalk⟩ | ⟨g, fl, hp, hfl, hwalk⟩
  · cases hwalk.symm.trans h
    obtain ⟨old, hpte⟩ := Option.ne_none_iff_exists'.1 (mt pte?_eq_none.1 (mem_present.1 hp))
    rw [PageDir.pte, hpte]
    rfl
  · cases hwalk.symm.trans h
  · cases hwalk.symm.trans h
    have ht : pd.tables (pdx a) = none := by simpa [mem_present] using hp
    simp [PageDir.pte, PageDir.pte?, ht]

/-- `mappages` of one user page. -/
theorem mappages_uses {pa : Nat} {perm : Flags} {set : Bool} {r : Int} (hal : a % pgSize = 0) (ha : a < kernBase)
    (h : mappages pd a pgSize pa perm set m = (r, pd', m')) :
    (r = 0 ∧ ∀ f, pd'.uses f + m'.free f + (pd.pte a).uses f =
      pd.uses f + m.free f + if perm.present || set then one (pa / pgSize) f else 0) ∨ r = -1 ∧ pd' = pd ∧ m' = m := by
  have hw : a < wordSize := by simp only [kernBase, wordSize] at *; omega
  rw [mappages_page pa perm set pd m hal hw] at h
  rcases hwalk : walkpgdir pd a m with ⟨_ | pd₁, m₁⟩
  · rw [hwalk] at h
    cases h
    exact .inr ⟨rfl, rfl, walkpgdir_none hwalk⟩
  · rw [hwalk] at h
    cases h
    refine .inl ⟨rfl, fun f => ?_⟩
    have h1 := walkpgdir_uses hwalk f
    have h2 := uses_setPte { present := perm.present || set, write := perm.write, user := perm.user, frame := pa / pgSize } ha
      (walkpgdir_pte hwalk) f
    change _ = _ + (if perm.present || set then one (pa / pgSize) f else 0) at h2
    omega

/-- The kernel half is built from the free list. -/
theorem mappagesLoop_uses (flags : Flags) (f : Nat) : ∀ (n a pa : Nat) (pd : PageDir) (m : Phys), kernBase ≤ a →
    a + n * pgSize < wordSize → (mappagesLoop flags n a pa pd m).2.1.uses f + (mappagesLoop flags n a pa pd m).2.2.free f =
      pd.uses f + m.free f
  | 0, a, pa, pd, m, hk, hw => by
    rw [mappagesLoop]
    rcases hwalk : walkpgdir pd a m with ⟨_ | pd₁, m₁⟩
    · rw [walkpgdir_none hwalk]
    · dsimp only
      rw [uses_setPte_kernel hk (by omega)]
      exact walkpgdir_uses hwalk f
  | n + 1, a, pa, pd, m, hk, hw => by
    rw [mappagesLoop]
    rcases hwalk : walkpgdir pd a m with ⟨_ | pd₁, m₁⟩
    · rw [walkpgdir_none hwalk]
    · have ha : (a + pgSize) % wordSize = a + pgSize := Nat.mod_eq_of_lt (by simp only [pgSize] at *; omega)
      dsimp only
      rw [ha, mappagesLoop_uses flags f n (a + pgSize) _ _ m₁ (by omega) (by simp only [pgSize] at *; omega),
        uses_setPte_kernel hk (by simp only [pgSize] at *; omega)]
      exact walkpgdir_uses hwalk f

theorem setupkvmLoop_uses (f : Nat) : ∀ (ks : List KMap) (pd : PageDir) (m : Phys), (∀ k ∈ ks, k.Ok ∧ kernBase ≤ k.virt) →
    (setupkvmLoop ks pd m).2.1.uses f + (setupkvmLoop ks pd m).2.2.free f = pd.uses f + m.free f
  | [], pd, m, _ => rfl
  | k :: ks, pd, m, hok => by
    obtain ⟨hk, hkern⟩ := hok k (by simp)
    obtain ⟨h1, h2⟩ := mappages_rounds hk.aligned hk.pos hk.fits
    have h : (mappages pd k.virt (subWord k.physEnd k.physStart) k.physStart ⟨false, k.write, false⟩ true m).2.1.uses f +
        (mappages pd k.virt (subWord k.physEnd k.physStart) k.physStart ⟨false, k.write, false⟩ true m).2.2.free f =
          pd.uses f + m.free f := by
      unfold mappages
      dsimp only
      rw [h1, h2]
      refine mappagesLoop_uses _ f _ _ _ _ _ hkern ?_
      have := hk.fits
      have := hk.pos
      simp only [wordSize, pgSize] at *
      omega
    rw [setupkvmLoop]
    generalize mappages pd k.virt (subWord k.physEnd k.physStart) k.physStart ⟨false, k.write, false⟩ true m = x at h
    obtain ⟨r, pd₁, m₁⟩ := x
    dsimp only at h ⊢
    split
    · exact h
    · rw [setupkvmLoop_uses f ks pd₁ m₁ fun k' hk' => hok k' (by simp [hk'])]
      exact h

theorem kmap_kernel (l : Layout) : ∀ k ∈ kmap l, k.Ok ∧ kernBase ≤ k.virt := by
  intro k hk
  refine ⟨kmap_ok l k hk, ?_⟩
  have h := l.link_lt
  simp only [kmap, List.mem_cons, List.not_mem_nil, or_false] at hk
  rcases hk with rfl | rfl | rfl | rfl
  all_goals simp only [kernLink, kernBase, extMem, devSpace] at *
  all_goals omega

end Entries

/-! ## Freeing -/

section Free

variable {pd pd' : PageDir} {m m' : Phys} {f g : Nat}

theorem kfree_holds : (∃ m', kfree g m = .ok m') ↔ m.layout.Holds g := by
  unfold kfree Layout.Holds
  split
  · next h =>
    constructor
    · rintro ⟨m', h'⟩; cases h'
    · rintro ⟨h1, h2⟩; omega
  · next h => exact ⟨fun _ => by omega, fun _ => ⟨_, rfl⟩⟩

theorem kfree_uses (h : kfree g m = .ok m') (f : Nat) : m'.layout = m.layout ∧ m'.free f = m.free f + one g f := by
  unfold kfree at h
  split at h
  · cases h
  · cases h
    exact ⟨rfl, free_cons rfl⟩

/-- What `deallocuvm` leaves: the entries of the pages it has gone over are not present, and the pages
they pointed to are free. -/
structure Deallocated (lo hi : Nat) (pd : PageDir) (m : Phys) (pd' : PageDir) (m' : Phys) : Prop where
  layout : m'.layout = m.layout
  frame : pd'.frame = pd.frame
  present : pd'.present = pd.present
  uses : ∀ f, pd'.uses f + m'.free f = pd.uses f + m.free f
  free : ∀ f, m.free f ≤ m'.free f
  gone : ∀ b, lo ≤ b → b < hi → (pd'.pte b).present = false
  other : ∀ b, pd'.pte b = pd.pte b ∨ (pd'.pte b).present = false

theorem deallocuvmLoop_uses {hi : Nat} (hhi : hi ≤ kernBase) : ∀ {fuel a : Nat} {pd pd' : PageDir} {m m' : Phys}, a % pgSize = 0 →
    deallocuvmLoop hi fuel a pd m = .ok (pd', m') → Deallocated a hi pd m pd' m'
  | 0, _, _, _, _, _, _, h => by cases h
  | fuel + 1, a, pd, pd', m, m', hal, h => by
    rw [deallocuvmLoop] at h
    split at h
    swap
    · cases h
      exact ⟨rfl, rfl, rfl, fun _ => rfl, fun _ => le_rfl, fun b h1 h2 => by omega, fun _ => .inl rfl⟩
    next hlt =>
    split at h
    · next hnone =>
      have hnext : (a / 2 ^ 22 + 1) * 2 ^ 22 % wordSize = (a / 2 ^ 22 + 1) * 2 ^ 22 :=
        Nat.mod_eq_of_lt (by simp only [wordSize, kernBase] at *; omega)
      rw [hnext] at h
      have ih := deallocuvmLoop_uses hhi (by simp only [pgSize] at *; omega) h
      refine ⟨ih.layout, ih.frame, ih.present, ih.uses, ih.free, fun b h1 h2 => ?_, ih.other⟩
      by_cases hb : (a / 2 ^ 22 + 1) * 2 ^ 22 ≤ b
      · exact ih.gone b hb h2
      · -- the table that is missing covers the addresses in between
        have hidx : pdx b = pdx a := by
          simp only [pdx, Fin.mk.injEq]
          omega
        have hno : pdx b ∉ pd'.present := by
          rw [ih.present, hidx, mem_present, not_not, ← pte?_eq_none]
          exact hnone
        rw [PageDir.pte, pte?_eq_none.2 (by simpa [mem_present] using hno)]
        rfl
    · next pte hpte =>
      have hnext : (a + pgSize) % wordSize = a + pgSize := Nat.mod_eq_of_lt (by simp only [wordSize, kernBase, pgSize] at *; omega)
      rw [hnext] at h
      have hpage : ∀ b, a ≤ b → b < a + pgSize → b / pgSize = a / pgSize := by
        intro b h1 h2
        simp only [pgSize] at *
        omega
      split at h
      · next hp =>
        split at h
        · cases h
        · obtain ⟨m₁, hfree, h⟩ := bind_eq_ok.1 h
          have ih := deallocuvmLoop_uses hhi (by simp only [pgSize] at *; omega) h
          have hk := kfree_uses hfree
          have hset : ∀ b, b / pgSize = a / pgSize → ((pd.setPte a Pte.zero).pte b) = Pte.zero := by
            intro b hb
            rw [PageDir.pte, pte?_page hb, pte?_setPte_same (by rw [Ne, ← pte?_eq_none, hpte]; simp)]
            rfl
          refine ⟨ih.layout.trans (hk 0).1, ih.frame.trans (by simp), ih.present.trans (by simp), fun f => ?_, fun f => ?_,
            fun b h1 h2 => ?_, fun b => ?_⟩
          · have h1 := ih.uses f
            have h2 := uses_setPte Pte.zero (by omega) hpte f
            have h3 := (hk f).2
            rw [uses_of_present hp, uses_zero] at h2
            omega
          · have h1 := ih.free f
            have h2 := (hk f).2
            omega
          · by_cases hb : a + pgSize ≤ b
            · exact ih.gone b hb h2
            · rcases ih.other b with he | he
              · rw [he, hset b (hpage b h1 (by omega))]
                rfl
              · exact he
          · rcases ih.other b with he | he
            · rw [he]
              by_cases hb : pdx b = pdx a ∧ ptx b = ptx a
              · right
                rw [PageDir.pte, PageDir.pte?, hb.1, hb.2, ← PageDir.pte?,
                  pte?_setPte_same (by rw [Ne, ← pte?_eq_none, hpte]; simp)]
                rfl
              · left
                rw [PageDir.pte, PageDir.pte, pte?_setPte_other hb]
            · exact .inr he
      · next hp =>
        have ih := deallocuvmLoop_uses hhi (by simp only [pgSize] at *; omega) h
        refine ⟨ih.layout, ih.frame, ih.present, ih.uses, ih.free, fun b h1 h2 => ?_, ih.other⟩
        by_cases hb : a + pgSize ≤ b
        · exact ih.gone b hb h2
        · rcases ih.other b with he | he
          · rw [he, PageDir.pte, pte?_page (hpage b h1 (by omega)), hpte]
            simpa using hp
          · exact he

/-- `deallocuvm` goes through when the allocator takes every page. -/
theorem deallocuvmLoop_progress {hi : Nat} (hhi : hi ≤ kernBase) : ∀ (fuel a : Nat) (pd : PageDir) (m : Phys), a % pgSize = 0 →
    hi ≤ a + fuel * pgSize → (∀ b < hi, (pd.pte b).present = true → m.layout.Holds (pd.pte b).frame) →
    ∃ pd' m', deallocuvmLoop hi (fuel + 1) a pd m = .ok (pd', m')
  | 0, a, pd, m, _, hf, _ => ⟨pd, m, by rw [deallocuvmLoop, if_neg (by omega)]⟩
  | fuel + 1, a, pd, m, hal, hf, hpd => by
    rw [deallocuvmLoop]
    by_cases hlt : a < hi
    swap
    · rw [if_neg hlt]
      exact ⟨pd, m, rfl⟩
    rw [if_pos hlt]
    cases hpte : pd.pte? a with
    | none =>
      refine deallocuvmLoop_progress hhi fuel _ pd m ?_ ?_ hpd <;> simp only [pgSize, wordSize, kernBase] at * <;> omega
    | some pte =>
      dsimp only
      split
      · next hp =>
        have hpa : pd.pte a = pte := by rw [PageDir.pte, hpte]; rfl
        have hholds := hpd a hlt (by rw [hpa]; exact hp)
        rw [hpa] at hholds
        have hnz : pte.frame ≠ 0 := by
          rintro h0
          have h1 := hholds.1
          have h2 := m.layout.link_lt
          have h3 := m.layout.data_le
          rw [h0] at h1
          simp only [kernLink, kernBase, extMem] at *
          omega
        obtain ⟨m₁, hfree⟩ := kfree_holds.2 hholds
        rw [if_neg hnz, hfree, ok_bind]
        refine deallocuvmLoop_progress hhi fuel _ _ m₁ ?_ ?_ fun b hlt' hb => ?_
        · simp only [pgSize, wordSize, kernBase] at *; omega
        · simp only [pgSize, wordSize, kernBase] at *; omega
        · rw [(kfree_uses hfree 0).1]
          by_cases hidx : pdx b = pdx a ∧ ptx b = ptx a
          · rw [PageDir.pte, PageDir.pte?, hidx.1, hidx.2, ← PageDir.pte?,
              pte?_setPte_same (by rw [Ne, ← pte?_eq_none, hpte]; simp)] at hb
            cases hb
          · have he : (pd.setPte a Pte.zero).pte b = pd.pte b := by rw [PageDir.pte, PageDir.pte, pte?_setPte_other hidx]
            rw [he] at hb ⊢
            exact hpd b hlt' hb
      · refine deallocuvmLoop_progress hhi fuel _ pd m ?_ ?_ hpd <;> simp only [pgSize, wordSize, kernBase] at * <;> omega

/-- The tables that `freevm` frees. -/
def freeTable (pd : PageDir) (m : Phys) (i : Fin 1024) : Except Stuck Phys :=
  match pd.tables i with
  | none => pure m
  | some t => kfree t.frame m

theorem freeTables_uses : ∀ {is : List (Fin 1024)} {m m' : Phys}, is.foldlM (freeTable pd) m = .ok m' →
    m'.layout = m.layout ∧ ∀ f, m'.free f = m.free f + (is.map fun i => (pd.tables i).elim 0 fun t => one t.frame f).sum
  | [], m, m', h => by cases h; exact ⟨rfl, fun f => by simp⟩
  | i :: is, m, m', h => by
    rw [List.foldlM_cons] at h
    obtain ⟨m₁, hi, h⟩ := bind_eq_ok.1 h
    obtain ⟨hl, ih⟩ := freeTables_uses h
    unfold freeTable at hi
    cases ht : pd.tables i with
    | none =>
      rw [ht] at hi
      cases hi
      refine ⟨hl, fun f => ?_⟩
      rw [ih f, List.map_cons, List.sum_cons, ht]
      simp
    | some t =>
      rw [ht] at hi
      have hk := kfree_uses hi
      refine ⟨hl.trans (hk 0).1, fun f => ?_⟩
      rw [ih f, (hk f).2, List.map_cons, List.sum_cons, ht]
      simp only [Option.elim_some]
      omega

theorem freeTables_progress (pd : PageDir) : ∀ (is : List (Fin 1024)) (m : Phys), (∀ i t, pd.tables i = some t → m.layout.Holds t.frame) →
    ∃ m', is.foldlM (freeTable pd) m = .ok m'
  | [], m, _ => ⟨m, rfl⟩
  | i :: is, m, h => by
    obtain ⟨m₁, hm₁, hl⟩ : ∃ m₁, freeTable pd m i = .ok m₁ ∧ m₁.layout = m.layout := by
      unfold freeTable
      cases ht : pd.tables i with
      | none => exact ⟨m, rfl, rfl⟩
      | some t =>
        obtain ⟨m₁, hm₁⟩ := kfree_holds.2 (h i t ht)
        exact ⟨m₁, hm₁, (kfree_uses hm₁ 0).1⟩
    rw [List.foldlM_cons, hm₁, ok_bind]
    exact freeTables_progress pd is m₁ fun j u hu => by rw [hl]; exact h j u hu

/-- A directory without present user pages uses its own page and those of its tables. -/
theorem uses_of_blank (h : ∀ b < kernBase, (pd.pte b).present = false) (f : Nat) :
    pd.uses f = one pd.frame f + tally fun i => (pd.tables i).elim 0 fun t => one t.frame f := by
  refine congrArg (one pd.frame f + ·) (tally_congr fun i => ?_)
  unfold PageDir.usesAt
  cases ht : pd.tables i with
  | none => rfl
  | some t =>
    simp only [Option.elim_some]
    split
    · next hi =>
      rw [tally_zero fun j => ?_, add_zero]
      refine uses_of_not_present ?_
      have hj := j.isLt
      have hd : pdx (i.val * 2 ^ 22 + j.val * 2 ^ 12) = i := by
        apply Fin.ext
        simp only [pdx]
        omega
      have hp : ptx (i.val * 2 ^ 22 + j.val * 2 ^ 12) = j := by
        apply Fin.ext
        simp only [ptx]
        omega
      have := h (i.val * 2 ^ 22 + j.val * 2 ^ 12) (by simp only [kernBase]; omega)
      rwa [PageDir.pte, PageDir.pte?, hd, hp, ht] at this
    · rfl

theorem freevm_eq : freevm pd m = (do
    let (_, pd, m) ← deallocuvm pd kernBase 0 m
    let m ← (List.finRange 1024).foldlM (freeTable pd) m
    kfree pd.frame m) := rfl

/-- `freevm` returns every page of the directory. -/
theorem freevm_uses (h : freevm pd m = .ok m') : m'.layout = m.layout ∧ ∀ f, m'.free f = pd.uses f + m.free f := by
  rw [freevm_eq, deallocuvm, if_neg (by decide)] at h
  obtain ⟨⟨sz, pd₁, m₁⟩, hd, h⟩ := bind_eq_ok.1 h
  obtain ⟨⟨pd₂, m₂⟩, hloop, hd⟩ := bind_eq_ok.1 hd
  cases hd
  obtain ⟨m₃, htab, h⟩ := bind_eq_ok.1 h
  have hde := deallocuvmLoop_uses le_rfl (by decide) hloop
  obtain ⟨hl, ht⟩ := freeTables_uses htab
  have hk := kfree_uses h
  refine ⟨(hk 0).1.trans (hl.trans hde.layout), fun f => ?_⟩
  have h1 := hde.uses f
  have h2 := uses_of_blank (fun b hb => hde.gone b (Nat.zero_le b) hb) f
  have h3 := ht f
  rw [← Fin.sum_univ_def, ← tally_eq] at h3
  have h4 := (hk f).2
  omega

theorem uses_frame_pos : 0 < pd.uses pd.frame := by
  have h1 : one pd.frame pd.frame = 1 := if_pos rfl
  rw [PageDir.uses]
  omega

theorem usesAt_le (i : Fin 1024) : pd.usesAt f i ≤ pd.uses f :=
  le_trans (le_tally i) (Nat.le_add_left _ _)

theorem uses_table_pos {i : Fin 1024} {t : PageTable} (ht : pd.tables i = some t) : 0 < pd.uses t.frame := by
  refine lt_of_lt_of_le ?_ (usesAt_le i)
  have h1 : one t.frame t.frame = 1 := if_pos rfl
  rw [PageDir.usesAt, ht, Option.elim_some]
  omega

theorem uses_present_pos {b : Nat} (hb : b < kernBase) (hp : (pd.pte b).present = true) : 0 < pd.uses (pd.pte b).frame := by
  refine lt_of_lt_of_le ?_ (usesAt_le (pdx b))
  cases ht : pd.tables (pdx b) with
  | none =>
    rw [PageDir.pte, pte?_eq_none.2 ht] at hp
    cases hp
  | some t =>
    have he : pd.pte b = t.ptes (ptx b) := by rw [PageDir.pte, PageDir.pte?, ht]; rfl
    rw [he] at hp ⊢
    have h1 : (t.ptes (ptx b)).uses (t.ptes (ptx b)).frame = 1 := by rw [uses_of_present hp]; exact if_pos rfl
    have h2 := le_tally (g := fun j => (t.ptes j).uses (t.ptes (ptx b)).frame) (ptx b)
    rw [PageDir.usesAt, ht, Option.elim_some, if_pos (pdx_lt hb)]
    omega

/-- `freevm` goes through when the allocator takes every page. -/
theorem freevm_progress (hpd : ∀ f, 0 < pd.uses f → m.layout.Holds f) : ∃ m', freevm pd m = .ok m' := by
  obtain ⟨pd₁, m₁, hloop⟩ := deallocuvmLoop_progress le_rfl (2 ^ 20) (pgRoundUp 0) pd m (by decide) (by decide)
    fun b hb hp => hpd _ (uses_present_pos hb hp)
  have hde := deallocuvmLoop_uses le_rfl (by decide) hloop
  have hholds : ∀ f, 0 < pd₁.uses f → m.layout.Holds f := by
    intro f hf
    have h1 := hde.uses f
    have h2 := hde.free f
    exact hpd f (by omega)
  obtain ⟨m₂, htab⟩ := freeTables_progress pd₁ (List.finRange 1024) m₁ fun i t ht => by
    rw [hde.layout]; exact hholds _ (uses_table_pos ht)
  obtain ⟨m₃, hfree⟩ : ∃ m₃, kfree pd₁.frame m₂ = .ok m₃ := by
    rw [kfree_holds, (freeTables_uses htab).1, hde.layout]
    exact hholds _ uses_frame_pos
  refine ⟨m₃, ?_⟩
  rw [freevm_eq, deallocuvm, if_neg (by decide), hloop]
  simp only [ok_bind, pure_ok]
  rw [htab, ok_bind, hfree]

/-! ## Building -/

theorem setupkvm_uses {d : Option PageDir} (h : setupkvm m = .ok (d, m')) :
    m'.layout = m.layout ∧ ∀ f, (d.elim 0 fun pd => pd.uses f) + m'.free f = m.free f := by
  unfold setupkvm kallocPage at h
  cases hfl : m.freelist with
  | nil =>
    rw [hfl] at h
    cases h
    exact ⟨rfl, fun f => by simp⟩
  | cons g fl =>
    rw [hfl] at h
    dsimp only at h
    rw [if_neg (by decide)] at h
    have hlay : ({ m with freelist := fl }.setPage g zeroPage).layout = m.layout := rfl
    have huses := fun f => setupkvmLoop_uses f (kmap m.layout) ⟨g, fun _ => none⟩ ({ m with freelist := fl }.setPage g zeroPage)
      (kmap_kernel _)
    have htakes := (setupkvmLoop_kmap m g fl).takes
    rw [hlay] at h
    generalize setupkvmLoop (kmap m.layout) ⟨g, fun _ => none⟩ ({ m with freelist := fl }.setPage g zeroPage) = x at h huses htakes
    obtain ⟨r, pd, m₁⟩ := x
    have hstart : ∀ f, PageDir.uses ⟨g, fun _ => none⟩ f + ({ m with freelist := fl }.setPage g zeroPage).free f = m.free f := by
      intro f
      have h0 : tally (PageDir.usesAt ⟨g, fun _ => none⟩ f) = 0 := tally_zero fun _ => rfl
      rw [free_cons hfl, PageDir.uses, h0, Phys.free]
      simp only [Phys.setPage]
      omega
    dsimp only at h huses htakes
    split at h
    · obtain ⟨m₂, hfree, h⟩ := bind_eq_ok.1 h
      cases h
      obtain ⟨hl, hu⟩ := freevm_uses hfree
      refine ⟨hl.trans htakes.layout, fun f => ?_⟩
      have h1 := huses f
      have h2 := hstart f
      have h3 := hu f
      simp only [Option.elim_none]
      omega
    · cases h
      exact ⟨htakes.layout, fun f => (huses f).trans (hstart f)⟩

end Free

end DemandPaging
