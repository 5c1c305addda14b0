/-
A `growproc` that fails. It may have mapped pages, taken swap slots or freed pages by then, and takes none
of it back: `growproc(-sz)` frees every page before it reports that the new size is 0. The process is as
it was exactly when there was nothing to lose before the failure.
-/
import DemandPaging.Exec.Image
import DemandPaging.Memory.Frames
import DemandPaging.Swap.Steps
import DemandPaging.Swap.Lifecycle

namespace DemandPaging

variable {p : ProcIdx} {s s' : Kernel} {pd pd' pd₁ : PageDir} {a b n i : Nat}

/-! ## Pages that `allocuvm` reaches -/

/-- The directory indices from one address to another. -/
def tableRange (a b : Nat) : Finset (Fin 1024) := Finset.univ.filter fun i => a / 2 ^ 22 ≤ i.val ∧ i.val ≤ b / 2 ^ 22

/-- The page tables that are missing from one address to another. -/
def tablesNeeded (pd : PageDir) (a b : Nat) : Nat := (tableRange a b \ pd.present).card

theorem mem_tableRange {i : Fin 1024} : i ∈ tableRange a b ↔ a / 2 ^ 22 ≤ i.val ∧ i.val ≤ b / 2 ^ 22 := by simp [tableRange]

theorem pdx_mem_range (ha : a < wordSize) (hab : a ≤ b) : pdx a ∈ tableRange a b := by
  rw [mem_tableRange]
  simp only [pdx, wordSize] at *
  omega

/-- A page table once there is not needed again. -/
theorem tablesNeeded_step (ha : a % pgSize = 0) (hw : a < wordSize) (hb : a + pgSize ≤ b) (hp : pd₁.present = insert (pdx a) pd.present) :
    tablesNeeded pd a b = tablesNeeded pd₁ (a + pgSize) b + if pdx a ∈ pd.present then 0 else 1 := by
  have hidx : ∀ i : Fin 1024, i ≠ pdx a → (i ∈ tableRange a b ↔ i ∈ tableRange (a + pgSize) b) := by
    intro i hi
    rw [mem_tableRange, mem_tableRange]
    rw [Ne, Fin.ext_iff] at hi
    simp only [pdx, pgSize, wordSize] at *
    omega
  unfold tablesNeeded
  rw [hp]
  split
  · next hmem =>
    rw [Finset.insert_eq_of_mem hmem, Nat.add_zero]
    refine congrArg Finset.card ?_
    ext i
    rw [Finset.mem_sdiff, Finset.mem_sdiff]
    by_cases hi : i = pdx a
    · simp [hi, hmem]
    · rw [hidx i hi]
  · next hmem =>
    rw [← Finset.card_insert_of_notMem (s := tableRange (a + pgSize) b \ insert (pdx a) pd.present) (a := pdx a) (by simp)]
    refine congrArg Finset.card ?_
    ext i
    rw [Finset.mem_insert, Finset.mem_sdiff, Finset.mem_sdiff, Finset.mem_insert]
    by_cases hi : i = pdx a
    · simp [hi, hmem, pdx_mem_range hw (show a ≤ b by omega)]
    · rw [hidx i hi]
      simp [hi]

theorem tablesNeeded_page (ha : a % pgSize = 0) (hw : a < wordSize) (hb : a ≤ b) (hb' : b < a + pgSize) :
    tablesNeeded pd a b = if pdx a ∈ pd.present then 0 else 1 := by
  have hrange : tableRange a b = {pdx a} := by
    ext i
    rw [mem_tableRange, Finset.mem_singleton, Fin.ext_iff]
    simp only [pdx, pgSize, wordSize] at *
    omega
  unfold tablesNeeded
  rw [hrange]
  split
  · next hmem => rw [Finset.sdiff_eq_empty_iff_subset.2 (by simpa using hmem), Finset.card_empty]
  · next hmem => rw [Finset.sdiff_eq_self_of_disjoint (by simpa using hmem), Finset.card_singleton]

/-- `allocuvm` maps the pages up to the first one for whose table there is no page. -/
structure Reaches (n a : Nat) (pd : PageDir) (m : Phys) (done : Bool) (pd' : PageDir) (m' : Phys) : Prop where
  mapped : ∀ b, a ≤ b → b < a + n * pgSize → tablesNeeded pd a b ≤ m.freelist.length → pd'.pte b = Pte.blank
  other : ∀ b < wordSize, ¬(a ≤ b ∧ b < a + n * pgSize ∧ tablesNeeded pd a b ≤ m.freelist.length) → pd'.pte b = pd.pte b
  all : done = true ↔ ∀ b, a ≤ b → b < a + n * pgSize → tablesNeeded pd a b ≤ m.freelist.length
  spent : done = true → 0 < n → m'.freelist.length + tablesNeeded pd a (a + n * pgSize - 1) = m.freelist.length

theorem allocuvmLoop_reaches : ∀ {n a : Nat} {pd pd' : PageDir} {s s' : Kernel} {done : Bool}, a % pgSize = 0 →
    a + n * pgSize ≤ wordSize → allocuvmLoop p false n a pd s = .ok (done, pd', s') → Reaches n a pd s.phys done pd' s'.phys
  | 0, a, pd, pd', s, s', done, _, _, h => by
    cases h
    refine ⟨fun b h1 h2 => by omega, fun _ _ _ => rfl, ?_, fun _ h => absurd h (lt_irrefl 0)⟩
    simp only [true_iff]
    intro b h1 h2
    omega
  | n + 1, a, pd, pd', s, s', done, ha, hw, h => by
    have ha' : (a + pgSize) % pgSize = 0 := by simp only [pgSize] at *; omega
    have hw' : a + pgSize + n * pgSize ≤ wordSize := by simp only [pgSize] at *; omega
    have hlt : a < wordSize := by simp only [pgSize, wordSize] at *; omega
    have hmul : a + (n + 1) * pgSize = a + pgSize + n * pgSize := by simp only [pgSize]; omega
    rw [allocuvmLoop] at h
    simp only [Bool.false_eq_true, if_false, pure_ok, ok_bind] at h
    rcases mappages_page_cases (0 * pgSize) ⟨false, true, true⟩ false pd s.phys ha hlt with
      ⟨hnil, hmiss, hmap⟩ | ⟨pd₁, m₁, hmap, hmapped⟩
    · -- there is no page for the first table
      rw [hmap] at h
      cases h
      have hno : ∀ b, a ≤ b → ¬tablesNeeded pd a b ≤ s.phys.freelist.length := by
        intro b hab
        rw [hnil, List.length_nil, Nat.le_zero, tablesNeeded, Finset.card_eq_zero]
        exact Finset.ne_empty_of_mem (Finset.mem_sdiff.2 ⟨pdx_mem_range hlt hab, hmiss⟩)
      refine ⟨fun b h1 _ h3 => absurd h3 (hno b h1), fun _ _ _ => rfl, ?_, fun h => by cases h⟩
      simp only [Bool.false_eq_true, false_iff, not_forall]
      exact ⟨a, le_rfl, by simp only [pgSize]; omega, hno a le_rfl⟩
    · rw [hmap] at h
      have hpres := mappages_present ha hlt hmap
      have hmapped : Mapped a Pte.blank pd s.phys pd₁ m₁ := hmapped
      have ih := allocuvmLoop_reaches ha' hw' h
      -- the page of the new table is one less for the rest
      have hbal := hmapped.balance
      rw [hpres] at hbal
      have hfree : (if pdx a ∈ pd.present then 0 else 1) + m₁.freelist.length = s.phys.freelist.length := by
        split
        · next hmem =>
          rw [Finset.insert_eq_of_mem hmem] at hbal
          omega
        · next hmem =>
          rw [Finset.card_insert_of_notMem hmem] at hbal
          omega
      have hstep : ∀ b, a + pgSize ≤ b → (tablesNeeded pd a b ≤ s.phys.freelist.length ↔
          tablesNeeded pd₁ (a + pgSize) b ≤ m₁.freelist.length) := by
        intro b hb
        rw [tablesNeeded_step ha hlt hb hpres]
        omega
      have hpage : ∀ b, a ≤ b → b < a + pgSize → tablesNeeded pd a b ≤ s.phys.freelist.length := by
        intro b h1 h2
        rw [tablesNeeded_page ha hlt h1 h2]
        omega
      have hself : ∀ b, a ≤ b → b < a + pgSize → pd₁.pte b = Pte.blank := by
        intro b h1 h2
        rw [PageDir.pte, pte?_page (b := a) (by simp only [pgSize] at *; omega), hmapped.entry]
        rfl
      refine ⟨fun b h1 h2 h3 => ?_, fun b hb h3 => ?_, ?_, fun hd _ => ?_⟩
      · by_cases hb : b < a + pgSize
        · rw [ih.other b (by simp only [pgSize] at *; omega) (by omega), hself b h1 hb]
        · exact ih.mapped b (by omega) (by omega) ((hstep b (by omega)).1 h3)
      · have hout : ¬(a + pgSize ≤ b ∧ b < a + pgSize + n * pgSize ∧ tablesNeeded pd₁ (a + pgSize) b ≤ m₁.freelist.length) := by
          rintro ⟨h1, h2, h4⟩
          exact h3 ⟨by omega, by omega, (hstep b h1).2 h4⟩
        rw [ih.other b hb hout, hmapped.other b]
        rw [index_eq_iff hb hlt]
        intro hpg
        refine h3 ⟨?_, ?_, hpage b ?_ ?_⟩ <;> simp only [pgSize] at * <;> omega
      · rw [ih.all]
        constructor
        · intro hall b h1 h2
          by_cases hb : b < a + pgSize
          · exact hpage b h1 hb
          · exact (hstep b (by omega)).2 (hall b (by omega) (by omega))
        · intro hall b h1 h2
          exact (hstep b h1).1 (hall b (by omega) (by omega))
      · rw [hmul]
        rcases Nat.eq_zero_or_pos n with rfl | hn
        · cases h
          rw [tablesNeeded_page ha hlt (by simp only [pgSize]; omega) (by simp only [pgSize]; omega)]
          show m₁.freelist.length + _ = _
          omega
        · have hsp := ih.spent hd hn
          have hend : a + pgSize ≤ a + pgSize + n * pgSize - 1 := by simp only [pgSize]; omega
          rw [tablesNeeded_step ha hlt hend hpres]
          change s'.phys.freelist.length + tablesNeeded pd₁ (a + pgSize) _ = m₁.freelist.length at hsp
          omega

/-! ## Slots that the growth loop takes -/

theorem growprocLoop_used {f : SlotIdx} {r : Int} : ∀ {n i : Nat} {s s' : Kernel}, s.swap.bitmap f ≠ -1 →
    growprocLoop p n i s = .ok (r, s') → s'.swap.bitmap f ≠ -1
  | 0, _, _, _, hf, h => by
    cases h
    exact hf
  | n + 1, i, s, s', hf, h => by
    rw [growprocLoop, swapOutFunc_eq] at h
    obtain ⟨⟨r₁, s₁⟩, hout, h⟩ := bind_eq_ok.1 h
    obtain ⟨slot, list, sw, hlink, hsw, -, -, -⟩ := swapOutWith_ok hout
    obtain ⟨-, hnone, hsome⟩ := linkSlot_ok hlink
    have hf₁ : s₁.swap.bitmap f ≠ -1 := by
      rw [hsw]
      cases slot with
      | none =>
        rw [(hnone rfl).2.1]
        exact hf
      | some g =>
        rw [(hsome g rfl).1, Function.update_apply]
        split
        · decide
        · exact hf
    dsimp only at h
    split at h
    · cases h
      exact hf₁
    · exact growprocLoop_used hf₁ h

/-- The loop fails at its first page, with nothing done, or has taken a slot. -/
theorem growprocLoop_fails {r : Int} (hr : r < 0) (h : growprocLoop p n i s = .ok (r, s')) :
    (freeSlot? s.swap = none → s'.phys = s.phys ∧ s'.swap.bitmap = s.swap.bitmap ∧ s'.swap.frames = s.swap.frames ∧
      s'.ptable p = { s.ptable p with heapBuffer := zeroPage }) ∧
    ∀ f, freeSlot? s.swap = some f → s'.swap.bitmap f ≠ -1 := by
  cases n with
  | zero =>
    cases h
    omega
  | succ n =>
    rw [growprocLoop, swapOutFunc_eq] at h
    obtain ⟨⟨r₁, s₁⟩, hout, h⟩ := bind_eq_ok.1 h
    have hout' := hout
    obtain ⟨slot, list, sw, hlink, hsw, -, hfail, hdone⟩ := swapOutWith_ok hout
    obtain ⟨hslot, hnone, hsome⟩ := linkSlot_ok hlink
    rw [Kernel.setProc_swap] at hslot hnone hsome
    constructor
    · intro hfree
      rw [hfree] at hslot
      subst hslot
      obtain ⟨rfl, hbit, hfr⟩ := hnone rfl
      unfold swapOutWith at hout'
      rw [hlink] at hout'
      cases hout'
      cases h
      refine ⟨rfl, hbit, hfr, ?_⟩
      rw [Kernel.setSwap_ptable, if_pos rfl, Kernel.setProc_same]
    · intro f hfree
      rw [hfree] at hslot
      subst hslot
      obtain ⟨rfl, -⟩ := hdone f rfl
      dsimp only at h
      rw [if_neg (by decide)] at h
      refine growprocLoop_used ?_ h
      rw [hsw, (hsome f rfl).1, Function.update_self]
      decide

/-! ## The failed call -/

/-- The bytes of the page at an address, where it is present. -/
def presentPage (p : ProcIdx) (a : Nat) (s : Kernel) : Option Page := do
  let pd ← (s.ptable p).pgdir
  if (pd.pte a).present then some (s.phys.mem (pd.pte a).frame) else none

/-- The size of a process, its pages, its swap list and the swap table are as before. -/
structure Unchanged (p : ProcIdx) (s s' : Kernel) : Prop where
  sz : (s'.ptable p).sz = (s.ptable p).sz
  pages : ∀ a < kernBase, presentPage p a s' = presentPage p a s
  list : (s'.ptable p).swapList = (s.ptable p).swapList
  frames : s'.swap.frames = s.swap.frames
  bitmap : s'.swap.bitmap = s.swap.bitmap

/-- A growth to `newsz` gets as far as the page at `b`: there are pages for the tables up to it. -/
def GetsTo (pd : PageDir) (m : Phys) (sz newsz b : Nat) : Prop :=
  pgRoundUp sz ≤ b ∧ b < pgRoundUp newsz ∧ tablesNeeded pd (pgRoundUp sz) b ≤ m.freelist.length

/-- What there is to lose before `growproc(n)` fails: pages above the size, which a growth unmaps, and slots, which
it takes once it has mapped the pages; pages below the size, which a shrink to nothing frees. -/
def NothingToLose (p : ProcIdx) (n : Int) (s : Kernel) (pd : PageDir) : Prop :=
  let sz := (s.ptable p).sz
  let newsz := ((sz + n) % wordSize).toNat
  if 0 < n then
    kernBase ≤ newsz ∨ ((∀ b, GetsTo pd s.phys sz newsz b → (pd.pte b).present = false) ∧
      (freeSlot? s.swap = none ∨ ∃ b, pgRoundUp sz ≤ b ∧ b < pgRoundUp newsz ∧ ¬GetsTo pd s.phys sz newsz b))
  else ∀ b < sz, (pd.pte b).present = false

theorem presentPage_some (hpd : (s.ptable p).pgdir = some pd) :
    presentPage p a s = if (pd.pte a).present then some (s.phys.mem (pd.pte a).frame) else none := by
  unfold presentPage
  rw [hpd]
  rfl

/-- What `allocuvm` maps for a process: the pages that were there stay exactly when it reaches none of them. -/
theorem presentPage_kept {t : Kernel} {reached : Nat → Prop} (hpd : (s.ptable p).pgdir = some pd) (hpd' : (t.ptable p).pgdir = some pd')
    (hfree : ∀ a < kernBase, (pd.pte a).present = true → (pd.pte a).frame ∉ s.phys.freelist) (htakes : s.phys.Takes t.phys)
    (hmapped : ∀ b, reached b → pd'.pte b = Pte.blank) (hother : ∀ b < wordSize, ¬reached b → pd'.pte b = pd.pte b)
    (hlow : ∀ b, reached b → b < kernBase) :
    (∀ a < kernBase, presentPage p a t = presentPage p a s) ↔ ∀ b, reached b → (pd.pte b).present = false := by
  constructor
  · intro h b hb
    have hb' := h b (hlow b hb)
    rw [presentPage_some hpd, presentPage_some hpd', hmapped b hb, if_neg (by decide)] at hb'
    by_contra hp
    rw [Bool.not_eq_false] at hp
    rw [if_pos hp] at hb'
    cases hb'
  · intro h a ha
    rw [presentPage_some hpd, presentPage_some hpd']
    by_cases hr : reached a
    · rw [hmapped a hr, h a hr]
      rfl
    · rw [hother a (by simp only [kernBase, wordSize] at *; omega) hr]
      split
      · next hp =>
        obtain ⟨T, hT, hmem⟩ := htakes.taken
        rw [hmem]
        intro hin
        refine hfree a ha hp ?_
        rw [hT]
        exact List.mem_append_left _ hin
      · rfl

theorem pgRoundUp_rounds {sz newsz : Nat} (h : sz ≤ newsz) (hk : newsz < kernBase) :
    pgRoundUp sz % pgSize = 0 ∧ pgRoundUp sz + (newsz - pgRoundUp sz + pgSize - 1) / pgSize * pgSize = pgRoundUp newsz ∧
      pgRoundUp newsz ≤ kernBase := by
  simp only [pgRoundUp, pgSize, kernBase, wordSize] at *
  omega

/-- A growth that fails. -/
theorem grow_refused {n : Int} (hpd : (s.ptable p).pgdir = some pd) (hsz : (s.ptable p).sz ≤ kernBase) (hn : 0 < n)
    (hint : n < 2 ^ 31) (hfree : ∀ a < kernBase, (pd.pte a).present = true → (pd.pte a).frame ∉ s.phys.freelist)
    (h : growproc p n s = .ok (-1, s')) : Unchanged p s s' ↔ NothingToLose p n s pd := by
  unfold NothingToLose
  dsimp only
  rw [if_pos hn]
  generalize hsz₀ : (s.ptable p).sz = sz at *
  generalize hnew : ((sz + n) % wordSize).toNat = newsz at *
  have hle : sz ≤ newsz ∧ newsz ≠ 0 := by
    simp only [kernBase, wordSize] at *
    omega
  unfold growproc at h
  dsimp only at h
  rw [if_neg (by omega), hpd, deref_some, ok_bind, if_pos hn, hsz₀, hnew] at h
  by_cases hk : kernBase ≤ newsz
  · -- refused at once
    rw [allocuvm, if_pos hk] at h
    cases h
    refine iff_of_true ⟨by simp [Kernel.setPgdir], fun a _ => ?_, by simp [Kernel.setPgdir], rfl, rfl⟩ (.inl hk)
    rw [presentPage_some hpd, presentPage_some (show (((s.setPgdir p pd).ptable p).pgdir) = some pd by simp [Kernel.setPgdir])]
    rfl
  obtain ⟨hal, hend, htop⟩ := pgRoundUp_rounds hle.1 (by omega)
  rw [allocuvm, if_neg hk, if_neg (by omega)] at h
  dsimp only at h
  obtain ⟨done, pd₁, m₁, hloop, hbl, -, -⟩ := allocuvmLoop_blank p ((newsz - pgRoundUp sz + pgSize - 1) / pgSize) (pgRoundUp sz) pd s hal
    (by rw [hend]; simp only [kernBase, wordSize] at *; omega)
  have hr := allocuvmLoop_reaches hal (by rw [hend]; simp only [kernBase, wordSize] at *; omega) hloop
  obtain ⟨hmapped, hother, hdone, -⟩ := hr
  rw [hend] at hmapped hother hdone
  have hkept : ∀ t : Kernel, t.phys = m₁ → (t.ptable p).pgdir = some pd₁ → ((∀ a < kernBase, presentPage p a t = presentPage p a s) ↔
      ∀ b, GetsTo pd s.phys sz newsz b → (pd.pte b).present = false) := by
    intro t ht htp
    refine presentPage_kept hpd htp hfree (by rw [ht]; exact hbl.takes) (fun b hb => hmapped b hb.1 hb.2.1 hb.2.2) hother ?_
    intro b hb
    have := hb.2.1
    omega
  rw [hloop, ok_bind] at h
  dsimp only at h
  simp only [pure_ok, ok_bind] at h
  cases done with
  | false =>
    -- the tables ran out: what was mapped stays
    simp only [Bool.false_eq_true, if_false, if_true] at h
    cases h
    have hout : ∃ b, pgRoundUp sz ≤ b ∧ b < pgRoundUp newsz ∧ ¬GetsTo pd s.phys sz newsz b := by
      by_contra hall
      refine absurd (hdone.2 fun b h1 h2 => ?_) (by decide)
      by_contra hb
      exact hall ⟨b, h1, h2, fun hg => hb hg.2.2⟩
    have hp := hkept (({ s with phys := m₁ } : Kernel).setPgdir p pd₁) rfl (by simp [Kernel.setPgdir])
    constructor
    · intro hu
      exact .inr ⟨hp.1 hu.pages, .inr hout⟩
    · rintro (hk' | ⟨hlow, -⟩)
      · exact absurd hk' hk
      · exact ⟨by simp [Kernel.setPgdir], hp.2 hlow, by simp [Kernel.setPgdir], rfl, rfl⟩
  | true =>
    simp only [if_true, if_neg hle.2] at h
    have hall := hdone.1 rfl
    have hin : ¬∃ b, pgRoundUp sz ≤ b ∧ b < pgRoundUp newsz ∧ ¬GetsTo pd s.phys sz newsz b := by
      rintro ⟨b, h1, h2, h3⟩
      exact h3 ⟨h1, h2, hall b h1 h2⟩
    obtain ⟨⟨r, s₁⟩, hslots, h⟩ := bind_eq_ok.1 h
    dsimp only at h
    split at h
    swap
    · obtain ⟨-, -, h⟩ := bind_eq_ok.1 h
      cases h
    next hr =>
    cases h
    obtain ⟨hnone, hsome⟩ := growprocLoop_fails hr hslots
    have hswap : ((({ s with phys := m₁ } : Kernel).setPgdir p pd₁)).swap = s.swap := rfl
    rw [hswap] at hnone hsome
    cases hf : freeSlot? s.swap with
    | some f =>
      -- a slot has been taken for the first page
      refine iff_of_false (fun hu => hsome f hf ?_) ?_
      · rw [hu.bitmap]
        exact freeSlot?_some hf
      · rintro (hk' | ⟨-, hno | hex⟩)
        · exact hk hk'
        · cases hno
        · exact hin hex
    | none =>
      obtain ⟨hphys, hbit, hfr, hself⟩ := hnone hf
      have hp := hkept s' hphys (by rw [hself]; simp [Kernel.setPgdir])
      constructor
      · intro hu
        exact .inr ⟨hp.1 hu.pages, .inl rfl⟩
      · rintro (hk' | ⟨hlow, -⟩)
        · exact absurd hk' hk
        · refine ⟨by rw [hself]; simp [Kernel.setPgdir], hp.2 hlow, by rw [hself]; simp [Kernel.setPgdir], hfr, hbit⟩

/-- A shrink that fails: to nothing. -/
theorem shrink_refused {n : Int} (hpd : (s.ptable p).pgdir = some pd) (hsz : (s.ptable p).sz ≤ kernBase) (hn : n < 0)
    (h : growproc p n s = .ok (-1, s')) : Unchanged p s s' ↔ ∀ b < (s.ptable p).sz, (pd.pte b).present = false := by
  generalize hsz₀ : (s.ptable p).sz = sz at *
  generalize hnew : ((sz + n) % wordSize).toNat = newsz at *
  unfold growproc at h
  dsimp only at h
  rw [if_neg (by omega), hpd, deref_some, ok_bind, if_neg (by omega), hsz₀, hnew] at h
  obtain ⟨⟨r, pd₁, m₁⟩, hde, h⟩ := bind_eq_ok.1 h
  dsimp only at h
  split at h
  swap
  · obtain ⟨-, -, h⟩ := bind_eq_ok.1 h
    cases h
  next hr =>
  cases h
  subst hr
  have hself : ∀ pd', ((s.setPgdir p pd').ptable p) = { s.ptable p with pgdir := some pd' } := by simp [Kernel.setPgdir]
  have hsame : pd₁ = pd → m₁ = s.phys → Unchanged p s { s.setPgdir p pd₁ with phys := m₁ } := by
    rintro rfl rfl
    refine ⟨by rw [hself], fun a _ => ?_, by rw [hself], rfl, rfl⟩
    rw [presentPage_some hpd, presentPage_some (by rw [hself])]
  unfold deallocuvm at hde
  split at hde
  · next hle =>
    cases hde
    refine iff_of_true (hsame rfl rfl) fun b hb => ?_
    omega
  · obtain ⟨⟨pd₂, m₂⟩, hl, hde⟩ := bind_eq_ok.1 hde
    cases hde
    constructor
    · intro hu b hb
      have hd := deallocuvmLoop_uses hsz (by decide) hl
      have hb' := hu.pages b (by omega)
      rw [presentPage_some hpd, presentPage_some (by rw [hself]), hd.gone b (Nat.zero_le b) hb, if_neg (by decide)] at hb'
      by_contra hp
      rw [Bool.not_eq_false] at hp
      rw [if_pos hp] at hb'
      cases hb'
    · intro hnone
      rw [deallocuvmLoop_blank hnone hsz s.phys (2 ^ 20) (pgRoundUp 0) (by decide) (by simp only [pgRoundUp, pgSize, kernBase] at *; omega)] at hl
      cases hl
      exact hsame rfl rfl

/-- A failed `growproc` leaves the process as it was exactly when there was nothing to lose. The pages of the process
are not on the free list. -/
theorem refused_unchanged_iff {n : Int} (hpd : (s.ptable p).pgdir = some pd) (hsz : (s.ptable p).sz ≤ kernBase) (hint : n < 2 ^ 31)
    (hfree : ∀ a < kernBase, (pd.pte a).present = true → (pd.pte a).frame ∉ s.phys.freelist)
    (h : growproc p n s = .ok (-1, s')) : Unchanged p s s' ↔ NothingToLose p n s pd := by
  rcases lt_trichotomy n 0 with hn | rfl | hn
  · rw [shrink_refused hpd hsz hn h]
    unfold NothingToLose
    dsimp only
    rw [if_neg (by omega)]
  · cases h
  · exact grow_refused hpd hsz hn hint hfree h

/-- The process asks for more than there is below the kernel. -/
theorem refused_unchanged_iff_large : ∃ s', growproc 0 (2 ^ 31 - 1) smallKernel = .ok (-1, s') ∧ Unchanged 0 smallKernel s' := by
  obtain ⟨⟨r, s'⟩, h⟩ := exists_of_isOk (x := growproc 0 (2 ^ 31 - 1) smallKernel) (by decide +kernel)
  have hr : (growproc 0 (2 ^ 31 - 1) smallKernel).toOption.map (·.1) = some (-1) := by decide +kernel
  rw [h] at hr
  cases hr
  have hpd : (smallKernel.ptable 0).pgdir = some smallDir := rfl
  refine ⟨s', h, (refused_unchanged_iff hpd (by decide) (by decide) (fun a _ hp => ?_) h).2 ?_⟩
  · have hblank : (smallDir.pte a).present = false := by
      rw [PageDir.pte, PageDir.pte?, smallDir]
      dsimp only
      split <;> rfl
    rw [hblank] at hp
    cases hp
  · exact .inl (by decide)

/-- `sbrk(-sz)` of a process with a page: the page is gone, and the call has failed. -/
theorem refused_shrink_loses : ∃ f s s', touch 0 0 false smallKernel = .ok (f, s) ∧ growproc 0 (-(2 * pgSize)) s = .ok (-1, s') ∧
    ¬Unchanged 0 s s' := by
  have hrun : (match touch 0 0 false smallKernel with
    | .ok (_, s) =>
      (presentPage 0 0 s).isSome && match growproc 0 (-(2 * pgSize)) s with
        | .ok (r, s') => decide (r = -1) && (presentPage 0 0 s').isNone
        | .error _ => false
    | .error _ => false) = true := by decide +kernel
  split at hrun
  · next f s htouch =>
    rw [Bool.and_eq_true] at hrun
    obtain ⟨hpage, hrun⟩ := hrun
    split at hrun
    · next r s' hgrow =>
      simp only [Bool.and_eq_true, decide_eq_true_eq] at hrun
      obtain ⟨rfl, hgone⟩ := hrun
      refine ⟨f, s, s', htouch, hgrow, fun hu => ?_⟩
      rw [hu.pages 0 (by decide)] at hgone
      cases hp : presentPage 0 0 s with
      | none =>
        rw [hp] at hpage
        cases hpage
      | some pg =>
        rw [hp] at hgone
        cases hgone
    · cases hrun
  · cases hrun

end DemandPaging
