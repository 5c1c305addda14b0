/-
Page tables as they lie in physical memory: a page directory and its tables are pages of 1024
words, an entry is a word with a frame in its upper 20 bits and flags below. `walkpgdir` and
`mappages` on words make the table a map from pages to entries, and on aligned arguments they do
what the functions on trees of tables do.
-/
import DemandPaging.Kernel.State
import DemandPaging.Memory.Tables

namespace DemandPaging

namespace Words

/-! ## `walkpgdir` and `mappages` -/

abbrev Word := BitVec 32

/-- The words of the physical pages, and the free pages. -/
structure Mem where
  word : Nat → Fin 1024 → Word
  freelist : List Nat

/-- A store of a word. -/
def Mem.set (m : Mem) (f : Nat) (i : Fin 1024) (w : Word) : Mem :=
  { m with word := Function.update m.word f (Function.update (m.word f) i w) }

/-- `memset(page, 0, PGSIZE)`. -/
def Mem.clear (m : Mem) (f : Nat) : Mem := { m with word := Function.update m.word f fun _ => 0 }

/-- `PTE_P`. -/
def pteP : Word := 1
/-- `PTE_W`. -/
def pteW : Word := 2
/-- `PTE_U`. -/
def pteU : Word := 4

/-- The frame that `PTE_ADDR` names. -/
def pteFrame (w : Word) : Nat := w.toNat / pgSize

/-- `walkpgdir` on the directory in frame `d`: the place of the entry. -/
def walkpgdir (d va : Nat) (alloc : Bool) (m : Mem) : Option (Nat × Fin 1024) × Mem :=
  let pde := m.word d (pdx va)
  if pde &&& pteP ≠ 0 then (some (pteFrame pde, ptx va), m)
  else if !alloc then (none, m)
  else
    match m.freelist with
    | [] => (none, m)
    | f :: fs =>
      let m := Mem.clear { m with freelist := fs } f
      (some (f, ptx va), m.set d (pdx va) (BitVec.ofNat 32 (f * pgSize) ||| pteP ||| pteW ||| pteU))

/-- The loop of `mappages`, on fuel. -/
def mappagesLoop (d last : Nat) (perm setPte : Word) : Nat → Nat → Word → Mem → Option (Int × Mem)
  | 0, _, _, _ => none
  | fuel + 1, a, pa, m =>
    match walkpgdir d a true m with
    | (none, m) => some (-1, m)
    | (some (f, i), m) =>
      let m := m.set f i (pa ||| perm ||| setPte)
      if a = last then some (0, m)
      else mappagesLoop d last perm setPte fuel ((a + pgSize) % wordSize) (pa + BitVec.ofNat 32 pgSize) m

/-- `mappages`: there are as many pages as rounds at most. -/
def mappages (d va size : Nat) (pa perm setPte : Word) (m : Mem) : Option (Int × Mem) :=
  mappagesLoop d (pgRoundDown ((va + size - 1) % wordSize)) perm setPte (2 ^ 20) (pgRoundDown va) pa m

/-! ## The table of an index -/

/-- The frame of the page table at an index of the directory. -/
def Mem.table? (m : Mem) (d : Nat) (i : Fin 1024) : Option Nat :=
  if m.word d i &&& pteP ≠ 0 then some (pteFrame (m.word d i)) else none

/-- `*walkpgdir(pgdir, va, 0)`, null when there is no page table for the address. -/
def Mem.pte? (m : Mem) (d va : Nat) : Option Word := (walkpgdir d va false m).1.map fun p => m.word p.1 p.2

/-- The same with zero for an entry that is not there. -/
def Mem.pte (m : Mem) (d va : Nat) : Word := (m.pte? d va).getD 0

/-- A directory whose entries point to tables of their own, with free pages in no use. -/
structure Mem.Dir (m : Mem) (d : Nat) : Prop where
  distinct : ∀ i j f, m.table? d i = some f → m.table? d j = some f → i = j
  apart : ∀ i, m.table? d i ≠ some d
  free : d ∉ m.freelist ∧ ∀ i f, m.table? d i = some f → f ∉ m.freelist
  nodup : m.freelist.Nodup
  physical : ∀ f ∈ m.freelist, f < 2 ^ 20

section Lookup

variable {m : Mem} {d f va b : Nat} {i j : Fin 1024} {w : Word}

theorem walkpgdir_lookup (m : Mem) (d va : Nat) :
    walkpgdir d va false m = ((m.table? d (pdx va)).map fun f => (f, ptx va), m) := by
  unfold walkpgdir Mem.table?
  by_cases hp : m.word d (pdx va) &&& pteP ≠ 0
  · rw [if_pos hp, if_pos hp]
    rfl
  · rw [if_neg hp, if_neg hp]
    rfl

theorem pte?_eq (m : Mem) (d va : Nat) : m.pte? d va = (m.table? d (pdx va)).map fun f => m.word f (ptx va) := by
  rw [Mem.pte?, walkpgdir_lookup, Option.map_map]
  rfl

/-- The entry that links a new table. -/
theorem link_table (hf : f < 2 ^ 20) : (BitVec.ofNat 32 (f * pgSize) ||| pteP ||| pteW ||| pteU) &&& pteP ≠ 0 ∧
    pteFrame (BitVec.ofNat 32 (f * pgSize) ||| pteP ||| pteW ||| pteU) = f := by
  constructor
  · intro h
    have := congrArg (fun w => BitVec.getLsbD w 0) h
    simp [pteP, pteW, pteU] at this
  · have hlt : f * pgSize < 2 ^ 32 := by simp only [pgSize]; omega
    have h7 : (BitVec.ofNat 32 (f * pgSize) ||| pteP ||| pteW ||| pteU).toNat = f * 2 ^ 12 ||| 7 := by
      simp only [BitVec.toNat_or, BitVec.toNat_ofNat, Nat.mod_eq_of_lt hlt, pteP, pteW, pteU, Nat.or_assoc]
      rfl
    rw [pteFrame, h7, pgSize, show 4096 = 2 ^ 12 from rfl, ← Nat.shiftRight_eq_div_pow, Nat.shiftRight_or_distrib,
      Nat.shiftRight_eq_div_pow, Nat.mul_div_cancel _ (by decide)]
    exact Nat.or_zero f

/-- A store outside the directory leaves its entries. -/
theorem table?_set_other (hf : f ≠ d) : (m.set f i w).table? d j = m.table? d j := by
  simp [Mem.table?, Mem.set, Function.update_of_ne hf.symm]

/-- A store through an entry of a table: that entry changes and no other. -/
theorem pte?_set (h : m.Dir d) (hf : m.table? d i = some f) :
    (m.set f j w).pte? d b = if pdx b = i ∧ ptx b = j then some w else m.pte? d b := by
  have hd : f ≠ d := fun hfd => h.apart i (hfd ▸ hf)
  rw [pte?_eq, pte?_eq, table?_set_other hd]
  split_ifs with hb
  · rw [hb.1, hf, hb.2]
    simp [Mem.set]
  · refine Option.map_congr fun g hg => ?_
    by_cases hgf : g = f
    · subst hgf
      have hi : pdx b = i := h.distinct _ _ _ hg hf
      have hj : ptx b ≠ j := fun hj => hb ⟨hi, hj⟩
      simp [Mem.set, hj]
    · simp [Mem.set, hgf]

theorem Mem.Dir.set (h : m.Dir d) (hf : m.table? d i = some f) : (m.set f j w).Dir d := by
  have hd : f ≠ d := fun hfd => h.apart i (hfd ▸ hf)
  have htab : ∀ k, (m.set f j w).table? d k = m.table? d k := fun k => table?_set_other hd
  constructor
  · simp only [htab]; exact h.distinct
  · simp only [htab]; exact h.apart
  · simp only [htab]; exact h.free
  · exact h.nodup
  · exact h.physical

end Lookup

/-! ## A new table -/

section Link

variable {m m' : Mem} {d va b f : Nat} {fs : List Nat}

/-- The memory after a page has been made an empty table. -/
def Mem.link (m : Mem) (d : Nat) (i : Fin 1024) (f : Nat) (fs : List Nat) : Mem :=
  (Mem.clear { m with freelist := fs } f).set d i (BitVec.ofNat 32 (f * pgSize) ||| pteP ||| pteW ||| pteU)

theorem table?_link {i j : Fin 1024} (h : m.Dir d) (hfl : m.freelist = f :: fs) :
    (m.link d i f fs).table? d j = if j = i then some f else m.table? d j := by
  have hd : d ≠ f := by
    rintro rfl
    exact h.free.1 (by simp [hfl])
  obtain ⟨hp, hframe⟩ := link_table (h.physical f (by simp [hfl]))
  split_ifs with hj
  · subst hj
    simp only [Mem.table?, Mem.link, Mem.set, Function.update_self]
    rw [if_pos hp, hframe]
  · simp [Mem.table?, Mem.link, Mem.set, Mem.clear, hj, Function.update_of_ne hd]

/-- The new table holds zeros, as the missing one did. -/
theorem pte_link (h : m.Dir d) {i : Fin 1024} (hfl : m.freelist = f :: fs) (hno : m.table? d i = none) :
    (m.link d i f fs).pte d b = m.pte d b := by
  have hd : f ≠ d := by
    rintro rfl
    exact h.free.1 (by simp [hfl])
  rw [Mem.pte, Mem.pte, pte?_eq, pte?_eq, table?_link h hfl]
  split_ifs with hb
  · rw [hb, hno]
    simp [Mem.link, Mem.set, Mem.clear, hd]
  · congr 1
    refine Option.map_congr fun g hg => ?_
    have hgd : g ≠ d := fun hgd => h.apart _ (hgd ▸ hg)
    have hgf : g ≠ f := by
      rintro rfl
      exact h.free.2 _ _ hg (by simp [hfl])
    simp [Mem.link, Mem.set, Mem.clear, hgd, hgf]

theorem Mem.Dir.link (h : m.Dir d) {i : Fin 1024} (hfl : m.freelist = f :: fs) : (m.link d i f fs).Dir d := by
  have hnew : ∀ j, m.table? d j ≠ some f := fun j hj => h.free.2 j f hj (by simp [hfl])
  have hfree : d ≠ f ∧ d ∉ fs := by simpa [hfl] using h.free.1
  have hnodup : f ∉ fs ∧ fs.Nodup := by simpa [hfl] using h.nodup
  constructor
  · intro j k g hj hk
    rw [table?_link h hfl] at hj hk
    split_ifs at hj hk with h1 h2 h2
    · rw [h1, h2]
    · cases hj; exact absurd hk (hnew k)
    · cases hk; exact absurd hj (hnew j)
    · exact h.distinct j k g hj hk
  · intro j hj
    rw [table?_link h hfl] at hj
    split_ifs at hj
    · cases hj; exact hfree.1 rfl
    · exact h.apart j hj
  · refine ⟨hfree.2, fun j g hj => ?_⟩
    rw [table?_link h hfl] at hj
    split_ifs at hj
    · cases hj; exact hnodup.1
    · intro hg
      exact h.free.2 j g hj (by rw [hfl]; exact List.mem_cons_of_mem f hg)
  · exact hnodup.2
  · intro g hg
    exact h.physical g (by rw [hfl]; exact List.mem_cons_of_mem f hg)

/-- What `walkpgdir` does when it may allocate: it fails without a page for a table that is missing, and
otherwise there is a table and no entry has changed. -/
theorem walkpgdir_alloc (h : m.Dir d) (va : Nat) :
    (m.table? d (pdx va) = none ∧ m.freelist = [] ∧ walkpgdir d va true m = (none, m)) ∨
    ∃ f m', walkpgdir d va true m = (some (f, ptx va), m') ∧ m'.Dir d ∧ m'.table? d (pdx va) = some f ∧
      (m' = m ∨ m.table? d (pdx va) = none ∧ ∃ fs, m.freelist = f :: fs ∧ m' = m.link d (pdx va) f fs) := by
  by_cases hp : m.word d (pdx va) &&& pteP ≠ 0
  · refine .inr ⟨_, m, ?_, h, if_pos hp, .inl rfl⟩
    rw [walkpgdir, if_pos hp]
  · have hno : m.table? d (pdx va) = none := if_neg hp
    cases hfl : m.freelist with
    | nil =>
      refine .inl ⟨hno, rfl, ?_⟩
      rw [walkpgdir, if_neg hp, hfl]
      rfl
    | cons f fs =>
      refine .inr ⟨f, m.link d (pdx va) f fs, ?_, h.link hfl, ?_, .inr ⟨hno, fs, rfl, rfl⟩⟩
      · rw [walkpgdir, if_neg hp, hfl]
        rfl
      · rw [table?_link h hfl, if_pos rfl]

end Link

/-! ## The map -/

/-- The first `j` pages from `a` on have their entries, and that is all. -/
structure Mem.Mapped (m : Mem) (d a j : Nat) (pa perm setPte : Word) (m' : Mem) : Prop where
  dir : m'.Dir d
  tables : ∀ i f, m.table? d i = some f → m'.table? d i = some f
  entry : ∀ k < j, m'.pte? d (a + k * pgSize) = some ((pa + BitVec.ofNat 32 (k * pgSize)) ||| perm ||| setPte)
  other : ∀ b < wordSize, (∀ k < j, b / pgSize ≠ a / pgSize + k) → m'.pte d b = m.pte d b

section Map

variable {m m₁ m₂ : Mem} {d a j : Nat} {pa perm setPte : Word}

theorem Mem.Mapped.refl (h : m.Dir d) (a : Nat) (pa perm setPte : Word) : m.Mapped d a 0 pa perm setPte m :=
  ⟨h, fun _ _ hi => hi, fun _ hk => absurd hk (Nat.not_lt_zero _), fun _ _ _ => rfl⟩

/-- One round of `mappages`. -/
theorem walkpgdir_mapped (h : m.Dir d) (ha : a < wordSize) (pa perm setPte : Word) :
    (m.freelist = [] ∧ walkpgdir d a true m = (none, m)) ∨ ∃ f i m', walkpgdir d a true m = (some (f, i), m') ∧
      m.Mapped d a 1 pa perm setPte (m'.set f i (pa ||| perm ||| setPte)) := by
  rcases walkpgdir_alloc h a with ⟨-, hfl, hwalk⟩ | ⟨f, m', hwalk, hdir, hf, hm'⟩
  · exact .inl ⟨hfl, hwalk⟩
  have hd : f ≠ d := fun hfd => hdir.apart _ (hfd ▸ hf)
  refine .inr ⟨f, ptx a, m', hwalk, hdir.set hf, fun i g hg => ?_, fun k hk => ?_, fun b hb hne => ?_⟩
  · rw [table?_set_other hd]
    rcases hm' with rfl | ⟨hno, fs, hfl, rfl⟩
    · exact hg
    · rw [table?_link h hfl, if_neg]
      · exact hg
      · rintro rfl
        rw [hno] at hg
        cases hg
  · obtain rfl : k = 0 := by omega
    rw [pte?_set hdir hf, if_pos (by simp)]
    simp
  · have hpage : ¬(pdx b = pdx a ∧ ptx b = ptx a) := by
      rw [index_eq_iff hb ha]
      exact hne 0 (by omega)
    rw [Mem.pte, pte?_set hdir hf, if_neg hpage]
    rcases hm' with rfl | ⟨hno, fs, hfl, rfl⟩
    · rfl
    · exact pte_link h hfl hno

/-- A round and the rounds after it. -/
theorem Mem.Mapped.cons (ha : a % pgSize = 0) (hw : a + j * pgSize < wordSize) (h : m.Mapped d a 1 pa perm setPte m₁)
    (h' : m₁.Mapped d (a + pgSize) j (pa + BitVec.ofNat 32 pgSize) perm setPte m₂) : m.Mapped d a (j + 1) pa perm setPte m₂ := by
  refine ⟨h'.dir, fun i f hi => h'.tables i f (h.tables i f hi), fun k hk => ?_, fun b hb hne => ?_⟩
  · cases k with
    | zero =>
      -- the table of the first page stays, and no later round stores to this entry
      have hentry := h.entry 0 (by omega)
      rw [Nat.zero_mul, Nat.add_zero] at hentry ⊢
      have hkeep : m₂.pte d a = m₁.pte d a := by
        refine h'.other a (by omega) fun k hk => ?_
        simp only [pgSize] at *
        omega
      have hsome : m₂.pte? d a ≠ none := by
        cases hf : m₁.table? d (pdx a) with
        | none => rw [pte?_eq, hf] at hentry; cases hentry
        | some f => rw [pte?_eq, h'.tables _ f hf]; simp
      obtain ⟨w, hw⟩ := Option.ne_none_iff_exists'.1 hsome
      rw [Mem.pte, Mem.pte, hw, hentry] at hkeep
      rw [hw]
      exact congrArg some hkeep
    | succ k =>
      have hk' := h'.entry k (by omega)
      rw [show a + pgSize + k * pgSize = a + (k + 1) * pgSize by ring] at hk'
      rw [hk', BitVec.add_assoc, ← BitVec.ofNat_add, show pgSize + k * pgSize = (k + 1) * pgSize by ring]
  · rw [h'.other b hb, h.other b hb]
    · intro k hk
      have := hne 0 (by omega)
      omega
    · intro k hk
      have := hne (k + 1) (by omega)
      simp only [pgSize] at *
      omega

/-- The loop maps the pages up to the last, or stops at the first page whose table cannot be made. -/
theorem mappagesLoop_mapped (d : Nat) (perm setPte : Word) : ∀ (n fuel a : Nat) (pa : Word) (m : Mem), m.Dir d → a % pgSize = 0 →
    a + n * pgSize < wordSize → n < fuel → ∃ r j m', mappagesLoop d (a + n * pgSize) perm setPte fuel a pa m = some (r, m') ∧
      m.Mapped d a j pa perm setPte m' ∧ (r = 0 ∧ j = n + 1 ∨ r = -1 ∧ j ≤ n)
  | n, 0, a, pa, m, _, _, _, hfuel => absurd hfuel (Nat.not_lt_zero _)
  | n, fuel + 1, a, pa, m, h, ha, hw, hfuel => by
    rw [mappagesLoop]
    rcases walkpgdir_mapped (a := a) h (by omega) pa perm setPte with ⟨-, hwalk⟩ | ⟨f, i, m₁, hwalk, hround⟩
    · rw [hwalk]
      exact ⟨-1, 0, m, rfl, Mem.Mapped.refl h a pa perm setPte, .inr ⟨rfl, by omega⟩⟩
    · rw [hwalk]
      dsimp only
      cases n with
      | zero =>
        rw [if_pos (by simp)]
        exact ⟨0, 1, _, rfl, hround, .inl ⟨rfl, rfl⟩⟩
      | succ n =>
        have hnext : a + (n + 1) * pgSize = a + pgSize + n * pgSize := by ring
        rw [if_neg (by simp only [pgSize]; omega), Nat.mod_eq_of_lt (by simp only [pgSize] at *; omega), hnext]
        obtain ⟨r, j, m₂, hloop, hmapped, hr⟩ := mappagesLoop_mapped d perm setPte n fuel (a + pgSize)
          (pa + BitVec.ofNat 32 pgSize) _ hround.dir (by simp only [pgSize] at *; omega) (by omega) (by omega)
        have hle : j ≤ n + 1 := by omega
        have hj : a + j * pgSize < wordSize := lt_of_le_of_lt (Nat.add_le_add_left (Nat.mul_le_mul_right _ hle) a) hw
        exact ⟨r, j + 1, m₂, hloop, hround.cons ha hj hmapped, by omega⟩

/-- The first address that a place in the tables maps. -/
def pageAddr (i t : Fin 1024) : Nat := i.val * 2 ^ 22 + t.val * 2 ^ 12

theorem pdx_pageAddr (i t : Fin 1024) : pdx (pageAddr i t) = i ∧ ptx (pageAddr i t) = t ∧ pageAddr i t < wordSize ∧
    pageAddr i t % pgSize = 0 := by
  have hi := i.isLt
  have ht := t.isLt
  simp only [pdx, ptx, pageAddr, Fin.ext_iff, wordSize, pgSize]
  omega

end Map

/-- `mappages` returns `0` with an entry for every page of the range, or `-1` with entries for the pages up to the first whose
table cannot be made; every other page keeps its entry, and a table that is new holds zeros outside the range that was mapped. -/
theorem mappages_map {m : Mem} {d va size : Nat} (h : m.Dir d) (hs : 0 < size) (hw : va + size ≤ wordSize)
    (pa perm setPte : Word) : ∃ r stop m', mappages d va size pa perm setPte m = some (r, m') ∧ stop % pgSize = 0 ∧
      (r = 0 ∧ stop = pgRoundDown (va + size - 1) + pgSize ∨
        r = -1 ∧ pgRoundDown va ≤ stop ∧ stop ≤ pgRoundDown (va + size - 1)) ∧
      (∀ b, pgRoundDown va ≤ b → b < stop →
        m'.pte? d b = some ((pa + BitVec.ofNat 32 (pgRoundDown b - pgRoundDown va)) ||| perm ||| setPte)) ∧
      (∀ b < wordSize, b < pgRoundDown va ∨ stop ≤ b → m'.pte d b = m.pte d b) ∧
      ∀ i f, m.table? d i = none → m'.table? d i = some f → ∀ t, pageAddr i t < pgRoundDown va ∨ stop ≤ pageAddr i t →
        m'.word f t = 0 := by
  obtain ⟨n, hn⟩ : ∃ n, pgRoundDown ((va + size - 1) % wordSize) = pgRoundDown va + n * pgSize :=
    ⟨(va + size - 1) / pgSize - va / pgSize, by simp only [pgRoundDown, wordSize, pgSize] at *; omega⟩
  have hlast : pgRoundDown (va + size - 1) = pgRoundDown va + n * pgSize := by
    rw [← hn, Nat.mod_eq_of_lt (by omega)]
  have hle := pgRoundDown_le (va + size - 1)
  obtain ⟨r, j, m', hmap, hmapped, hr⟩ := mappagesLoop_mapped d perm setPte n (2 ^ 20) (pgRoundDown va) pa m h
    (pgRoundDown_mod va) (by omega) (by simp only [wordSize, pgSize] at *; omega)
  have hmod := pgRoundDown_mod va
  have hother : ∀ b < wordSize, b < pgRoundDown va ∨ pgRoundDown va + j * pgSize ≤ b → m'.pte d b = m.pte d b := by
    intro b hb hout
    refine hmapped.other b hb fun k hk => ?_
    simp only [pgSize] at *
    omega
  refine ⟨r, pgRoundDown va + j * pgSize, m', by rw [mappages, hn, hmap], ?_, ?_, fun b hb hlt => ?_, hother, ?_⟩
  · simp only [pgSize] at *; omega
  · rw [hlast]
    rcases hr with ⟨rfl, rfl⟩ | ⟨rfl, hj⟩
    · exact .inl ⟨rfl, by ring⟩
    · refine .inr ⟨rfl, ?_, ?_⟩ <;> simp only [pgSize] <;> omega
  · -- an address of the `k`-th page has the entry of its first address
    have hdiv : va / pgSize ≤ b / pgSize := by
      simp only [pgRoundDown, pgSize] at hb ⊢; omega
    have hk : pgRoundDown b = pgRoundDown va + (b / pgSize - va / pgSize) * pgSize := by
      rw [pgRoundDown, pgRoundDown, ← Nat.add_mul, Nat.add_sub_cancel' hdiv]
    have hentry := hmapped.entry (b / pgSize - va / pgSize) (by simp only [pgRoundDown, pgSize] at *; omega)
    rw [← hk] at hentry
    rw [hk, Nat.add_sub_cancel_left, ← hentry, pte?_eq, pte?_eq]
    have hd : pdx b = pdx (pgRoundDown b) ∧ ptx b = ptx (pgRoundDown b) := by
      simp only [pdx, ptx, pgRoundDown, Fin.mk.injEq, pgSize]
      omega
    rw [hd.1, hd.2]
  · intro i f hno hf t hout
    obtain ⟨hpdx, hptx, hlt, hal⟩ := pdx_pageAddr i t
    have hkeep := hother (pageAddr i t) hlt hout
    rw [Mem.pte, Mem.pte, pte?_eq, pte?_eq, hpdx, hptx, hno, hf] at hkeep
    exact hkeep

/-- An empty directory in page `0`, and two free pages. -/
def freshMem : Mem := ⟨fun _ _ => 0, [1, 2]⟩

theorem freshMem_dir : freshMem.Dir 0 := by
  have hno : ∀ i, freshMem.table? 0 i = none := fun i => if_neg (by simp [freshMem])
  constructor
  · simp [hno]
  · simp [hno]
  · exact ⟨by decide, fun i f hf => by rw [hno] at hf; cases hf⟩
  · decide
  · decide

/-- A range of two pages on both sides of a table's end. -/
theorem mappages_map_crossing : ∃ stop m', mappages 0 0x3fffff 2 0x5000 6 1 freshMem = some (0, m') ∧
    stop = 0x401000 ∧ m'.pte? 0 0x400000 = some 0x6007 := by
  have hr : (mappages 0 0x3fffff 2 0x5000 6 1 freshMem).map Prod.fst = some 0 := by decide +kernel
  obtain ⟨r, stop, m', hmap, -, hstop, hin, -⟩ := mappages_map freshMem_dir (show 0 < 2 by decide)
    (show 0x3fffff + 2 ≤ wordSize by decide) 0x5000 6 1
  rw [hmap] at hr
  cases hr
  obtain ⟨-, rfl⟩ | ⟨h, -⟩ := hstop
  · exact ⟨_, m', hmap, rfl, hin 0x400000 (by decide) (by decide)⟩
  · cases h

/-! ## Trees of tables -/

/-- The entry that a word is. -/
def pteOf (w : Word) : Pte := ⟨⟨w.getLsbD 0, w.getLsbD 1, w.getLsbD 2⟩, pteFrame w⟩

/-- The tree of tables that lies in memory. -/
structure Mem.Tree (m : Mem) (d : Nat) (pd : PageDir) : Prop where
  frame : pd.frame = d
  tables : ∀ i, m.table? d i = (pd.tables i).map PageTable.frame
  entries : ∀ i t, pd.tables i = some t → ∀ j, t.ptes j = pteOf (m.word t.frame j)

section Tree

variable {m : Mem} {d a f : Nat} {pd : PageDir} {p : Phys}

theorem pteOf_zero : pteOf 0 = Pte.zero := rfl

/-- What `mappages` stores, for a physical address that is aligned. -/
theorem pteOf_or {pa perm setPte : Word} (hpa : pa.toNat % pgSize = 0) (hperm : perm.toNat < pgSize) (hset : setPte.toNat < pgSize) :
    pteOf (pa ||| perm ||| setPte) =
      ⟨⟨perm.getLsbD 0 || setPte.getLsbD 0, perm.getLsbD 1 || setPte.getLsbD 1, perm.getLsbD 2 || setPte.getLsbD 2⟩,
        pa.toNat / pgSize⟩ := by
  have hbit : ∀ i < 12, pa.getLsbD i = false := by
    intro i hi
    rw [BitVec.getLsbD, ← Nat.div_add_mod pa.toNat pgSize, hpa, Nat.add_zero, pgSize, show 4096 = 2 ^ 12 from rfl,
      Nat.testBit_two_pow_mul]
    simp [Nat.not_le.2 hi]
  have hframe : pteFrame (pa ||| perm ||| setPte) = pa.toNat / pgSize := by
    simp only [pteFrame, BitVec.toNat_or, pgSize] at *
    rw [show 4096 = 2 ^ 12 from rfl, ← Nat.shiftRight_eq_div_pow, Nat.shiftRight_or_distrib, Nat.shiftRight_or_distrib,
      Nat.shiftRight_eq_div_pow perm.toNat, Nat.shiftRight_eq_div_pow setPte.toNat, Nat.div_eq_of_lt hperm, Nat.div_eq_of_lt hset,
      Nat.shiftRight_eq_div_pow]
    simp
  simp only [pteOf, BitVec.getLsbD_or, hbit 0 (by decide), hbit 1 (by decide), hbit 2 (by decide), Bool.false_or, hframe]

theorem Mem.Tree.set (h : m.Tree d pd) (hD : m.Dir d) (hf : m.table? d (pdx a) = some f) (w : Word) :
    (m.set f (ptx a) w).Tree d (pd.setPte a (pteOf w)) := by
  have hd : f ≠ d := fun hfd => hD.apart _ (hfd ▸ hf)
  rw [h.tables, Option.map_eq_some_iff] at hf
  obtain ⟨t, ht, rfl⟩ := hf
  refine ⟨by rw [setPte_frame, h.frame], fun i => ?_, fun i u hu j => ?_⟩
  · rw [table?_set_other hd, h.tables, PageDir.setPte, ht]
    by_cases hi : i = pdx a
    · subst hi; simp [ht]
    · simp [hi]
  · rw [PageDir.setPte, ht] at hu
    by_cases hi : i = pdx a
    · subst hi
      simp only [Function.update_self, Option.some.injEq] at hu
      subst hu
      by_cases hj : j = ptx a
      · subst hj; simp [Mem.set]
      · simp [Mem.set, hj, h.entries _ t ht j]
    · simp only [Function.update_of_ne hi] at hu
      -- a table at another index is another page
      have hne : u.frame ≠ t.frame := by
        intro huf
        refine hi (hD.distinct i (pdx a) t.frame ?_ ?_)
        · rw [h.tables, hu, Option.map_some, huf]
        · rw [h.tables, ht, Option.map_some]
      simp [Mem.set, hne, h.entries i u hu j]

theorem Mem.Tree.link {fs : List Nat} (h : m.Tree d pd) (hD : m.Dir d) (hfl : m.freelist = f :: fs) (i : Fin 1024) :
    (m.link d i f fs).Tree d { pd with tables := Function.update pd.tables i (some ⟨f, fun _ => Pte.zero⟩) } := by
  have hd : f ≠ d := by
    rintro rfl
    exact hD.free.1 (by simp [hfl])
  refine ⟨h.frame, fun j => ?_, fun j u hu k => ?_⟩
  · rw [table?_link hD hfl]
    split_ifs with hj
    · subst hj; simp
    · simp [hj, h.tables]
  · by_cases hj : j = i
    · subst hj
      simp only [Function.update_self, Option.some.injEq] at hu
      subst hu
      simp [Mem.link, Mem.set, Mem.clear, hd, ← pteOf_zero]
    · simp only [Function.update_of_ne hj] at hu
      have hu' : m.table? d j = some u.frame := by rw [h.tables, hu, Option.map_some]
      have hud : u.frame ≠ d := fun hud => hD.apart j (hud ▸ hu')
      have huf : u.frame ≠ f := fun huf => hD.free.2 j _ hu' (by simp [hfl, huf])
      simp [Mem.link, Mem.set, Mem.clear, hud, huf, h.entries j u hu k]

/-- A round on the words is a round on the tree. -/
theorem walkpgdir_tree (h : m.Tree d pd) (hD : m.Dir d) (hfl : m.freelist = p.freelist) (a : Nat) (w : Word) :
    (walkpgdir d a true m = (none, m) ∧ DemandPaging.walkpgdir pd a p = (none, p)) ∨
    ∃ f m' pd' p', walkpgdir d a true m = (some (f, ptx a), m') ∧ DemandPaging.walkpgdir pd a p = (some pd', p') ∧
      (m'.set f (ptx a) w).Dir d ∧ (m'.set f (ptx a) w).Tree d (pd'.setPte a (pteOf w)) ∧ m'.freelist = p'.freelist := by
  have hpres : pdx a ∈ pd.present ↔ m.table? d (pdx a) ≠ none := by
    rw [mem_present, h.tables]
    simp
  rcases walkpgdir_alloc hD a with ⟨hno, hnil, hwalk⟩ | ⟨f, m', hwalk, hdir, hf, rfl | ⟨hno, fs, hcons, rfl⟩⟩
  · refine .inl ⟨hwalk, ?_⟩
    rcases walkpgdir_cases pd a p with ⟨hp, -⟩ | ⟨-, -, htree⟩ | ⟨g, gs, -, hp, -⟩
    · exact absurd hno (hpres.1 hp)
    · exact htree
    · rw [← hfl, hnil] at hp; cases hp
  · refine .inr ⟨f, m', pd, p, hwalk, walkpgdir_present ?_, hdir.set hf, h.set hD hf w, hfl⟩
    rw [← mem_present, hpres, hf]
    simp
  · rcases walkpgdir_cases pd a p with ⟨hp, -⟩ | ⟨-, hp, -⟩ | ⟨g, gs, -, hp, htree⟩
    · exact absurd hno (hpres.1 hp)
    · rw [← hfl, hcons] at hp; cases hp
    · rw [← hfl, hcons] at hp
      cases hp
      exact .inr ⟨f, _, _, _, hwalk, htree, hdir.set hf, (h.link hD hcons (pdx a)).set hdir hf w, rfl⟩

/-- The loop on the words is the loop on the tree, for as many rounds. -/
theorem mappagesLoop_tree {perm : Word} (setPte : Word) (hperm : perm.toNat < pgSize) (hset : setPte.toNat < pgSize) :
    ∀ (n fuel a : Nat) (pa : Word) (m : Mem) (pd : PageDir) (p : Phys), m.Tree d pd → m.Dir d → m.freelist = p.freelist →
      pa.toNat % pgSize = 0 → a + n * pgSize < wordSize → n < fuel → ∃ r m' pd' p',
        mappagesLoop d (a + n * pgSize) perm setPte fuel a pa m = some (r, m') ∧
        DemandPaging.mappagesLoop ⟨perm.getLsbD 0 || setPte.getLsbD 0, perm.getLsbD 1 || setPte.getLsbD 1,
          perm.getLsbD 2 || setPte.getLsbD 2⟩ n a pa.toNat pd p = (r, pd', p') ∧
        m'.Tree d pd' ∧ m'.Dir d ∧ m'.freelist = p'.freelist
  | n, 0, a, pa, m, pd, p, _, _, _, _, _, hfuel => absurd hfuel (Nat.not_lt_zero _)
  | n, fuel + 1, a, pa, m, pd, p, h, hD, hfl, hpa, hw, hfuel => by
    rw [mappagesLoop, DemandPaging.mappagesLoop.eq_def]
    rcases walkpgdir_tree h hD hfl a (pa ||| perm ||| setPte) with ⟨hwalk, htree⟩ | ⟨f, m₁, pd₁, p₁, hwalk, htree, hD₁, h₁, hfl₁⟩
    · rw [hwalk, htree]
      exact ⟨-1, m, pd, p, rfl, rfl, h, hD, hfl⟩
    rw [hwalk, htree]
    rw [pteOf_or hpa hperm hset] at h₁
    dsimp only
    cases n with
    | zero =>
      rw [if_pos (by simp)]
      exact ⟨0, _, _, _, rfl, rfl, h₁, hD₁, hfl₁⟩
    | succ n =>
      have hnext : a + (n + 1) * pgSize = a + pgSize + n * pgSize := by ring
      rw [if_neg (by simp only [pgSize]; omega), Nat.mod_eq_of_lt (by simp only [pgSize] at *; omega), hnext]
      have hstep : (pa + BitVec.ofNat 32 pgSize).toNat = (pa.toNat + pgSize) % wordSize := by
        simp [BitVec.toNat_add, pgSize, wordSize]
      have hmod : (pa + BitVec.ofNat 32 pgSize).toNat % pgSize = 0 := by
        rw [hstep]
        simp only [pgSize, wordSize] at *
        omega
      obtain ⟨r, m', pd', p', hloop, hloop', hrest⟩ := mappagesLoop_tree setPte hperm hset n fuel (a + pgSize)
        (pa + BitVec.ofNat 32 pgSize) _ _ p₁ h₁ hD₁ hfl₁ hmod (by omega) (by omega)
      rw [hstep] at hloop'
      exact ⟨r, m', pd', p', hloop, hloop', hrest⟩

/-- On a tree of tables that lies in memory, `mappages` of an aligned physical address has the same result on the words as on the
tree. -/
theorem mappages_tree {va size : Nat} {pa perm setPte : Word} (h : m.Tree d pd) (hD : m.Dir d) (hfl : m.freelist = p.freelist)
    (hs : 0 < size) (hw : va + size ≤ wordSize) (hpa : pa.toNat % pgSize = 0) (hperm : perm.toNat < pgSize) (hset : setPte.toNat ≤ 1) :
    ∃ r m' pd' p', mappages d va size pa perm setPte m = some (r, m') ∧
      DemandPaging.mappages pd va size pa.toNat ⟨perm.getLsbD 0, perm.getLsbD 1, perm.getLsbD 2⟩ (setPte.getLsbD 0) p = (r, pd', p') ∧
      m'.Tree d pd' ∧ m'.Dir d ∧ m'.freelist = p'.freelist := by
  have hbit : ∀ i, 0 < i → setPte.getLsbD i = false := by
    intro i hi
    have h2 : 2 ^ 1 ≤ 2 ^ i := Nat.pow_le_pow_right (by decide) hi
    exact Nat.testBit_lt_two_pow (by omega)
  obtain ⟨n, hn⟩ : ∃ n, pgRoundDown ((va + size - 1) % wordSize) = pgRoundDown va + n * pgSize :=
    ⟨(va + size - 1) / pgSize - va / pgSize, by simp only [pgRoundDown, wordSize, pgSize] at *; omega⟩
  have hlast : pgRoundDown va + n * pgSize < wordSize := by
    rw [← hn]
    exact lt_of_le_of_lt (pgRoundDown_le _) (Nat.mod_lt _ (by decide))
  have hrounds : subWord (pgRoundDown va + n * pgSize) (pgRoundDown va) / pgSize = n := by
    rw [subWord_le (Nat.le_add_right _ _) hlast, Nat.add_sub_cancel_left, Nat.mul_div_cancel _ (by decide)]
  obtain ⟨r, m', pd', p', hloop, hloop', hrest⟩ := mappagesLoop_tree setPte hperm (by simp only [pgSize]; omega) n (2 ^ 20)
    (pgRoundDown va) pa m pd p h hD hfl hpa hlast (by simp only [pgSize, wordSize] at *; omega)
  refine ⟨r, m', pd', p', by rw [mappages, hn, hloop], ?_, hrest⟩
  rw [hbit 1 (by decide), hbit 2 (by decide), Bool.or_false, Bool.or_false] at hloop'
  rw [DemandPaging.mappages, hn, hrounds]
  exact hloop'

theorem mappages_tree_crossing : ∃ r m' pd' p', mappages 0 0x3fffff 2 0x5000 6 1 freshMem = some (r, m') ∧
    DemandPaging.mappages ⟨0, fun _ => none⟩ 0x3fffff 2 0x5000 ⟨false, true, true⟩ true ⟨smallLayout, [1, 2], fun _ => zeroPage⟩ =
      (r, pd', p') := by
  have htree : freshMem.Tree 0 ⟨0, fun _ => none⟩ := ⟨rfl, fun i => if_neg (by simp [freshMem]), fun i t ht => by cases ht⟩
  obtain ⟨r, m', pd', p', hm, hp, -⟩ := mappages_tree htree freshMem_dir (p := ⟨smallLayout, [1, 2], fun _ => zeroPage⟩) rfl
    (show 0 < 2 by decide) (show 0x3fffff + 2 ≤ wordSize by decide) (show (0x5000 : Word).toNat % pgSize = 0 by decide)
    (show (6 : Word).toNat < pgSize by decide) (show (1 : Word).toNat ≤ 1 by decide)
  exact ⟨r, m', pd', p', hm, hp⟩

end Tree

end Words

end DemandPaging
