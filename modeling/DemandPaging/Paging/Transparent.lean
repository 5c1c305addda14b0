/-
Paging is transparent. For a process that only grows and uses the pages it has been given, the page tables,
the LRU ring, the swap list and the disk together are one flat memory: each page is in one place, and every
load finds the last byte stored.
-/
import DemandPaging.Lib.Refine
import DemandPaging.Paging.Growth

namespace DemandPaging

variable {p : ProcIdx} {s s' : Kernel} {pd : PageDir} {L : List SlotIdx} {E : List (Int × Nat)} {lo v a : Nat} {byte : Nat → UInt8}

/-! ## The invariant -/

/-- The address of a page between two addresses. -/
def IsPage (lo hi v : Nat) : Prop := lo ≤ v ∧ v < hi ∧ v % pgSize = 0

/-- A page of a flat memory. -/
def pageOf (byte : Nat → UInt8) (v : Nat) : Page := fun i => byte (v + i)

/-- Where the bytes of a page are: in a page of its own that the ring knows, or in a slot of the list. -/
inductive Placed (s : Kernel) (pid : Int) (L : List SlotIdx) (E : List (Int × Nat)) (pd : PageDir) (v : Nat) (pg : Page) : Prop
  | inMemory (f : Nat) (hpte : pd.pte? v = some ⟨⟨true, true, true⟩, f⟩) (hE : (pid, v) ∈ E)
      (hL : ∀ g ∈ L, (s.swap.frames g).vaddr ≠ v) (hm : s.phys.mem f = pg) (hf : f ∉ s.phys.freelist)
  | onDisk (y : SlotIdx) (f : Nat) (hpte : pd.pte? v = some ⟨⟨false, true, true⟩, f⟩) (hE : (pid, v) ∉ E) (hy : y ∈ L)
      (hv : (s.swap.frames y).vaddr = v) (hd : diskPage s.disk ((s.swap.frames y).swap.start + y * 8) = pg)

/-- The pages of the process from `lo` on hold the bytes: the list `L` and the ring `E` have nothing else, and each page once. -/
structure Paged (p : ProcIdx) (lo : Nat) (byte : Nat → UInt8) (L : List SlotIdx) (E : List (Int × Nat)) (pd : PageDir) (s : Kernel) :
    Prop where
  pgdir : (s.ptable p).pgdir = some pd
  owner : getProc (s.ptable p).pid s = some p
  base : lo % pgSize = 0
  aligned : (s.ptable p).sz % pgSize = 0
  low : lo ≤ (s.ptable p).sz
  high : (s.ptable p).sz ≤ kernBase
  list : SwapList s.swap (s.ptable p).swapList L
  unlocked : s.swap.lk = false
  used : ∀ g ∈ L, s.swap.bitmap g ≠ -1
  single : ∀ g ∈ L, (s.swap.frames g).count = 1
  ring : Queue s.lru E
  free : s.phys.freelist.Nodup
  slots : ∀ g ∈ L, IsPage lo (s.ptable p).sz (s.swap.frames g).vaddr
  distinct : ∀ g ∈ L, ∀ h ∈ L, (s.swap.frames g).vaddr = (s.swap.frames h).vaddr → g = h
  entries : ∀ e ∈ E, e.1 = (s.ptable p).pid ∧ IsPage lo (s.ptable p).sz e.2
  once : E.Nodup
  frames : ∀ v w f, IsPage lo (s.ptable p).sz v → IsPage lo (s.ptable p).sz w → pd.pte? v = some ⟨⟨true, true, true⟩, f⟩ →
    pd.pte? w = some ⟨⟨true, true, true⟩, f⟩ → v = w
  pages : ∀ v, IsPage lo (s.ptable p).sz v → Placed s (s.ptable p).pid L E pd v (pageOf byte v)

theorem IsPage.index_ne {hi w : Nat} (hk : hi ≤ kernBase) (hv : IsPage lo hi v) (hw : IsPage lo hi w) (hne : v ≠ w) :
    ¬(pdx v = pdx w ∧ ptx v = ptx w) := by
  obtain ⟨-, h1, h2⟩ := hv
  obtain ⟨-, h3, h4⟩ := hw
  rw [index_eq_iff (by simp only [kernBase, wordSize] at *; omega) (by simp only [kernBase, wordSize] at *; omega)]
  simp only [pgSize] at *
  omega

theorem Paged.frame_used {f : Nat} (h : Paged p lo byte L E pd s) (hv : IsPage lo (s.ptable p).sz v)
    (hpte : pd.pte? v = some ⟨⟨true, true, true⟩, f⟩) : f ∉ s.phys.freelist := by
  cases h.pages v hv with
  | inMemory f' hpte' hE hL hm hf =>
    rw [hpte] at hpte'
    cases hpte'
    exact hf
  | onDisk y f' hpte' hE hy hv' hd =>
    rw [hpte] at hpte'
    cases hpte'

/-! ## Eviction -/

/-- An eviction moves a page from memory to disk. -/
theorem Paged.evict {e : Int × Nat} {f : SlotIdx} (h : Paged p lo byte L (e :: E) pd s) (hlen : 2 ≤ E.length)
    (hf : freeSlot? s.swap = some f)
    (hclear : ∀ g, s.swap.bitmap g ≠ -1 → ¬collide .generic f (s.swap.frames g).swap g) :
    ∃ s₁ pd₁, DemandPaging.evict s = .ok s₁ ∧ Paged p lo byte (L ++ [f]) E pd₁ s₁ ∧ s₁.phys = s.phys ∧
      (s₁.ptable p).sz = (s.ptable p).sz ∧ (s₁.ptable p).pid = (s.ptable p).pid ∧
      ∀ g ∈ L, ∃ nx, s₁.swap.frames g = { s.swap.frames g with next := nx } := by
  obtain ⟨hpid, hpage⟩ := h.entries e List.mem_cons_self
  have heE : e ∉ E := (List.nodup_cons.1 h.once).1
  obtain ⟨fr, hpte, hslots, hmem, hfr⟩ : ∃ fr, pd.pte? e.2 = some ⟨⟨true, true, true⟩, fr⟩ ∧ (∀ g ∈ L, (s.swap.frames g).vaddr ≠ e.2) ∧
      s.phys.mem fr = pageOf byte e.2 ∧ fr ∉ s.phys.freelist := by
    cases h.pages e.2 hpage with
    | inMemory fr hpte hE hL hm hfr => exact ⟨fr, hpte, hL, hm, hfr⟩
    | onDisk y fr hpte hE hy hv hd =>
      rw [← hpid] at hE
      exact absurd List.mem_cons_self hE
  have hvictim : Victim s e p pd ⟨⟨true, true, true⟩, fr⟩ := ⟨by rw [hpid]; exact h.owner, h.pgdir, hpte, by simp [Pte.zero]⟩
  have hk : e.2 ≤ kernBase := by
    have := hpage.2.1
    have := h.high
    omega
  obtain ⟨l, hev, hl⟩ := evict_victim h.ring hlen hvictim hk h.list h.unlocked hf
  rw [List.erase_of_not_mem heE] at hl
  have hfree := freeSlot?_some hf
  have hfL : f ∉ L := fun hm => h.used f hm hfree
  have htab : pd.tables (pdx e.2) ≠ none := by
    rw [Ne, ← pte?_eq_none, hpte]
    simp
  generalize hs₁ : s.evicted e p L f pd ⟨⟨true, true, true⟩, fr⟩ l = s₁ at hev
  have hself : s₁.ptable p = { s.ptable p with
      writeBuffer := s.phys.mem fr
      swapList := (s.ptable p).swapList.or (some f)
      pgdir := some (pd.setPte e.2 ⟨⟨false, true, true⟩, fr⟩) } := by rw [← hs₁, evicted_self]
  have hswap : s₁.swap = s.swap.linked L .generic e.2 f := by rw [← hs₁]; rfl
  have hdisk : s₁.disk = writeswap (s.phys.mem fr) (SwapKind.generic.start + f * 8) s.disk := by
    rw [← hs₁, Kernel.evicted, Kernel.swappedOut, Kernel.setProc_same]
    rfl
  have hphys : s₁.phys = s.phys := by rw [← hs₁]; rfl
  have hold : ∀ g ∈ L, ∃ nx, s₁.swap.frames g = { s.swap.frames g with next := nx } := by
    intro g hg
    rw [hswap]
    exact linked_frame s.swap L .generic e.2 fun hc => hfL (hc ▸ hg)
  have hvaddr : ∀ g ∈ L, (s₁.swap.frames g).vaddr = (s.swap.frames g).vaddr := by
    intro g hg
    obtain ⟨nx, hnx⟩ := hold g hg
    rw [hnx]
  have hnew : s₁.swap.frames f = ⟨e.2, none, .generic, 1⟩ := by
    rw [hswap]
    simp [Swap.linked]
  refine ⟨s₁, pd.setPte e.2 ⟨⟨false, true, true⟩, fr⟩, hev, ?_, hphys, by rw [hself], by rw [hself], hold⟩
  have hsz : (s₁.ptable p).sz = (s.ptable p).sz := by rw [hself]
  have hid : (s₁.ptable p).pid = (s.ptable p).pid := by rw [hself]
  have hother : ∀ w, IsPage lo (s.ptable p).sz w → w ≠ e.2 → (pd.setPte e.2 ⟨⟨false, true, true⟩, fr⟩).pte? w = pd.pte? w :=
    fun w hw hne => pte?_setPte_other (hw.index_ne h.high hpage hne)
  have hgone : (pd.setPte e.2 ⟨⟨false, true, true⟩, fr⟩).pte? e.2 = some ⟨⟨false, true, true⟩, fr⟩ := pte?_setPte_same htab
  constructor
  case pgdir => rw [hself]
  case owner =>
    rw [hid, getProc_congr s s₁ fun q => ?_]
    · exact h.owner
    · by_cases hq : q = p
      · rw [hq, hid]
      · rw [← hs₁, evicted_other hq]
  case base => exact h.base
  case aligned => rw [hsz]; exact h.aligned
  case low => rw [hsz]; exact h.low
  case high => rw [hsz]; exact h.high
  case list =>
    rw [hself, hswap]
    exact h.list.linked hfL
  case unlocked => rw [hswap]; rfl
  case used =>
    intro g hg
    rw [hswap]
    show Function.update s.swap.bitmap f 1 g ≠ -1
    rw [Function.update_apply]
    split
    · decide
    · next hne =>
      rcases List.mem_append.1 hg with hg | hg
      · exact h.used g hg
      · exact absurd (List.mem_singleton.1 hg) hne
  case single =>
    intro g hg
    rcases List.mem_append.1 hg with hg | hg
    · obtain ⟨nx, hnx⟩ := hold g hg
      rw [hnx]
      exact h.single g hg
    · rw [List.mem_singleton.1 hg, hnew]
  case ring => rw [← hs₁]; exact hl
  case free => rw [hphys]; exact h.free
  case slots =>
    intro g hg
    rw [hsz]
    rcases List.mem_append.1 hg with hg | hg
    · obtain ⟨nx, hnx⟩ := hold g hg
      rw [hnx]
      exact h.slots g hg
    · rw [List.mem_singleton.1 hg, hnew]
      exact hpage
  case distinct =>
    intro g hg k hk' hgk
    rcases List.mem_append.1 hg with hg | hg <;> rcases List.mem_append.1 hk' with hk' | hk'
    · rw [hvaddr g hg, hvaddr k hk'] at hgk
      exact h.distinct g hg k hk' hgk
    · rw [List.mem_singleton.1 hk', hnew, hvaddr g hg] at hgk
      exact absurd hgk (hslots g hg)
    · rw [List.mem_singleton.1 hg, hnew, hvaddr k hk'] at hgk
      exact absurd hgk.symm (hslots k hk')
    · rw [List.mem_singleton.1 hg, List.mem_singleton.1 hk']
  case entries =>
    intro x hx
    rw [hid, hsz]
    exact h.entries x (List.mem_cons_of_mem _ hx)
  case once => exact (List.nodup_cons.1 h.once).2
  case frames =>
    intro v w fr' hv hw hpv hpw
    rw [hsz] at hv hw
    have hne : ∀ u, (pd.setPte e.2 ⟨⟨false, true, true⟩, fr⟩).pte? u = some ⟨⟨true, true, true⟩, fr'⟩ → u ≠ e.2 := by
      rintro u hu rfl
      rw [hgone] at hu
      cases hu
    rw [hother v hv (hne v hpv)] at hpv
    rw [hother w hw (hne w hpw)] at hpw
    exact h.frames v w fr' hv hw hpv hpw
  case pages =>
    intro v hv
    rw [hsz] at hv
    rw [hid]
    by_cases hve : v = e.2
    · -- the page that has gone
      subst hve
      refine .onDisk f fr hgone (by rw [← hpid]; exact heE) (by simp) (by rw [hnew]) ?_
      rw [hnew, hdisk, ← hmem]
      exact diskPage_writeswap_self _ _ _
    · cases h.pages v hv with
      | inMemory fr' hpte' hE hL hm hfr' =>
        refine .inMemory fr' (by rw [hother v hv hve]; exact hpte') ?_ ?_ (by rw [hphys]; exact hm) (by rw [hphys]; exact hfr')
        · rcases List.mem_cons.1 hE with hE | hE
          · exact absurd (congrArg Prod.snd hE) hve
          · exact hE
        · intro g hg
          rcases List.mem_append.1 hg with hg | hg
          · rw [hvaddr g hg]
            exact hL g hg
          · rw [List.mem_singleton.1 hg, hnew]
            exact Ne.symm hve
      | onDisk y fr' hpte' hE hy hyv hd =>
        obtain ⟨nx, hnx⟩ := hold y hy
        refine .onDisk y fr' (by rw [hother v hv hve]; exact hpte') (fun hc => hE (List.mem_cons_of_mem _ hc)) (List.mem_append_left _ hy)
          (by rw [hnx]; exact hyv) ?_
        rw [hnx, hdisk, ← hd]
        have hne : f.val ≠ y.val := by
          intro hc
          rw [Fin.ext hc] at hfL
          exact hfL hy
        exact diskPage_writeswap ((disjoint_iff_not_collide hne).2 (hclear y (h.used y hy))) _ _

/-! ## Bringing a page in -/

/-- Taking a slot off a list changes another one in its `next` only. -/
theorem unlinked_frame (sw : Swap) {y g : SlotIdx} (A : List SlotIdx) (hg : g ≠ y) :
    ∃ nx, (sw.unlinked A y).frames g = { sw.frames g with next := nx } := by
  simp only [Swap.unlinked, hg, if_false]
  split
  · exact ⟨_, rfl⟩
  · exact ⟨_, rfl⟩

/-- A page comes from its slot into a free page, and the ring has got an entry for it. -/
theorem Paged.bringIn {l : Lru} {y : SlotIdx} {f : Nat} {fl : List Nat} (h : Paged p lo byte L E pd s) (hv : IsPage lo (s.ptable p).sz v)
    (hy : y ∈ L) (hyv : (s.swap.frames y).vaddr = v) (hl : Queue l (E ++ [((s.ptable p).pid, v)])) (hfl : s.phys.freelist = f :: fl) :
    ∃ s₁ L₁ pd₁, swapInWith (s.swap.frames y).swap p v { s with lru := l } = .ok (0, s₁) ∧
      Paged p lo byte L₁ (E ++ [((s.ptable p).pid, v)]) pd₁ s₁ ∧ (s₁.ptable p).sz = (s.ptable p).sz ∧
      pd₁.pte? v = some ⟨⟨true, true, true⟩, f⟩ := by
  obtain ⟨A, B, rfl⟩ := List.append_of_mem hy
  have hnd := h.list.nodup
  have hyA : y ∉ A ∧ y ∉ B := by
    rw [List.nodup_append, List.nodup_cons] at hnd
    exact ⟨fun hc => hnd.2.2 y hc y List.mem_cons_self rfl, hnd.2.1.1⟩
  have hA : ∀ i ∈ A, (s.swap.frames i).vaddr ≠ v := by
    intro i hi hc
    rw [← hyv] at hc
    rw [h.distinct i (List.mem_append_left _ hi) y hy hc] at hi
    exact hyA.1 hi
  obtain ⟨fr, hpte, hE, hd⟩ : ∃ fr, pd.pte? v = some ⟨⟨false, true, true⟩, fr⟩ ∧ ((s.ptable p).pid, v) ∉ E ∧
      diskPage s.disk ((s.swap.frames y).swap.start + y * 8) = pageOf byte v := by
    cases h.pages v hv with
    | inMemory fr hpte hE hL hm hfr => exact absurd hyv (hL y hy)
    | onDisk y' fr hpte hE hy' hyv' hd =>
      rw [h.distinct y' hy' y hy (hyv'.trans hyv.symm)] at hd
      exact ⟨fr, hpte, hE, hd⟩
  have htab : pdx v ∈ pd.present := by
    rw [mem_present, Ne, ← pte?_eq_none, hpte]
    simp
  have hw : v < wordSize := by
    have := hv.2.1
    have := h.high
    simp only [kernBase, wordSize] at *
    omega
  have htake := takeSlot_last h.list h.unlocked hA hyv (h.single y hy)
  have hmap : ∀ m, mappages pd v pgSize (f * pgSize) ⟨false, true, true⟩ true m = (0, pd.setPte v ⟨⟨true, true, true⟩, f⟩, m) := by
    intro m
    rw [mappages_table _ _ _ _ _ hv.2.2 hw htab, Nat.mul_div_cancel _ (by decide)]
    rfl
  obtain ⟨s₁, hs₁⟩ : ∃ s₁, s₁ = ({ s with
      lru := l
      swap := s.swap.unlinked A y
      phys := ({ s.phys with freelist := fl }.setPage f (diskPage s.disk ((s.swap.frames y).swap.start + y * 8)))
      ptable := Function.update s.ptable p { s.ptable p with
        swapList := if A = [] then (s.swap.frames y).next else (s.ptable p).swapList
        pgdir := some (pd.setPte v ⟨⟨true, true, true⟩, f⟩) } } : Kernel) := ⟨_, rfl⟩
  have hself : s₁.ptable p = { s.ptable p with
      swapList := if A = [] then (s.swap.frames y).next else (s.ptable p).swapList
      pgdir := some (pd.setPte v ⟨⟨true, true, true⟩, f⟩) } := by rw [hs₁]; exact Function.update_self ..
  have hin : swapInWith (s.swap.frames y).swap p v { s with lru := l } = .ok (0, s₁) := by
    rw [hs₁]
    exact swapInWith_eq htake h.pgdir hfl (hmap _)
  have hsz : (s₁.ptable p).sz = (s.ptable p).sz := by rw [hself]
  have hid : (s₁.ptable p).pid = (s.ptable p).pid := by rw [hself]
  have hswap : s₁.swap = s.swap.unlinked A y := by rw [hs₁]
  have hhere : (pd.setPte v ⟨⟨true, true, true⟩, f⟩).pte? v = some ⟨⟨true, true, true⟩, f⟩ := pte?_setPte_same (mem_present.1 htab)
  have hother : ∀ w, IsPage lo (s.ptable p).sz w → w ≠ v → (pd.setPte v ⟨⟨true, true, true⟩, f⟩).pte? w = pd.pte? w :=
    fun w hw hne => pte?_setPte_other (hw.index_ne h.high hv hne)
  have hmem : ∀ g ∈ A ++ B, g ∈ A ++ y :: B ∧ g ≠ y := by
    intro g hg
    refine ⟨?_, ?_⟩
    · rcases List.mem_append.1 hg with hg | hg
      · exact List.mem_append_left _ hg
      · exact List.mem_append_right _ (List.mem_cons_of_mem _ hg)
    · rintro rfl
      rcases List.mem_append.1 hg with hg | hg
      · exact hyA.1 hg
      · exact hyA.2 hg
  have hold : ∀ g ∈ A ++ B, ∃ nx, s₁.swap.frames g = { s.swap.frames g with next := nx } := by
    intro g hg
    rw [hswap]
    exact unlinked_frame s.swap A (hmem g hg).2
  have hvaddr : ∀ g ∈ A ++ B, (s₁.swap.frames g).vaddr = (s.swap.frames g).vaddr := by
    intro g hg
    obtain ⟨nx, hnx⟩ := hold g hg
    rw [hnx]
  have hfree := h.free
  rw [hfl, List.nodup_cons] at hfree
  refine ⟨s₁, A ++ B, pd.setPte v ⟨⟨true, true, true⟩, f⟩, hin, ?_, hsz, hhere⟩
  constructor
  case pgdir => rw [hself]
  case owner =>
    rw [hid, getProc_congr s s₁ fun q => ?_]
    · exact h.owner
    · by_cases hq : q = p
      · rw [hq, hid]
      · rw [hs₁]
        simp [hq]
  case base => exact h.base
  case aligned => rw [hsz]; exact h.aligned
  case low => rw [hsz]; exact h.low
  case high => rw [hsz]; exact h.high
  case list =>
    rw [hself, hswap]
    exact h.list.unlinked
  case unlocked => rw [hswap]; rfl
  case used =>
    intro g hg
    obtain ⟨hg', hne⟩ := hmem g hg
    rw [hswap]
    show Function.update s.swap.bitmap y (-1) g ≠ -1
    rw [Function.update_of_ne hne]
    exact h.used g hg'
  case single =>
    intro g hg
    obtain ⟨nx, hnx⟩ := hold g hg
    rw [hnx]
    exact h.single g (hmem g hg).1
  case ring => rw [hs₁]; exact hl
  case free => rw [hs₁]; exact hfree.2
  case slots =>
    intro g hg
    rw [hsz, hvaddr g hg]
    exact h.slots g (hmem g hg).1
  case distinct =>
    intro g hg k hk hgk
    rw [hvaddr g hg, hvaddr k hk] at hgk
    exact h.distinct g (hmem g hg).1 k (hmem k hk).1 hgk
  case entries =>
    intro x hx
    rw [hid, hsz]
    rcases List.mem_append.1 hx with hx | hx
    · exact h.entries x hx
    · rw [List.mem_singleton.1 hx]
      exact ⟨rfl, hv⟩
  case once =>
    rw [List.nodup_append]
    refine ⟨h.once, List.nodup_singleton _, ?_⟩
    rintro x hx z hz rfl
    rw [List.mem_singleton.1 hz] at hx
    exact hE hx
  case frames =>
    intro u w fr' hu hw' hpu hpw
    rw [hsz] at hu hw'
    -- no other page is in the page that was free
    have hfresh : ∀ x, IsPage lo (s.ptable p).sz x → x ≠ v →
        (pd.setPte v ⟨⟨true, true, true⟩, f⟩).pte? x = some ⟨⟨true, true, true⟩, fr'⟩ → fr' ≠ f := by
      rintro x hx hne hpx rfl
      rw [hother x hx hne] at hpx
      exact h.frame_used hx hpx (by rw [hfl]; exact List.mem_cons_self)
    by_cases huv : u = v <;> by_cases hwv : w = v
    · rw [huv, hwv]
    · rw [huv, hhere] at hpu
      cases hpu
      exact absurd rfl (hfresh w hw' hwv hpw)
    · rw [hwv, hhere] at hpw
      cases hpw
      exact absurd rfl (hfresh u hu huv hpu)
    · rw [hother u hu huv] at hpu
      rw [hother w hw' hwv] at hpw
      exact h.frames u w fr' hu hw' hpu hpw
  case pages =>
    intro w hw'
    rw [hsz] at hw'
    rw [hid]
    have hphys : s₁.phys.freelist = fl ∧ s₁.phys.mem = Function.update s.phys.mem f (diskPage s.disk ((s.swap.frames y).swap.start + y * 8)) := by
      rw [hs₁]
      exact ⟨rfl, rfl⟩
    have hdisk : s₁.disk = s.disk := by rw [hs₁]
    by_cases hwv : w = v
    · subst hwv
      refine .inMemory f hhere (by simp) ?_ ?_ (by rw [hphys.1]; exact hfree.1)
      · intro g hg hc
        rw [hvaddr g hg, ← hyv] at hc
        obtain ⟨hg', hne⟩ := hmem g hg
        exact hne (h.distinct g hg' y hy hc)
      · rw [hphys.2, Function.update_self]
        exact hd
    · cases h.pages w hw' with
      | inMemory fr' hpte' hE' hL hm hfr' =>
        have hne : fr' ≠ f := by
          rintro rfl
          exact hfr' (by rw [hfl]; exact List.mem_cons_self)
        refine .inMemory fr' (by rw [hother w hw' hwv]; exact hpte') (List.mem_append_left _ hE') ?_ ?_ ?_
        · intro g hg
          rw [hvaddr g hg]
          exact hL g (hmem g hg).1
        · rw [hphys.2, Function.update_of_ne hne]
          exact hm
        · rw [hphys.1]
          intro hc
          exact hfr' (by rw [hfl]; exact List.mem_cons_of_mem _ hc)
      | onDisk y' fr' hpte' hE' hy' hyv' hd' =>
        have hne : y' ≠ y := by
          rintro rfl
          exact hwv (hyv'.symm.trans hyv)
        have hy'' : y' ∈ A ++ B := by
          rcases List.mem_append.1 hy' with hc | hc
          · exact List.mem_append_left _ hc
          · rcases List.mem_cons.1 hc with hc | hc
            · exact absurd hc hne
            · exact List.mem_append_right _ hc
        obtain ⟨nx, hnx⟩ := hold y' hy''
        refine .onDisk y' fr' (by rw [hother w hw' hwv]; exact hpte') ?_ hy'' (by rw [hnx]; exact hyv') (by rw [hnx, hdisk]; exact hd')
        intro hc
        rcases List.mem_append.1 hc with hc | hc
        · exact hE' hc
        · exact hwv (congrArg Prod.snd (List.mem_singleton.1 hc))

/-! ## Accesses -/

/-- Memory and swap slots are not exhausted: there is a page, and where the ring is full a slot, whose blocks are those of no slot
in use. -/
structure Supplied (s : Kernel) : Prop where
  page : s.phys.freelist ≠ []
  slot : freeEntries s.lru = 0 → ∃ f, freeSlot? s.swap = some f ∧
    ∀ g, s.swap.bitmap g ≠ -1 → ¬collide .generic f (s.swap.frames g).swap g

/-- A fault on a page that is on disk brings it in, after an eviction where the ring is full. -/
theorem Paged.fault {y : SlotIdx} (h : Paged p lo byte L E pd s) (hsup : Supplied s) (hv : IsPage lo (s.ptable p).sz (pgRoundDown a))
    (hy : y ∈ L) (hyv : (s.swap.frames y).vaddr = pgRoundDown a) : ∃ s₁ L₁ E₁ pd₁ f, pgfltHandler p a s = .ok s₁ ∧
      Paged p lo byte L₁ E₁ pd₁ s₁ ∧ (s₁.ptable p).sz = (s.ptable p).sz ∧ pd₁.pte? (pgRoundDown a) = some ⟨⟨true, true, true⟩, f⟩ := by
  obtain ⟨f, fl, hfl⟩ := List.exists_cons_of_ne_nil hsup.page
  have hfind : (L.find? fun i => (s.swap.frames i).vaddr = pgRoundDown a) = some y := by
    have hsome : (L.find? fun i => (s.swap.frames i).vaddr = pgRoundDown a).isSome := List.find?_isSome.2 ⟨y, hy, by simpa using hyv⟩
    obtain ⟨z, hz⟩ := Option.isSome_iff_exists.1 hsome
    have hzv : (s.swap.frames z).vaddr = pgRoundDown a := by simpa using List.find?_some hz
    rw [hz, h.distinct z (List.mem_of_find?_eq_some hz) y hy (hzv.trans hyv.symm)]
  -- the ring has room in the end
  obtain ⟨s₁, L₁, E₁, pd₁, l, hget, hp₁, hl, hphys, hsz, hpid, hy₁, hfr⟩ : ∃ s₁ L₁ E₁ pd₁ l,
      getLru (s.ptable p).pid (pgRoundDown a) s = .ok { s₁ with lru := l } ∧ Paged p lo byte L₁ E₁ pd₁ s₁ ∧
      Queue l (E₁ ++ [((s.ptable p).pid, pgRoundDown a)]) ∧ s₁.phys = s.phys ∧ (s₁.ptable p).sz = (s.ptable p).sz ∧
      (s₁.ptable p).pid = (s.ptable p).pid ∧ y ∈ L₁ ∧ ∃ nx, s₁.swap.frames y = { s.swap.frames y with next := nx } := by
    have hfree := h.ring.freeEntries_eq
    by_cases hlen : E.length < maxFrameLru
    · obtain ⟨l, hget, hl⟩ := getLru_insert (s.ptable p).pid (pgRoundDown a) h.ring hlen
      exact ⟨s, L, E, pd, l, hget, h, hl, rfl, rfl, rfl, hy, _, rfl⟩
    · have hmax : E.length = maxFrameLru := by omega
      obtain ⟨e, E', rfl⟩ : ∃ e E', E = e :: E' := by
        cases E with
        | nil => exact absurd hmax (by decide)
        | cons e E' => exact ⟨e, E', rfl⟩
      obtain ⟨g, hg, hclear⟩ := hsup.slot (by omega)
      rw [List.length_cons] at hmax
      obtain ⟨s₁, pd₁, hev, hp₁, hphys, hsz, hpid, hold⟩ := h.evict (by simp only [maxFrameLru] at hmax; omega) hg hclear
      obtain ⟨l, hget, hl⟩ := getLru_evict (s.ptable p).pid (pgRoundDown a) h.ring (by rw [List.length_cons]; exact hmax) hev hp₁.ring
        (by omega)
      exact ⟨s₁, L ++ [g], E', pd₁, l, hget, hp₁, hl, hphys, hsz, hpid, List.mem_append_left _ hy, hold y hy⟩
  obtain ⟨nx, hnx⟩ := hfr
  rw [← hpid] at hl
  obtain ⟨s₂, L₂, pd₂, hin, hp₂, hsz₂, hpte⟩ := hp₁.bringIn (by rw [hsz]; exact hv) hy₁ (by rw [hnx]; exact hyv) hl (by rw [hphys]; exact hfl)
  refine ⟨s₂, L₂, _, pd₂, f, ?_, hp₂, hsz₂.trans hsz, hpte⟩
  have hk : ¬kernBase < pgRoundDown a := by
    have := hv.2.1
    have := h.high
    omega
  unfold pgfltHandler
  dsimp only
  rw [if_neg hk, swapCheck_eq h.list h.unlocked, hfind]
  simp only [ok_bind, Option.map_some, swapInFunc_eq]
  rw [hget, ok_bind]
  have hkind : (s₁.swap.frames y).swap = (s.swap.frames y).swap := by rw [hnx]
  rw [← hkind, hin]
  rfl

theorem isPage_roundDown (h : Paged p lo byte L E pd s) (hlo : lo ≤ a) (hhi : a < (s.ptable p).sz) :
    IsPage lo (s.ptable p).sz (pgRoundDown a) := by
  have h1 := pgRoundDown_mod a
  have h2 := pgRoundDown_le a
  have h3 := h.base
  refine ⟨?_, by omega, h1⟩
  simp only [pgRoundDown, pgSize] at *
  omega

/-- An access reaches the page of memory that holds the bytes. -/
theorem Paged.touch (wr : Bool) (h : Paged p lo byte L E pd s) (hsup : userFrame p a wr s = none → Supplied s) (hlo : lo ≤ a) (hhi : a < (s.ptable p).sz) :
    ∃ f s₁ L₁ E₁ pd₁, DemandPaging.touch p a wr s = .ok (f, s₁) ∧ Paged p lo byte L₁ E₁ pd₁ s₁ ∧ (s₁.ptable p).sz = (s.ptable p).sz ∧
      pd₁.pte? (pgRoundDown a) = some ⟨⟨true, true, true⟩, f⟩ := by
  have hv := isPage_roundDown h hlo hhi
  have hmapped : ∀ {t : Kernel} {d : PageDir} {f : Nat}, (t.ptable p).pgdir = some d →
      d.pte? (pgRoundDown a) = some ⟨⟨true, true, true⟩, f⟩ → userFrame p a wr t = some f := by
    intro t d f hd hpte
    rw [← userFrame_page (pgRoundDown_page a), userFrame_eq hd, PageDir.pte, hpte]
    cases wr <;> rfl
  unfold DemandPaging.touch
  cases h.pages (pgRoundDown a) hv with
  | inMemory f hpte hE hL hm hf =>
    rw [hmapped h.pgdir hpte]
    exact ⟨f, s, L, E, pd, rfl, h, rfl, hpte⟩
  | onDisk y f hpte hE hy hyv hd =>
    have hno : userFrame p a wr s = none := by
      rw [← userFrame_page (pgRoundDown_page a), userFrame_eq h.pgdir, PageDir.pte, hpte]
      rfl
    obtain ⟨s₁, L₁, E₁, pd₁, f₁, hflt, hp₁, hsz, hpte₁⟩ := h.fault (hsup hno) hv hy hyv
    rw [hno]
    dsimp only
    rw [hflt, ok_bind, hmapped hp₁.pgdir hpte₁]
    exact ⟨f₁, s₁, L₁, E₁, pd₁, rfl, hp₁, hsz, hpte₁⟩

theorem pgRoundDown_add (a : Nat) : pgRoundDown a + pgOffset a = a := by
  simp only [pgRoundDown, pgOffset, pgSize]
  omega

theorem Paged.mem_eq {f : Nat} (h : Paged p lo byte L E pd s) (hv : IsPage lo (s.ptable p).sz v)
    (hpte : pd.pte? v = some ⟨⟨true, true, true⟩, f⟩) : s.phys.mem f = pageOf byte v := by
  cases h.pages v hv with
  | inMemory f' hpte' hE hL hm hf =>
    rw [hpte] at hpte'
    cases hpte'
    exact hm
  | onDisk y f' hpte' hE hy hv' hd =>
    rw [hpte] at hpte'
    cases hpte'

/-- A load finds the byte. -/
theorem Paged.load (h : Paged p lo byte L E pd s) (hsup : userFrame p a false s = none → Supplied s) (hlo : lo ≤ a) (hhi : a < (s.ptable p).sz) :
    ∃ s₁ L₁ E₁ pd₁, userLoad p a s = .ok (byte a, s₁) ∧ Paged p lo byte L₁ E₁ pd₁ s₁ ∧ (s₁.ptable p).sz = (s.ptable p).sz := by
  obtain ⟨f, s₁, L₁, E₁, pd₁, htouch, hp₁, hsz, hpte⟩ := h.touch false hsup hlo hhi
  refine ⟨s₁, L₁, E₁, pd₁, ?_, hp₁, hsz⟩
  have hmem := hp₁.mem_eq (isPage_roundDown hp₁ hlo (by rw [hsz]; exact hhi)) hpte
  unfold userLoad
  rw [htouch]
  simp only [ok_bind, pure_ok, hmem, pageOf, pgRoundDown_add]

theorem pageOf_update_same (byte : Nat → UInt8) (a : Nat) (x : UInt8) :
    pageOf (Function.update byte a x) (pgRoundDown a) = Function.update (pageOf byte (pgRoundDown a)) (pgOffset a) x := by
  funext i
  have ha := pgRoundDown_add a
  rw [pageOf, Function.update_apply, Function.update_apply]
  by_cases hi : i = pgOffset a
  · rw [if_pos (by rw [hi]; exact ha), if_pos hi]
  · rw [if_neg, if_neg hi]
    · rfl
    · intro hc
      exact hi (Fin.ext (by omega))

theorem pageOf_update_other (byte : Nat → UInt8) {w : Nat} (x : UInt8) (hw : w % pgSize = 0) (hne : w ≠ pgRoundDown a) :
    pageOf (Function.update byte a x) w = pageOf byte w := by
  funext i
  have hi := i.isLt
  rw [pageOf, Function.update_of_ne]
  · rfl
  · intro hc
    refine hne ?_
    simp only [pgRoundDown, pgSize] at *
    omega

/-- A byte written to the page that holds it. -/
theorem Paged.write {f : Nat} (x : UInt8) (h : Paged p lo byte L E pd s) (hv : IsPage lo (s.ptable p).sz (pgRoundDown a))
    (hpte : pd.pte? (pgRoundDown a) = some ⟨⟨true, true, true⟩, f⟩) : Paged p lo (Function.update byte a x) L E pd
      { s with phys := s.phys.setPage f (Function.update (s.phys.mem f) (pgOffset a) x) } := by
  refine ⟨h.pgdir, ?_, h.base, h.aligned, h.low, h.high, h.list, h.unlocked, h.used, h.single, h.ring, h.free, h.slots, h.distinct, h.entries,
    h.once, h.frames, fun w hw => ?_⟩
  · exact (getProc_congr s { s with phys := s.phys.setPage f (Function.update (s.phys.mem f) (pgOffset a) x) } (fun _ => rfl) _).trans h.owner
  · by_cases hwv : w = pgRoundDown a
    · subst hwv
      rw [pageOf_update_same]
      cases h.pages _ hw with
      | inMemory f' hpte' hE hL hm hf =>
        rw [hpte] at hpte'
        cases hpte'
        refine .inMemory f hpte hE hL ?_ hf
        show Function.update s.phys.mem f _ f = _
        rw [Function.update_self, hm]
      | onDisk y f' hpte' hE hy hyv hd =>
        rw [hpte] at hpte'
        cases hpte'
    · rw [pageOf_update_other byte x hw.2.2 hwv]
      cases h.pages w hw with
      | inMemory f' hpte' hE hL hm hf =>
        have hne : f' ≠ f := by
          rintro rfl
          exact hwv (h.frames w _ f' hw hv hpte' hpte)
        refine .inMemory f' hpte' hE hL ?_ hf
        show Function.update s.phys.mem f _ f' = _
        rw [Function.update_of_ne hne]
        exact hm
      | onDisk y f' hpte' hE hy hyv hd => exact .onDisk y f' hpte' hE hy hyv hd

/-- A store changes the byte. -/
theorem Paged.store (x : UInt8) (h : Paged p lo byte L E pd s) (hsup : userFrame p a true s = none → Supplied s) (hlo : lo ≤ a) (hhi : a < (s.ptable p).sz) :
    ∃ s₁ L₁ E₁ pd₁, userStore p a x s = .ok s₁ ∧ Paged p lo (Function.update byte a x) L₁ E₁ pd₁ s₁ ∧
      (s₁.ptable p).sz = (s.ptable p).sz := by
  obtain ⟨f, s₁, L₁, E₁, pd₁, htouch, hp₁, hsz, hpte⟩ := h.touch true hsup hlo hhi
  refine ⟨_, L₁, E₁, pd₁, ?_, hp₁.write x (isPage_roundDown hp₁ hlo (by rw [hsz]; exact hhi)) hpte, hsz⟩
  unfold userStore
  rw [htouch]
  rfl

/-! ## Growth -/

/-- A growth adds pages of zeros. -/
theorem Paged.grow {n : Nat} (h : Paged p lo byte L E pd s) (hn : 0 < n) (hint : n < 2 ^ 31) (hna : n % pgSize = 0)
    (hzero : ∀ a, (s.ptable p).sz ≤ a → byte a = 0)
    (hclear : ∀ f, s.swap.bitmap f = -1 →
      (Finset.univ.filter fun b => b < f ∧ s.swap.bitmap b = -1).card < newPages (s.ptable p).sz ((s.ptable p).sz + n) →
      ∀ g, s.swap.bitmap g ≠ -1 → ¬collide .heap f (s.swap.frames g).swap g)
    (hgrow : growproc p n s = .ok (0, s')) :
    ∃ L₁ pd₁, Paged p lo byte L₁ E pd₁ s' ∧ (s'.ptable p).sz = (s.ptable p).sz + n := by
  have hal := h.aligned
  have hhigh := h.high
  obtain ⟨newsz, -, -, -, -, hnew, -, hlt, -⟩ := growproc_grows h.pgdir h.high (by omega) (by omega) hgrow
  obtain rfl : newsz = (s.ptable p).sz + n := by
    simp only [kernBase, wordSize] at *
    omega
  have hup : pgRoundUp ((s.ptable p).sz + n) = (s.ptable p).sz + n := pgRoundUp_aligned (by simp only [pgSize] at *; omega) hlt.le
  have hout : ∀ e ∈ E, ¬EntryIn (s.ptable p).pid (s.ptable p).sz (pgRoundUp ((s.ptable p).sz + n)) e := by
    intro e he hc
    have h1 := (h.entries e he).2.2.1
    have h2 := hc.2.1
    omega
  have hfresh : Fresh p ((s.ptable p).sz + n) s L E := by
    refine ⟨h.aligned, h.used, fun g hg => .inl (h.slots g hg).2.1, ?_⟩
    cases E with
    | nil => exact .inl rfl
    | cons e E => exact .inr ⟨e, List.mem_cons_self, hout e List.mem_cons_self⟩
  obtain ⟨pd₁, m₁, F, t, hbl, hr, hend, htop, hF, hg, rfl, -⟩ := growproc_growing h.pgdir h.high (by omega) (by omega) h.list h.unlocked h.ring
    hnew hfresh hgrow
  rw [hup] at hend htop hg hout
  obtain ⟨pd₂, hpd₂, hsame⟩ := hg.dir
  obtain ⟨E', hE', hless⟩ := hg.ring
  have hid₀ : (({ s with phys := m₁ } : Kernel).setPgdir p pd₁).ptable p = { s.ptable p with pgdir := some pd₁ } := by simp [Kernel.setPgdir]
  rw [hid₀] at hless
  obtain rfl := hless.eq hout
  have hpid := hg.pid
  rw [hid₀] at hpid
  generalize hs₁ : t.setProc p { t.ptable p with sz := (s.ptable p).sz + n } = s₁
  have hself : s₁.ptable p = { t.ptable p with sz := (s.ptable p).sz + n } := by rw [← hs₁, Kernel.setProc_same]
  have hid : (s₁.ptable p).pid = (s.ptable p).pid := by rw [hself]; exact hpid
  have hsz : (s₁.ptable p).sz = (s.ptable p).sz + n := by rw [hself]
  have hswap : s₁.swap = t.swap := by rw [← hs₁]; rfl
  have hdisk : s₁.disk = t.disk := by rw [← hs₁]; rfl
  have hphys : s₁.phys = m₁ := by rw [← hs₁, Kernel.setProc_phys, hg.phys]; rfl
  obtain ⟨T, hT, hmem⟩ := hbl.takes.taken
  have hpteOld : ∀ w, IsPage lo (s.ptable p).sz w → pd₂.pte? w = pd.pte? w := by
    intro w hw
    have hno := hr.other w (by have := hw.2.1; simp only [kernBase, wordSize] at *; omega) (fun hc => by have := hw.2.1; omega)
    obtain ⟨pte, hpte⟩ : ∃ pte, pd.pte? w = some pte := by
      cases h.pages w hw with
      | inMemory f hpte => exact ⟨_, hpte⟩
      | onDisk y f hpte => exact ⟨_, hpte⟩
    obtain ⟨pte', hpte'⟩ := Option.ne_none_iff_exists'.1 (pte?_of_grows hbl.grows (b := w) (by rw [hpte]; simp))
    rw [PageDir.pte, PageDir.pte, hpte, hpte'] at hno
    rw [hsame, hpte, hpte']
    exact congrArg some hno
  have hpteNew : ∀ w, (s.ptable p).sz ≤ w → w < (s.ptable p).sz + n → pd₂.pte? w = some Pte.blank := by
    intro w h1 h2
    rw [← hend] at h2
    have hb := hr.mapped w h1 h2 (hr.all.1 rfl w h1 h2)
    rw [hsame]
    rw [PageDir.pte] at hb
    cases hc : pd₁.pte? w with
    | none =>
      rw [hc] at hb
      exact absurd hb (by decide)
    | some pte =>
      rw [hc] at hb
      exact congrArg some hb
  have hbelow : ∀ w f, IsPage lo ((s.ptable p).sz + n) w → pd₂.pte? w = some ⟨⟨true, true, true⟩, f⟩ → IsPage lo (s.ptable p).sz w := by
    intro w f hw hpw
    by_contra hc
    rw [hpteNew w (by by_contra hlt; exact hc ⟨hw.1, by omega, hw.2.2⟩) hw.2.1] at hpw
    cases hpw
  have hold : ∀ g ∈ L, ∃ nx, s₁.swap.frames g = { s.swap.frames g with next := nx } := by
    intro g hgL
    rw [hswap]
    exact hg.old g hgL
  have hnewF : ∀ g ∈ F, ∃ j, F[j]? = some g ∧ j * pgSize < n ∧ (∃ nx, s₁.swap.frames g = ⟨(s.ptable p).sz + j * pgSize, nx, .heap, 1⟩) ∧
      diskPage s₁.disk (SwapKind.heap.start + g * 8) = zeroPage := by
    intro g hgF
    obtain ⟨j, hj⟩ := List.mem_iff_getElem?.1 hgF
    obtain ⟨hfr, hd⟩ := hg.new j g hj
    have hlen := (List.getElem?_eq_some_iff.1 hj).1
    refine ⟨j, hj, ?_, by rw [hswap]; exact hfr, by rw [hdisk]; exact hd⟩
    rw [← hF] at hend
    simp only [pgSize] at *
    omega
  refine ⟨L ++ F, pd₂, ?_, hsz⟩
  constructor
  case pgdir => rw [hself]; exact hpd₂
  case owner =>
    rw [hid, getProc_congr s s₁ fun q => ?_]
    · exact h.owner
    · by_cases hq : q = p
      · rw [hq, hid]
      · rw [← hs₁]
        have ho := hg.others q hq
        simp only [Kernel.setPgdir, Kernel.setProc, Function.update_of_ne hq] at ho ⊢
        rw [ho]
  case base => exact h.base
  case aligned =>
    rw [hsz]
    simp only [pgSize] at *
    omega
  case low => rw [hsz]; exact h.low.trans (Nat.le_add_right _ _)
  case high => rw [hsz]; exact hlt.le
  case list =>
    rw [hself, hswap]
    exact hg.list
  case unlocked => rw [hswap]; exact hg.unlocked
  case used =>
    intro g hg'
    rw [hswap, hg.bitmap]
    split
    · decide
    · next hn' =>
      rcases List.mem_append.1 hg' with hg' | hg'
      · exact h.used g hg'
      · exact absurd hg' hn'
  case single =>
    intro g hg'
    rcases List.mem_append.1 hg' with hg' | hg'
    · obtain ⟨nx, hnx⟩ := hold g hg'
      rw [hnx]
      exact h.single g hg'
    · obtain ⟨j, -, -, ⟨nx, hnx⟩, -⟩ := hnewF g hg'
      rw [hnx]
  case ring => rw [← hs₁]; exact hE'
  case free =>
    have hnd := h.free
    rw [hT] at hnd
    rw [hphys]
    exact (List.nodup_append.1 hnd).2.1
  case slots =>
    intro g hg'
    rw [hsz]
    rcases List.mem_append.1 hg' with hg' | hg'
    · obtain ⟨nx, hnx⟩ := hold g hg'
      obtain ⟨h1, h2, h3⟩ := h.slots g hg'
      rw [hnx]
      exact ⟨h1, h2.trans_le (Nat.le_add_right _ _), h3⟩
    · obtain ⟨j, -, hjn, ⟨nx, hnx⟩, -⟩ := hnewF g hg'
      have := h.low
      rw [hnx]
      refine ⟨?_, ?_, ?_⟩ <;> simp only [pgSize] at * <;> omega
  case distinct =>
    have hapart : ∀ g ∈ L, ∀ k ∈ F, (s₁.swap.frames g).vaddr ≠ (s₁.swap.frames k).vaddr := by
      intro g hgL k hkF hc
      obtain ⟨nx, hnx⟩ := hold g hgL
      obtain ⟨j, -, -, ⟨nx', hnx'⟩, -⟩ := hnewF k hkF
      rw [hnx, hnx'] at hc
      have h1 := (h.slots g hgL).2.1
      have h2 : (s.swap.frames g).vaddr = (s.ptable p).sz + j * pgSize := hc
      omega
    intro g hg' k hk' hgk
    rcases List.mem_append.1 hg' with hg' | hg' <;> rcases List.mem_append.1 hk' with hk' | hk'
    · obtain ⟨nx, hnx⟩ := hold g hg'
      obtain ⟨nx', hnx'⟩ := hold k hk'
      rw [hnx, hnx'] at hgk
      exact h.distinct g hg' k hk' hgk
    · exact absurd hgk (hapart g hg' k hk')
    · exact absurd hgk.symm (hapart k hk' g hg')
    · obtain ⟨i, hi, -, ⟨nx, hnx⟩, -⟩ := hnewF g hg'
      obtain ⟨j, hj, -, ⟨nx', hnx'⟩, -⟩ := hnewF k hk'
      rw [hnx, hnx'] at hgk
      have hij : (s.ptable p).sz + i * pgSize = (s.ptable p).sz + j * pgSize := hgk
      obtain rfl : i = j := by
        simp only [pgSize] at hij
        omega
      exact Option.some.inj (hi.symm.trans hj)
  case entries =>
    intro e he
    obtain ⟨h1, h2, h3, h4⟩ := h.entries e he
    rw [hid, hsz]
    exact ⟨h1, h2, by omega, h4⟩
  case once => exact h.once
  case frames =>
    intro u w f hu hw hpu hpw
    rw [hsz] at hu hw
    have hu' := hbelow u f hu hpu
    have hw' := hbelow w f hw hpw
    rw [hpteOld u hu'] at hpu
    rw [hpteOld w hw'] at hpw
    exact h.frames u w f hu' hw' hpu hpw
  case pages =>
    intro v hv
    rw [hsz] at hv
    rw [hid]
    by_cases hlow : v < (s.ptable p).sz
    · have hv' : IsPage lo (s.ptable p).sz v := ⟨hv.1, hlow, hv.2.2⟩
      cases h.pages v hv' with
      | inMemory f hpte hE hL hm hf =>
        have hfT : f ∉ T ∧ f ∉ m₁.freelist := by
          rw [hT, List.mem_append, not_or] at hf
          exact hf
        refine .inMemory f (by rw [hpteOld v hv']; exact hpte) hE ?_ (by rw [hphys, hmem f hfT.1]; exact hm) (by rw [hphys]; exact hfT.2)
        intro g hg'
        rcases List.mem_append.1 hg' with hg' | hg'
        · obtain ⟨nx, hnx⟩ := hold g hg'
          rw [hnx]
          exact hL g hg'
        · obtain ⟨j, -, -, ⟨nx, hnx⟩, -⟩ := hnewF g hg'
          rw [hnx]
          show (s.ptable p).sz + j * pgSize ≠ v
          omega
      | onDisk y f hpte hE hy hyv hd =>
        obtain ⟨nx, hnx⟩ := hold y hy
        refine .onDisk y f (by rw [hpteOld v hv']; exact hpte) hE (List.mem_append_left _ hy) (by rw [hnx]; exact hyv) ?_
        rw [hnx, hdisk, ← hd]
        refine hg.disk _ fun g hgF => ?_
        obtain ⟨h1, h2⟩ := hg.slot_low hgF
        rw [hF] at h2
        have hne : g.val ≠ y.val := by
          intro hc
          rw [Fin.ext hc] at h1
          exact h.used y hy h1
        exact (disjoint_iff_not_collide hne).2 (hclear g h1 h2 y (h.used y hy))
    · -- a new page
      obtain ⟨j, hj, hvj⟩ : ∃ j < F.length, v = (s.ptable p).sz + j * pgSize := by
        have hv3 := hv.2.2
        rw [← hF] at hend
        refine ⟨(v - (s.ptable p).sz) / pgSize, ?_, ?_⟩ <;> have := hv.2.1 <;> simp only [pgSize] at * <;> omega
      obtain ⟨f, hf⟩ : ∃ f, F[j]? = some f := ⟨F[j], List.getElem?_eq_getElem hj⟩
      obtain ⟨⟨nx, hnx⟩, hd⟩ := hg.new j f hf
      refine .onDisk f 0 (hpteNew v (by omega) hv.2.1) ?_ (List.mem_append_right _ (List.mem_of_getElem? hf)) (by rw [hswap, hnx, hvj]) ?_
      · intro hc
        have := (h.entries _ hc).2.2.1
        omega
      · rw [hswap, hnx, hdisk]
        refine hd.trans ?_
        funext i
        exact (hzero _ (by omega)).symm

/-! ## Runs -/

/-- What the process does: grow by a number of bytes, load a byte, store one. -/
inductive UserOp
  | grow (n : Nat)
  | load (a : Nat)
  | store (a : Nat) (x : UInt8)

def userStep (p : ProcIdx) : UserOp → Kernel → Except Stuck (Option UInt8 × Kernel)
  | .grow n, s => do return (none, (← growproc p n s).2)
  | .load a, s => do
    let (x, s) ← userLoad p a s
    return (some x, s)
  | .store a x, s => do return (none, ← userStore p a x s)

/-- A memory without paging. -/
structure Flat where
  sz : Nat
  byte : Nat → UInt8

def Flat.step : UserOp → Flat → Option UInt8 × Flat
  | .grow n, m => (none, { m with sz := m.sz + n })
  | .load a, m => (some (m.byte a), m)
  | .store a x, m => (none, { m with byte := Function.update m.byte a x })

/-- The operations of a process that started with the size `lo`: growth by whole pages that succeeds, and accesses to pages added since.
Neither memory nor slots run out, and a slot that is taken has blocks of no slot in use. -/
def Permits (p : ProcIdx) (lo : Nat) : UserOp → Kernel → Prop
  | .grow n, s => (0 < n ∧ n < 2 ^ 31 ∧ n % pgSize = 0) ∧ (∃ s', growproc p n s = .ok (0, s')) ∧ ∀ f, s.swap.bitmap f = -1 →
    (Finset.univ.filter fun b => b < f ∧ s.swap.bitmap b = -1).card < newPages (s.ptable p).sz ((s.ptable p).sz + n) →
    ∀ g, s.swap.bitmap g ≠ -1 → ¬collide .heap f (s.swap.frames g).swap g
  | .load a, s => lo ≤ a ∧ a < (s.ptable p).sz ∧ (userFrame p a false s = none → Supplied s)
  | .store a _, s => lo ≤ a ∧ a < (s.ptable p).sz ∧ (userFrame p a true s = none → Supplied s)

/-- The kernel's state holds the flat memory. -/
def Holds (p : ProcIdx) (lo : Nat) (m : Flat) (s : Kernel) : Prop :=
  m.sz = (s.ptable p).sz ∧ (∀ a, m.sz ≤ a → m.byte a = 0) ∧ ∃ L E pd, Paged p lo m.byte L E pd s

/-- One operation does to the kernel what it does to a flat memory. -/
theorem userStep_simulates (p : ProcIdx) (lo : Nat) : Refine.Simulates (userStep p) (Permits p lo) Flat.step (Holds p lo) where
  one := by
    rintro op m s ⟨hsz, hzero, L, E, pd, hp⟩ hperm
    cases op with
    | grow n =>
      obtain ⟨⟨hn, hint, hna⟩, ⟨s', hgrow⟩, hclear⟩ := hperm
      obtain ⟨L₁, pd₁, hp₁, hsz₁⟩ := hp.grow hn hint hna (by rw [← hsz]; exact hzero) hclear hgrow
      refine ⟨s', ?_, ?_, ?_, L₁, E, pd₁, hp₁⟩
      · rw [userStep, hgrow]
        rfl
      · rw [hsz₁, ← hsz]
        rfl
      · intro a ha
        exact hzero a (le_trans (Nat.le_add_right _ _) ha)
    | load a =>
      obtain ⟨hlo, hhi, hsup⟩ := hperm
      obtain ⟨s₁, L₁, E₁, pd₁, hload, hp₁, hsz₁⟩ := hp.load hsup hlo hhi
      refine ⟨s₁, ?_, hsz.trans hsz₁.symm, hzero, L₁, E₁, pd₁, hp₁⟩
      rw [userStep, hload]
      rfl
    | store a x =>
      obtain ⟨hlo, hhi, hsup⟩ := hperm
      obtain ⟨s₁, L₁, E₁, pd₁, hstore, hp₁, hsz₁⟩ := hp.store x hsup hlo hhi
      refine ⟨s₁, ?_, hsz.trans hsz₁.symm, ?_, L₁, E₁, pd₁, hp₁⟩
      · rw [userStep, hstore]
        rfl
      · intro b hb
        show Function.update m.byte a x b = 0
        rw [Function.update_of_ne (by change m.sz ≤ b at hb; omega)]
        exact hzero b hb

/-- The page is present, with one entry of the ring and no slot, or has one slot and no entry. -/
def InOnePlace (s : Kernel) (pid : Int) (L : List SlotIdx) (E : List (Int × Nat)) (pd : PageDir) (v : Nat) : Prop :=
  (pd.pte v).present = true ∧ E.count (pid, v) = 1 ∧ L.countP (fun g => (s.swap.frames g).vaddr = v) = 0 ∨
  (pd.pte v).present = false ∧ E.count (pid, v) = 0 ∧ L.countP (fun g => (s.swap.frames g).vaddr = v) = 1

theorem Paged.inOnePlace (h : Paged p lo byte L E pd s) (hv : IsPage lo (s.ptable p).sz v) : InOnePlace s (s.ptable p).pid L E pd v := by
  cases h.pages v hv with
  | inMemory f hpte hE hL hm hf =>
    refine .inl ⟨by rw [PageDir.pte, hpte]; rfl, List.count_eq_one_of_mem h.once hE, ?_⟩
    rw [List.countP_eq_zero]
    intro g hg
    simpa using hL g hg
  | onDisk y f hpte hE hy hyv hd =>
    refine .inr ⟨by rw [PageDir.pte, hpte]; rfl, List.count_eq_zero.2 hE, ?_⟩
    obtain ⟨A, B, rfl⟩ := List.append_of_mem hy
    have hnd := h.list.nodup
    rw [List.nodup_append, List.nodup_cons] at hnd
    have hrest : ∀ C : List SlotIdx, C ⊆ A ++ y :: B → y ∉ C → C.countP (fun g => (s.swap.frames g).vaddr = v) = 0 := by
      intro C hC hyC
      rw [List.countP_eq_zero]
      intro g hg hc
      have hgv : (s.swap.frames g).vaddr = v := by simpa using hc
      rw [h.distinct g (hC hg) y hy (hgv.trans hyv.symm)] at hg
      exact hyC hg
    rw [List.countP_append, List.countP_cons_of_pos (by simpa using hyv), hrest A (by simp) fun hc => hnd.2.2 y hc y List.mem_cons_self rfl,
      hrest B (fun g hg => List.mem_append_right _ (List.mem_cons_of_mem _ hg)) hnd.2.1.1]

/-- No page has been added yet. -/
theorem Paged.start (hpd : (s.ptable p).pgdir = some pd) (howner : getProc (s.ptable p).pid s = some p)
    (hal : (s.ptable p).sz % pgSize = 0) (hhigh : (s.ptable p).sz ≤ kernBase) (hlist : (s.ptable p).swapList = none)
    (hring : Queue s.lru []) (hlk : s.swap.lk = false) (hfree : s.phys.freelist.Nodup) :
    Paged p (s.ptable p).sz byte [] [] pd s := by
  have hnone : ∀ v, ¬IsPage (s.ptable p).sz (s.ptable p).sz v := by
    intro v hv
    have h1 := hv.1
    have h2 := hv.2.1
    omega
  refine ⟨hpd, howner, hal, hal, le_rfl, hhigh, hlist, hlk, ?_, ?_, hring, hfree, ?_, ?_, ?_, List.nodup_nil,
    fun v _ _ hv => absurd hv (hnone v), fun v hv => absurd hv (hnone v)⟩ <;> simp

/-- Paging is transparent for a process that starts with whole pages, an empty swap list and an empty ring: at every point of a run its
loads have returned what a flat memory would have, and each page added is in one place. -/
theorem paging_transparent {ops rest : List UserOp} (hpd : (s.ptable p).pgdir = some pd) (howner : getProc (s.ptable p).pid s = some p)
    (hal : (s.ptable p).sz % pgSize = 0) (hhigh : (s.ptable p).sz ≤ kernBase) (hlist : (s.ptable p).swapList = none)
    (hring : Queue s.lru []) (hlk : s.swap.lk = false) (hfree : s.phys.freelist.Nodup)
    (hops : Refine.Permitted (userStep p) (Permits p (s.ptable p).sz) (ops ++ rest) s) :
    ∃ s', Refine.run (userStep p) ops s = .ok ((Refine.specRun Flat.step ops ⟨(s.ptable p).sz, fun _ => 0⟩).1, s') ∧
      ∃ L E pd', SwapList s'.swap (s'.ptable p).swapList L ∧ Queue s'.lru E ∧ (s'.ptable p).pgdir = some pd' ∧
        ∀ v, IsPage (s.ptable p).sz (s'.ptable p).sz v → InOnePlace s' (s'.ptable p).pid L E pd' v := by
  have hstart : Holds p (s.ptable p).sz ⟨(s.ptable p).sz, fun _ => 0⟩ s :=
    ⟨rfl, fun _ _ => rfl, [], [], pd, .start hpd howner hal hhigh hlist hring hlk hfree⟩
  obtain ⟨s', hrun, -, -, L, E, pd', hp⟩ := (userStep_simulates p (s.ptable p).sz).run hstart hops.of_append
  exact ⟨s', hrun, L, E, pd', hp.list, hp.ring, hp.pgdir, fun v hv => hp.inOnePlace hv⟩

/-- The process of the small machine grows by a page and loads from it. -/
theorem paging_transparent_small : ∃ s', Refine.run (userStep 0) [.grow pgSize, .load (2 * pgSize)] smallKernel = .ok ([none, some 0], s') := by
  have howner : getProc (smallKernel.ptable 0).pid smallKernel = some 0 := smallKernel_booted.ids.getProc_eq (p := 0) (by decide)
  have hpd : (smallKernel.ptable 0).pgdir = some smallDir := rfl
  have hfree : smallKernel.phys.freelist.Nodup := List.nodup_range'
  have hused : ∀ g, ¬smallKernel.swap.bitmap g ≠ -1 := fun g hg => hg rfl
  have hp : Paged 0 (smallKernel.ptable 0).sz (fun _ => 0) [] [] smallDir smallKernel :=
    .start hpd howner (by decide) (by decide) rfl lruInit_queue rfl hfree
  have hrun : (match growproc 0 (pgSize : Nat) smallKernel with
    | .ok (r, s) => decide (r = 0 ∧ s.phys.freelist ≠ [])
    | .error _ => false) = true := by decide +kernel
  split at hrun
  swap
  · cases hrun
  next r s₁ hgrow =>
  obtain ⟨rfl, hfl⟩ := of_decide_eq_true hrun
  have hops : Refine.Permitted (userStep 0) (Permits 0 (smallKernel.ptable 0).sz) ([.grow pgSize, .load (2 * pgSize)] ++ []) smallKernel := by
    refine ⟨⟨by decide, ⟨s₁, hgrow⟩, fun _ _ _ g hg => absurd hg (hused g)⟩, fun o s' hstep => ?_⟩
    rw [userStep, hgrow] at hstep
    cases hstep
    obtain ⟨L₁, pd₁, hp₁, hsz₁⟩ := hp.grow (by decide) (by decide) (by decide) (fun _ _ => rfl) (fun _ _ _ g hg => absurd hg (hused g)) hgrow
    refine ⟨⟨by decide, by rw [hsz₁]; decide, fun _ => ⟨hfl, fun hfull => ?_⟩⟩, fun _ _ _ => trivial⟩
    have := hp₁.ring.freeEntries_eq
    rw [hfull] at this
    cases this
  obtain ⟨s', hrun', -⟩ := paging_transparent hpd howner (by decide) (by decide) rfl lruInit_queue rfl hfree hops
  exact ⟨s', hrun'⟩

end DemandPaging
