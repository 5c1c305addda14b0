/-
Physical pages over whole runs. Every page that the allocator was given is free, or a page directory, a
page table, a kernel stack, a pipe, or the target of one present user entry, and in one of these roles
only, as long as no page that is present is swapped out or mapped over.
-/
import DemandPaging.Kernel.System
import DemandPaging.Memory.Frames
import DemandPaging.Paging.Limit

namespace DemandPaging

/-! ## Roles -/

/-- The pages of a process: its kernel stack and what its page directory uses. -/
def Proc.uses (pr : Proc) (f : Nat) : Nat := pr.kstack.elim 0 (one · f) + pr.pgdir.elim 0 (·.uses f)

/-- How often the kernel has the page in a role. -/
def Kernel.uses (s : Kernel) (f : Nat) : Nat := s.phys.free f + tally fun q => (s.ptable q).uses f

/-- Unused entries have no pages, and the pages in use are the allocator's. -/
structure Kept (s : Kernel) : Prop where
  idle : ∀ q, ¬Live s q → (s.ptable q).kstack = none ∧ (s.ptable q).pgdir = none
  size : ∀ q, (s.ptable q).sz ≤ kernBase
  holds : ∀ f, 0 < s.uses f → s.phys.layout.Holds f

section Uses

variable {s s' : Kernel} {p : ProcIdx} {pr : Proc} {f : Nat}

/-- A process as far as pages are concerned. -/
structure SameProc (pr pr' : Proc) : Prop where
  kstack : pr'.kstack = pr.kstack
  pgdir : pr'.pgdir = pr.pgdir
  sz : pr'.sz = pr.sz
  state : pr'.state = pr.state

theorem SameProc.uses {pr pr' : Proc} (h : SameProc pr pr') (f : Nat) : pr'.uses f = pr.uses f := by
  rw [Proc.uses, Proc.uses, h.kstack, h.pgdir]

theorem SameProc.refl (pr : Proc) : SameProc pr pr := ⟨rfl, rfl, rfl, rfl⟩

/-- What a call of one process leaves of the pages. -/
structure Moves (p : ProcIdx) (s s' : Kernel) : Prop where
  layout : s'.phys.layout = s.phys.layout
  other : ∀ q, q ≠ p → SameProc (s.ptable q) (s'.ptable q)
  uses : ∀ f, s'.phys.free f + (s'.ptable p).uses f = s.phys.free f + (s.ptable p).uses f

theorem Moves.uses_eq (h : Moves p s s') (f : Nat) : s'.uses f = s.uses f := by
  have h1 := tally_exchange (g := fun q => (s'.ptable q).uses f) (h := fun q => (s.ptable q).uses f) p
    fun q hq => (h.other q hq).uses f
  have h2 := h.uses f
  rw [Kernel.uses, Kernel.uses]
  omega

theorem Moves.kept (h : Moves p s s') (hk : Kept s) (hidle : ¬Live s' p → (s'.ptable p).kstack = none ∧ (s'.ptable p).pgdir = none)
    (hsize : (s'.ptable p).sz ≤ kernBase) : Kept s' := by
  refine ⟨fun q hq => ?_, fun q => ?_, fun f hf => ?_⟩
  · by_cases hqp : q = p
    · subst hqp; exact hidle hq
    · have ho := h.other q hqp
      rw [Live, ho.state] at hq
      rw [ho.kstack, ho.pgdir]
      exact hk.idle q hq
  · by_cases hqp : q = p
    · subst hqp; exact hsize
    · rw [(h.other q hqp).sz]; exact hk.size q
  · rw [h.layout]
    rw [h.uses_eq] at hf
    exact hk.holds f hf

theorem Moves.refl (p : ProcIdx) (s : Kernel) : Moves p s s := ⟨rfl, fun _ _ => SameProc.refl _, fun _ => rfl⟩

theorem Moves.trans {s'' : Kernel} (h : Moves p s s') (h' : Moves p s' s'') : Moves p s s'' := by
  refine ⟨h'.layout.trans h.layout, fun q hq => ?_, fun f => (h'.uses f).trans (h.uses f)⟩
  have h1 := h.other q hq
  have h2 := h'.other q hq
  exact ⟨h2.kstack.trans h1.kstack, h2.pgdir.trans h1.pgdir, h2.sz.trans h1.sz, h2.state.trans h1.state⟩

/-- A call that leaves the size and the state of its process alone. -/
structure Steady (p : ProcIdx) (s s' : Kernel) : Prop where
  moves : Moves p s s'
  sz : (s'.ptable p).sz = (s.ptable p).sz
  state : (s'.ptable p).state = (s.ptable p).state

theorem Steady.trans {s'' : Kernel} (h : Steady p s s') (h' : Steady p s' s'') : Steady p s s'' :=
  ⟨h.moves.trans h'.moves, h'.sz.trans h.sz, h'.state.trans h.state⟩

theorem Steady.live (h : Steady p s s') (hp : Live s p) : Live s' p := by
  rw [Live, h.state]
  exact hp

theorem Steady.kept (h : Steady p s s') (hp : Live s p) (hk : Kept s) : Kept s' := by
  refine h.moves.kept hk (fun hn => absurd (h.live hp) hn) ?_
  rw [h.sz]
  exact hk.size p

/-- Nothing that concerns pages has changed. -/
structure SamePages (s s' : Kernel) : Prop where
  layout : s'.phys.layout = s.phys.layout
  free : ∀ f, s'.phys.free f = s.phys.free f
  procs : ∀ q, SameProc (s.ptable q) (s'.ptable q)

theorem SamePages.moves (h : SamePages s s') (p : ProcIdx) : Moves p s s' :=
  ⟨h.layout, fun q _ => h.procs q, fun f => by rw [h.free f, (h.procs p).uses f]⟩

theorem SamePages.steady (h : SamePages s s') (p : ProcIdx) : Steady p s s' := ⟨h.moves p, (h.procs p).sz, (h.procs p).state⟩

theorem SamePages.kept (h : SamePages s s') (hk : Kept s) : Kept s' := by
  have hp := h.procs 0
  refine (h.moves 0).kept hk (fun hl => ?_) (by rw [hp.sz]; exact hk.size 0)
  rw [Live, hp.state] at hl
  rw [hp.kstack, hp.pgdir]
  exact hk.idle 0 hl

theorem setSwap_pages (s : Kernel) (p : ProcIdx) (list : Option SlotIdx) (sw : Swap) : SamePages s (s.setSwap p list sw) := by
  refine ⟨rfl, fun _ => rfl, fun q => ?_⟩
  rw [Kernel.setSwap_ptable]
  split
  · next hq => subst hq; exact ⟨rfl, rfl, rfl, rfl⟩
  · exact SameProc.refl _

theorem swapFree_pages {pid : Int} (h : swapFree pid s = .ok s') : SamePages s s' := by
  rcases swapFree_cases h with ⟨-, rfl⟩ | ⟨q, -, ⟨-, rfl⟩ | ⟨-, list, sw, -, rfl⟩⟩
  · exact ⟨rfl, fun _ => rfl, fun _ => SameProc.refl _⟩
  · exact setSwap_pages s q none s.swap
  · exact setSwap_pages s q list sw

end Uses

/-! ## Allocation without eviction -/

section Alloc

variable {s s' : Kernel} {p : ProcIdx} {pid lru : Int} {x : Option Nat}

theorem kalloc_pages (hroom : lru ≠ -1 → 0 < freeEntries s.lru) (h : kalloc pid lru s = .ok (x, s')) : (x = none ∧ s' = s) ∨
    ∃ g fl l, x = some g ∧ s.phys.freelist = g :: fl ∧ s' = { s with lru := l, phys := { s.phys with freelist := fl } } ∧
      freeEntries s.lru ≤ freeEntries l + if lru = -1 then 0 else 1 := by
  unfold kalloc kallocPage at h
  cases hfl : s.phys.freelist with
  | nil =>
    rw [hfl] at h
    cases h
    exact .inl ⟨rfl, rfl⟩
  | cons g fl =>
    rw [hfl] at h
    dsimp only at h
    split at h
    · next hin =>
      obtain ⟨s₁, hget, h⟩ := bind_eq_ok.1 h
      cases h
      obtain ⟨l, rfl, hl⟩ := getLru_room (s := { s with phys := { s.phys with freelist := fl } }) (hroom hin.2) hget
      exact .inr ⟨g, fl, l, rfl, rfl, rfl, by rw [if_neg hin.2]; exact hl.ge⟩
    · cases h
      exact .inr ⟨g, fl, s.lru, rfl, rfl, rfl, Nat.le_add_right _ _⟩

/-- The address of a page of the allocator's. -/
theorem klruFreeSwap_kernel {g : Nat} (hg : s.phys.layout.Holds g) (h : klruFreeSwap p (g * pgSize + kernBase) s = .ok s') :
    ∃ m, s' = { s with phys := m } ∧ m.layout = s.phys.layout ∧ ∀ f, m.free f = s.phys.free f + one g f := by
  unfold klruFreeSwap at h
  have h1 := hg.1
  have h2 := hg.2
  have hmod : (g * pgSize + kernBase) % pgSize = 0 := by simp only [pgSize, kernBase]; omega
  have hdiv : (g * pgSize + kernBase - kernBase) / pgSize = g := by rw [Nat.add_sub_cancel]; exact Nat.mul_div_cancel _ (by decide)
  rw [if_neg (by rw [hmod]; omega)] at h
  simp only [hdiv] at h
  cases h
  exact ⟨_, rfl, rfl, fun f => free_cons rfl⟩

end Alloc

/-! ## Fork -/

section Fork

variable {s s' : Kernel} {p np : ProcIdx}

/-- A page directory under construction: pages move between it and the free list. -/
structure Builds (pd : PageDir) (m : Phys) (pd' : PageDir) (m' : Phys) : Prop where
  layout : m'.layout = m.layout
  uses : ∀ f, pd'.uses f + m'.free f = pd.uses f + m.free f

theorem Builds.trans {pd pd' pd'' : PageDir} {m m' m'' : Phys} (h : Builds pd m pd' m') (h' : Builds pd' m' pd'' m'') :
    Builds pd m pd'' m'' :=
  ⟨h'.layout.trans h.layout, fun f => (h'.uses f).trans (h.uses f)⟩

/-- Every page that is free or used by the directory is the allocator's. -/
def Holding (pd : PageDir) (m : Phys) : Prop := ∀ f, 0 < pd.uses f + m.free f → m.layout.Holds f

theorem Builds.holding {pd pd' : PageDir} {m m' : Phys} (h : Builds pd m pd' m') (hh : Holding pd m) : Holding pd' m' := by
  intro f hf
  rw [h.layout]
  exact hh f (by rw [← h.uses f]; exact hf)

/-- One page of a directory is mapped to a page that has been taken off the free list. -/
theorem mappages_builds {pd pd' : PageDir} {m₀ m m' : Phys} {a g : Nat} {perm : Flags} {r : Int} (hal : a % pgSize = 0)
    (ha : a < kernBase) (hold : (pd.pte a).present = false) (hlay : m.layout = m₀.layout)
    (hfree : ∀ f, m₀.free f = m.free f + one g f) (h : mappages pd a pgSize (g * pgSize) perm true m = (r, pd', m')) :
    (r = 0 ∧ Builds pd m₀ pd' m') ∨ r = -1 ∧ pd' = pd ∧ m' = m := by
  have hw : a < wordSize := by simp only [kernBase, wordSize] at *; omega
  rcases mappages_uses hal ha h with ⟨rfl, huses⟩ | hfail
  · refine .inl ⟨rfl, ?_, fun f => ?_⟩
    · rcases mappages_page_cases (g * pgSize) perm true pd m hal hw with ⟨-, -, hmap⟩ | ⟨d, m₁, hmap, hmapped⟩
      · cases hmap.symm.trans h
      · cases hmap.symm.trans h
        exact hmapped.takes.layout.trans hlay
    · have h1 := huses f
      have h2 := hfree f
      rw [uses_of_not_present hold, Bool.or_true, if_pos rfl, Nat.mul_div_cancel _ (by decide)] at h1
      omega
  · exact .inr hfail

theorem mappages_other {pd pd' : PageDir} {m m' : Phys} {a pa : Nat} {perm : Flags} {set : Bool} {r : Int} (hal : a % pgSize = 0)
    (ha : a < kernBase) (h : mappages pd a pgSize pa perm set m = (r, pd', m')) {b : Nat} (hb : b < kernBase)
    (hne : b / pgSize ≠ a / pgSize) : pd'.pte b = pd.pte b := by
  have hw : a < wordSize := by simp only [kernBase, wordSize] at *; omega
  rcases mappages_page_cases pa perm set pd m hal hw with ⟨-, -, hmap⟩ | ⟨d, m₁, hmap, hmapped⟩
  · cases hmap.symm.trans h
    rfl
  · cases hmap.symm.trans h
    refine hmapped.other b fun hidx => hne ?_
    exact (index_eq_iff (by simp only [kernBase, wordSize] at *; omega) hw).1 hidx

/-- A page that is not there is mapped, not present. -/
theorem mappages_blank {pd pd' : PageDir} {m m' : Phys} {a pa : Nat} {r : Int} (hal : a % pgSize = 0) (ha : a < kernBase)
    (hold : (pd.pte a).present = false) (h : mappages pd a pgSize pa ⟨false, true, true⟩ false m = (r, pd', m')) :
    Builds pd m pd' m' ∧ ∀ b < kernBase, (pd'.pte b).present = (pd.pte b).present := by
  have hw : a < wordSize := by simp only [kernBase, wordSize] at *; omega
  refine ⟨?_, fun b hb => ?_⟩
  · rcases mappages_page_cases pa ⟨false, true, true⟩ false pd m hal hw with ⟨-, -, hmap⟩ | ⟨d, m₁, hmap, hmapped⟩
    · cases hmap.symm.trans h
      exact ⟨rfl, fun _ => rfl⟩
    · cases hmap.symm.trans h
      refine ⟨hmapped.takes.layout, fun f => ?_⟩
      rcases mappages_uses hal ha h with ⟨-, huses⟩ | ⟨hr, -⟩
      · have h1 := huses f
        rw [uses_of_not_present hold] at h1
        simpa using h1
      · cases hr
  · by_cases hpage : b / pgSize = a / pgSize
    · rcases mappages_page_cases pa ⟨false, true, true⟩ false pd m hal hw with ⟨-, -, hmap⟩ | ⟨d, m₁, hmap, hmapped⟩
      · cases hmap.symm.trans h
        rfl
      · cases hmap.symm.trans h
        rw [PageDir.pte, PageDir.pte, pte?_page hpage, pte?_page hpage, hmapped.entry, ← PageDir.pte, hold]
        rfl
    · rw [mappages_other hal ha h hb hpage]

/-- The entries of the ring that a copy takes: one for each present page above the image of the program. -/
def ringPages (pr : Proc) : Nat → Nat → Nat
  | 0, _ => 0
  | n + 1, i => ringPages pr n (i + pgSize) +
    if pr.cdbSize < i ∧ (pr.pgdir.elim Pte.zero (·.pte i)).present = true then 1 else 0

theorem copyuvmLoop_pages {old new : ProcIdx} : ∀ {n i : Nat} {mem : Option Nat} {d d' : PageDir} {s s' : Kernel} {done : Bool},
    i % pgSize = 0 → i + n * pgSize ≤ kernBase → ringPages (s.ptable old) n i ≤ freeEntries s.lru → Holding d s.phys →
    (∀ b, i ≤ b → b < kernBase → (d.pte b).present = false) → copyuvmLoop old new n i mem d s = .ok (done, d', s') →
    ∃ l m, s' = { s with lru := l, phys := m } ∧ Builds d s.phys d' m
  | 0, i, _, d, _, s, _, _, _, _, _, _, hd, h => by
    cases h
    exact ⟨s.lru, s.phys, rfl, ⟨rfl, fun _ => rfl⟩⟩
  | n + 1, i, mem, d, d', s, s', done, hal, hi, hroom, hh, hd, h => by
    have hal' : (i + pgSize) % pgSize = 0 := by simp only [pgSize] at *; omega
    have hi' : i + pgSize + n * pgSize ≤ kernBase := by simp only [pgSize] at *; omega
    have hlt : i < kernBase := by simp only [pgSize, kernBase] at *; omega
    have hold := hd i le_rfl hlt
    -- beyond the page that is mapped nothing is present
    have hnext : ∀ b, i + pgSize ≤ b → b / pgSize ≠ i / pgSize := fun b hb => by simp only [pgSize] at *; omega
    rw [ringPages] at hroom
    rw [copyuvmLoop] at h
    obtain ⟨pd, hpd, h⟩ := bind_eq_ok.1 h
    rw [deref_eq_ok] at hpd
    split at h
    · cases h
    next pte hpte =>
    split at h
    · rcases hmap : mappages d i pgSize (mem.elim kernBase (· * pgSize)) ⟨false, true, true⟩ false s.phys with ⟨r, d₁, m₁⟩
      rw [hmap] at h
      obtain ⟨hb, hp⟩ := mappages_blank hal hlt hold hmap
      dsimp only at h
      split at h
      · cases h
        exact ⟨s.lru, m₁, rfl, hb⟩
      · obtain ⟨l, m, rfl, hb'⟩ := copyuvmLoop_pages (s := { s with phys := m₁ }) hal' hi' (by simp only; omega)
          (hb.holding hh) (fun b h1 h2 => by rw [hp b h2]; exact hd b (by omega) h2) h
        exact ⟨l, m, rfl, hb.trans hb'⟩
    · next hpres =>
      obtain ⟨⟨x, s₁⟩, hk, hcopy⟩ := bind_eq_ok.1 h
      clear h
      have htaken : (if (s.ptable old).cdbSize < i ∧ ((s.ptable old).pgdir.elim Pte.zero (·.pte i)).present = true then 1 else 0) =
          if (if (s.ptable old).cdbSize < i then (i : Int) else -1) = -1 then 0 else 1 := by
        have : ((s.ptable old).pgdir.elim Pte.zero (·.pte i)).present = true := by
          rw [hpd, Option.elim_some, PageDir.pte, hpte]
          simpa using hpres
        split <;> split <;> simp_all
      rw [htaken] at hroom
      rcases kalloc_pages (fun hne => by rw [if_neg hne] at hroom; omega) hk with ⟨rfl, rfl⟩ | ⟨g, fl, l, rfl, hfl, rfl, hl⟩
      · cases hcopy
        exact ⟨_, _, rfl, ⟨rfl, fun _ => rfl⟩⟩
      · dsimp only at hcopy
        obtain ⟨pd', -, hmap⟩ := bind_eq_ok.1 hcopy
        clear hcopy
        split at hmap
        · cases hmap
        next pte _ =>
        have hg : s.phys.layout.Holds g := hh g (by rw [free_cons hfl, one, if_pos rfl]; omega)
        generalize hm₁ : ({ s.phys with freelist := fl }.setPage g (({ s.phys with freelist := fl } : Phys).mem pte.frame)) = m₁
          at hmap
        have hlay : m₁.layout = s.phys.layout := by rw [← hm₁]; rfl
        have hfree : ∀ f, s.phys.free f = m₁.free f + one g f := fun f => by rw [free_cons hfl, ← hm₁]; rfl
        rcases hres : mappages d i pgSize (g * pgSize) pte.toFlags true m₁ with ⟨r, d₁, m₂⟩
        rw [hres] at hmap
        dsimp only at hmap
        rcases mappages_builds hal hlt hold hlay hfree hres with ⟨rfl, hb⟩ | ⟨rfl, rfl, rfl⟩
        · rw [if_neg (by decide)] at hmap
          obtain ⟨l', m, rfl, hb'⟩ := copyuvmLoop_pages (s := { s with lru := l, phys := m₂ }) hal' hi' (by simp only; omega)
            (hb.holding hh) (fun b h1 h2 => by rw [mappages_other hal hlt hres h2 (hnext b h1)]; exact hd b (by omega) h2) hmap
          exact ⟨l', m, rfl, hb.trans hb'⟩
        · rw [if_pos (by decide)] at hmap
          obtain ⟨s₂, hfreed, hmap⟩ := bind_eq_ok.1 hmap
          cases hmap
          obtain ⟨m, rfl, hlay', hfree'⟩ := klruFreeSwap_kernel (by rw [hlay]; exact hg) hfreed
          refine ⟨l, m, rfl, ⟨hlay'.trans hlay, fun f => ?_⟩⟩
          have h1 := hfree f
          have h2 := hfree' f
          dsimp only at h2
          omega

/-- What a copy leaves of the pages: they are in the new directory or free again. -/
structure Copied (s : Kernel) (d : Option PageDir) (s' : Kernel) : Prop where
  layout : s'.phys.layout = s.phys.layout
  uses : ∀ f, (d.elim 0 fun pd => pd.uses f) + s'.phys.free f = s.phys.free f
  procs : ∀ q, SameProc (s.ptable q) (s'.ptable q)

theorem copyuvm_pages {d : Option PageDir} (hsz : (s.ptable p).sz ≤ kernBase)
    (hroom : ringPages (s.ptable p) (userPages (s.ptable p)) 0 ≤ freeEntries s.lru)
    (hh : ∀ f, 0 < s.phys.free f → s.phys.layout.Holds f) (h : copyuvm p np s = .ok (d, s')) : Copied s d s' := by
  unfold copyuvm at h
  obtain ⟨⟨d₀, m₀⟩, hset, h⟩ := bind_eq_ok.1 h
  obtain ⟨hlay, huses⟩ := setupkvm_uses hset
  cases d₀ with
  | none =>
    cases h
    exact ⟨hlay, huses, fun _ => SameProc.refl _⟩
  | some d₀ =>
    obtain ⟨⟨done, d₁, s₁⟩, hloop, h⟩ := bind_eq_ok.1 h
    have hkd : ∀ b < kernBase, d₀.pte b = Pte.zero := by
      rcases setupkvm_cases (m := s.phys) with ⟨-, hno⟩ | ⟨pd, m, -, hset', hkd⟩
      · cases hno _ _ hset
      · cases hset'.symm.trans hset
        exact fun b hb => hkd.pte_user hb
    have hh₀ : Holding d₀ m₀ := by
      intro f hf
      rw [hlay]
      exact hh f (by rw [← huses f]; exact hf)
    obtain ⟨l, m, rfl, hb⟩ := copyuvmLoop_pages (s := { s with phys := m₀ }) (by decide)
      (by simp only [userPages, pgSize, kernBase] at *; omega) hroom hh₀ (fun b _ hb => by rw [hkd b hb]; rfl) hloop
    have huses₁ : ∀ f, d₁.uses f + m.free f = s.phys.free f := fun f => (hb.uses f).trans (huses f)
    dsimp only at h
    split at h
    · cases h
      exact ⟨hb.layout.trans hlay, huses₁, fun _ => SameProc.refl _⟩
    · obtain ⟨l', -, h⟩ := bind_eq_ok.1 h
      obtain ⟨s₂, hfree, h⟩ := bind_eq_ok.1 h
      obtain ⟨m', hvm, h⟩ := bind_eq_ok.1 h
      cases h
      have hsame := swapFree_pages hfree
      obtain ⟨hlay', hvm⟩ := freevm_uses hvm
      refine ⟨hlay'.trans (hsame.layout.trans (hb.layout.trans hlay)), fun f => ?_, fun q => hsame.procs q⟩
      have h1 := hvm f
      have h2 := hsame.free f
      have h3 := huses₁ f
      simp only [Option.elim_none, Nat.zero_add]
      dsimp only at h2
      omega

theorem fork_pages {r : Int} (hk : Kept s) (hroom : ringPages (s.ptable p) (userPages (s.ptable p)) 0 ≤ freeEntries s.lru)
    (hp : Live s p) (h : fork p s = .ok (r, s')) : (∀ f, s'.uses f = s.uses f) ∧ Kept s' ∧ s'.phys.layout = s.phys.layout := by
  rcases fork_ok h with ⟨-, hal⟩ | ⟨np, s₁, s₂, hal, hcase⟩
  · -- no entry, or no page for the kernel stack
    have hsame : SamePages s s' := by
      obtain rfl | ⟨np, hun, rfl⟩ := allocproc_none hal
      · exact ⟨rfl, fun _ => rfl, fun _ => SameProc.refl _⟩
      refine ⟨rfl, fun _ => rfl, fun q => ?_⟩
      by_cases hq : q = np
      · subst hq
        obtain ⟨hks, -⟩ := hk.idle q (by rw [Live, not_not]; exact hun)
        simp only [Function.update_self]
        exact ⟨hks.symm, rfl, rfl, hun.symm⟩
      · simp only [Function.update_of_ne hq]
        exact SameProc.refl _
    exact ⟨(hsame.moves p).uses_eq, hsame.kept hk, hsame.layout⟩
  obtain ⟨hfind, k, fl, hfl, hs₁⟩ := allocproc_some hal
  have hun : (s.ptable np).state = .unused := by simpa using Fin.eq_true_of_find?_eq_some hfind
  obtain ⟨hks, hpg⟩ := hk.idle np (by rw [Live, not_not]; exact hun)
  have hne : p ≠ np := by rintro rfl; exact hp hun
  have hp₁ : s₁.ptable p = s.ptable p := by simp [hs₁, hne]
  have hfree₁ : ∀ f, s.phys.free f = s₁.phys.free f + one k f := fun f => by rw [free_cons hfl, hs₁]; rfl
  have hlay₁ : s₁.phys.layout = s.phys.layout := by rw [hs₁]
  have hcopied : ∀ d, copyuvm p np s₁ = .ok (d, s₂) → Copied s₁ d s₂ := by
    intro d hcopy
    refine copyuvm_pages (by rw [hp₁]; exact hk.size p) (by rw [hp₁, hs₁]; exact hroom) (fun f hf => ?_) hcopy
    have := hfree₁ f
    rw [hlay₁]
    exact hk.holds f (by rw [Kernel.uses]; omega)
  have hother : ∀ {d}, Copied s₁ d s₂ → ∀ q, q ≠ np → SameProc (s.ptable q) (s₂.ptable q) := fun hc q hq => by
    simpa [hs₁, hq] using hc.procs q
  have hstack : ∀ {d}, Copied s₁ d s₂ → (s₂.ptable np).kstack = some k ∧ (s₂.ptable np).sz = (s.ptable np).sz := fun hc => by
    have := hc.procs np
    refine ⟨this.kstack.trans ?_, this.sz.trans ?_⟩ <;> simp [hs₁]
  rcases hcase with ⟨-, hcopy, k', m, hk', hm, hs'⟩ | ⟨d, hcopy, hcommit, -⟩
  · -- no memory for the copy: its pages and the stack are free again
    have hc := hcopied none hcopy
    rw [(hstack hc).1] at hk'
    cases hk'
    have hfree := kfree_uses hm
    have hsame : SamePages s s' := by
      refine ⟨?_, fun f => ?_, fun q => ?_⟩
      · rw [hs']
        exact (hfree 0).1.trans (hc.layout.trans hlay₁)
      · have h1 := (hfree f).2
        have h2 := hc.uses f
        have h3 := hfree₁ f
        rw [Option.elim_none] at h2
        rw [hs']
        dsimp only
        omega
      · by_cases hq : q = np
        · subst hq
          rw [hs']
          simp only [Kernel.setProc_same]
          exact ⟨hks.symm, hpg.symm, (hstack hc).2, hun.symm⟩
        · rw [show s'.ptable q = s₂.ptable q by simp [hs', Kernel.setProc, hq]]
          exact hother hc q hq
    exact ⟨(hsame.moves p).uses_eq, hsame.kept hk, hsame.layout⟩
  · -- the child has the directory and the stack
    have hc := hcopied (some d) hcopy
    obtain ⟨sw, -, hs'⟩ := forkCommit_eq hne.symm hcommit
    have hchild : (s'.ptable np).kstack = some k ∧ (s'.ptable np).pgdir = some d ∧ (s'.ptable np).sz = (s.ptable p).sz := by
      rw [hs']
      simp only [Function.update_self, true_and]
      exact ⟨(hstack hc).1, (hother hc p hne).sz⟩
    have hmoves : Moves np s s' := by
      refine ⟨by rw [hs']; exact hc.layout.trans hlay₁, fun q hq => ?_, fun f => ?_⟩
      · obtain ⟨h1, h2, h3, h4⟩ := hother hc q hq
        by_cases hqp : q = p
        · subst hqp
          rw [hs']
          simp only [Function.update_of_ne hq, Function.update_self]
          exact ⟨h1, h2, h3, h4⟩
        · rw [show s'.ptable q = s₂.ptable q by simp [hs', hq, hqp]]
          exact ⟨h1, h2, h3, h4⟩
      · have h1 := hc.uses f
        have h2 := hfree₁ f
        rw [Proc.uses, Proc.uses, hks, hpg, hchild.1, hchild.2.1, hs']
        simp only [Option.elim_some, Option.elim_none] at h1 ⊢
        omega
    refine ⟨hmoves.uses_eq, hmoves.kept hk (fun hl => ?_) ?_, hmoves.layout⟩
    · simp [Live, hs'] at hl
    · rw [hchild.2.2]
      exact hk.size p

end Fork

/-! ## Exec -/

section Exec

variable {s s' : Kernel} {p : ProcIdx}

theorem allocuvmLoop_pages : ∀ {n a : Nat} {pd pd' : PageDir} {s s' : Kernel} {done : Bool}, a % pgSize = 0 →
    a + n * pgSize ≤ kernBase → (∀ b, a ≤ b → b < a + n * pgSize → (pd.pte b).present = false) →
    allocuvmLoop p false n a pd s = .ok (done, pd', s') → ∃ m, s' = { s with phys := m } ∧ Builds pd s.phys pd' m ∧
      ∀ b < kernBase, (pd'.pte b).present = (pd.pte b).present
  | 0, _, pd, _, s, _, _, _, _, _, h => by
    cases h
    exact ⟨s.phys, rfl, ⟨rfl, fun _ => rfl⟩, fun _ _ => rfl⟩
  | n + 1, a, pd, pd', s, s', done, hal, hi, hd, h => by
    have hal' : (a + pgSize) % pgSize = 0 := by simp only [pgSize] at *; omega
    have hi' : a + pgSize + n * pgSize ≤ kernBase := by simp only [pgSize] at *; omega
    have hlt : a < kernBase := by simp only [pgSize, kernBase] at *; omega
    rw [allocuvmLoop] at h
    simp only [Bool.false_eq_true, if_false, pure_ok, ok_bind] at h
    rcases hmap : mappages pd a pgSize (0 * pgSize) ⟨false, true, true⟩ false s.phys with ⟨r, d₁, m₁⟩
    rw [hmap] at h
    obtain ⟨hb, hp⟩ := mappages_blank hal hlt (hd a le_rfl (by simp only [pgSize]; omega)) hmap
    dsimp only at h
    split at h
    · cases h
      exact ⟨m₁, rfl, hb, hp⟩
    · obtain ⟨m, rfl, hb', hp'⟩ := allocuvmLoop_pages (s := { s with phys := m₁ }) hal' hi'
        (fun b h1 h2 => by
          rw [hp b (by omega)]
          exact hd b (by omega) (by simp only [pgSize] at *; omega)) h
      exact ⟨m, rfl, hb.trans hb', fun b hlt => (hp' b hlt).trans (hp b hlt)⟩

theorem pgRoundUp_le_kernBase {a : Nat} (ha : a ≤ kernBase) : pgRoundUp a ≤ kernBase := by
  simp only [pgRoundUp, pgSize, kernBase, wordSize] at *
  omega

theorem pgRoundUp_mono {a b : Nat} (hab : a ≤ b) (hb : b ≤ kernBase) : pgRoundUp a ≤ pgRoundUp b := by
  simp only [pgRoundUp, pgSize, kernBase, wordSize] at *
  omega

/-- Where the loop of `allocuvm` ends. -/
theorem mapped_end {a newsz : Nat} (ha : a % pgSize = 0) (hn : newsz < kernBase) :
    a + (newsz - a + pgSize - 1) / pgSize * pgSize ≤ max a (pgRoundUp newsz) := by
  simp only [pgRoundUp, pgSize, kernBase, wordSize] at *
  omega

/-- `allocuvm` that only maps, where nothing is present. -/
theorem allocuvm_pages {pd pd' : PageDir} {oldsz newsz r : Nat} (hold : oldsz ≤ kernBase)
    (hd : ∀ b, pgRoundUp oldsz ≤ b → b < pgRoundUp newsz → b < kernBase → (pd.pte b).present = false)
    (h : allocuvm p pd oldsz newsz false s = .ok (r, pd', s')) : ∃ m, s' = { s with phys := m } ∧ Builds pd s.phys pd' m ∧
      (∀ b < kernBase, (pd'.pte b).present = (pd.pte b).present) ∧
      (r ≠ 0 → oldsz ≤ r ∧ r ≤ kernBase ∧ (r = oldsz ∨ r = newsz)) := by
  unfold allocuvm at h
  split at h
  · cases h
    exact ⟨s.phys, rfl, ⟨rfl, fun _ => rfl⟩, fun _ _ => rfl, fun hr => absurd rfl hr⟩
  split at h
  · cases h
    exact ⟨s.phys, rfl, ⟨rfl, fun _ => rfl⟩, fun _ _ => rfl, fun _ => ⟨le_rfl, hold, .inl rfl⟩⟩
  · obtain ⟨⟨done, pd₁, s₁⟩, hloop, h⟩ := bind_eq_ok.1 h
    cases h
    have hend : pgRoundUp oldsz + (newsz - pgRoundUp oldsz + pgSize - 1) / pgSize * pgSize ≤ _ :=
      mapped_end (by simp only [pgRoundUp, pgSize]; omega) (by omega)
    have hk := pgRoundUp_le_kernBase hold
    have hk' := pgRoundUp_le_kernBase (a := newsz) (by omega)
    obtain ⟨m, rfl, hb, hp⟩ := allocuvmLoop_pages (by simp only [pgRoundUp, pgSize]; omega)
      (hend.trans (max_le hk hk')) (fun b h1 h2 => hd b h1 (by omega) (by omega)) hloop
    refine ⟨m, rfl, hb, hp, fun hr => ?_⟩
    split at hr
    · next hdone => rw [if_pos hdone]; exact ⟨by omega, by omega, .inr rfl⟩
    · exact absurd rfl hr

/-- Loading the segments maps pages into a directory without any that are present. -/
theorem execLoad_pages {file : File} : ∀ {n off sz : Nat} {pd pd' : PageDir} {s s' : Kernel} {o : Option Nat}, sz ≤ kernBase →
    (∀ b < kernBase, (pd.pte b).present = false) → execLoad p file n off sz pd s = .ok (o, pd', s') →
    ∃ ph m, s' = s.own p { s.ptable p with ph := ph } m ∧ Builds pd s.phys pd' m ∧ (∀ b < kernBase, (pd'.pte b).present = false) ∧
      ∀ c, o = some c → c ≤ kernBase
  | 0, _, sz, pd, _, s, _, _, hsz, hd, h => by
    cases h
    exact ⟨(s.ptable p).ph, s.phys, (s.own_eq p).symm, ⟨rfl, fun _ => rfl⟩, hd, fun c hc => by cases hc; exact hsz⟩
  | n + 1, off, sz, pd, pd', s, s', o, hsz, hd, h => by
    have hsame : ∃ ph m, s = s.own p { s.ptable p with ph := ph } m ∧ Builds pd s.phys pd m :=
      ⟨(s.ptable p).ph, s.phys, (s.own_eq p).symm, rfl, fun _ => rfl⟩
    rw [execLoad] at h
    dsimp only at h
    split at h
    · cases h
      obtain ⟨ph, m, he, hb⟩ := hsame
      exact ⟨ph, m, he, hb, hd, fun c hc => by cases hc⟩
    split at h
    · exact execLoad_pages hsz hd h
    split at h
    · cases h
      obtain ⟨ph, m, he, hb⟩ := hsame
      exact ⟨ph, m, he, hb, hd, fun c hc => by cases hc⟩
    split at h
    · cases h
      obtain ⟨ph, m, he, hb⟩ := hsame
      exact ⟨ph, m, he, hb, hd, fun c hc => by cases hc⟩
    split at h
    · cases h
      obtain ⟨ph, m, he, hb⟩ := hsame
      exact ⟨ph, m, he, hb, hd, fun c hc => by cases hc⟩
    obtain ⟨⟨r, pd₁, s₁⟩, halloc, h⟩ := bind_eq_ok.1 h
    obtain ⟨m, rfl, hb, hp, hr⟩ := allocuvm_pages hsz (fun b _ _ h2 => hd b h2) halloc
    have hd₁ : ∀ b < kernBase, (pd₁.pte b).present = false := fun b hlt => by rw [hp b hlt]; exact hd b hlt
    dsimp only at h
    split at h
    · cases h
      exact ⟨_, m, rfl, hb, hd₁, fun c hc => by cases hc⟩
    · next hz =>
      obtain ⟨ph, m', rfl, hb', hd', hc⟩ := execLoad_pages (hr hz).2.1 hd₁ h
      refine ⟨ph, m', ?_, hb.trans hb', hd', hc⟩
      simp [Kernel.own, Kernel.setProc]

/-- Swapping out a page that is not present: no page changes hands. -/
structure Parked (p : ProcIdx) (s s' : Kernel) : Prop extends Steady p s s' where
  phys : s'.phys = s.phys
  kstack : (s'.ptable p).kstack = (s.ptable p).kstack
  present : ∀ b < kernBase, (s'.pte p b).present = (s.pte p b).present

theorem Parked.trans {s'' : Kernel} (h : Parked p s s') (h' : Parked p s' s'') : Parked p s s'' :=
  ⟨h.toSteady.trans h'.toSteady, h'.phys.trans h.phys, h'.kstack.trans h.kstack,
    fun b hb => (h'.present b hb).trans (h.present b hb)⟩

theorem swapOut_pages {kind : SwapKind} {v : Nat} {r : Int} (hv : v < kernBase) (hnp : (s.pte p v).present = false)
    (h : swapOutFunc kind p v s = .ok (r, s')) : Parked p s s' := by
  rw [swapOutFunc_eq] at h
  by_cases hr : 0 ≤ r
  · obtain ⟨f, list, sw, pd, pte, l, -, hpd, hpte, -, rfl⟩ := swapOutWith_user h hr hv.le
    have hself : pte.present = false := by
      rw [Kernel.pte, hpd, Option.elim_some, PageDir.pte, hpte] at hnp
      exact hnp
    refine ⟨⟨⟨rfl, fun q hq => ?_, fun f => ?_⟩, by simp, by simp⟩, rfl, by simp, fun b hb => ?_⟩
    · simp only [Function.update_of_ne hq]
      exact SameProc.refl _
    · have huses := uses_setPte { pte with present := false } hv hpte f
      rw [uses_of_not_present hself, uses_of_not_present rfl] at huses
      simp only [Function.update_self, Proc.uses, hpd, Option.elim_some]
      omega
    · simp only [Kernel.pte, Function.update_self, hpd, Option.elim_some]
      by_cases hidx : pdx b = pdx v ∧ ptx b = ptx v
      · have hab : ∀ pd : PageDir, pd.pte? b = pd.pte? v := fun pd => by rw [PageDir.pte?, PageDir.pte?, hidx.1, hidx.2]
        rw [PageDir.pte, PageDir.pte, hab, hab, pte?_setPte_same (by rw [Ne, ← pte?_eq_none, hpte]; simp), hpte]
        exact hself.symm
      · rw [PageDir.pte, PageDir.pte, pte?_setPte_other hidx]
  · obtain ⟨slot, list, sw, hlink, -, -, -, hsome⟩ := swapOutWith_ok h
    cases slot with
    | some f => exact absurd (hsome f rfl).1 (by rintro rfl; exact hr (by decide))
    | none =>
      unfold swapOutWith at h
      rw [hlink] at h
      cases h
      have hself : (s.setSwap p list sw).ptable p = { s.ptable p with swapList := list } := by
        rw [Kernel.setSwap_ptable, if_pos rfl]
      refine ⟨⟨⟨rfl, fun q hq => ?_, fun f => ?_⟩, by rw [hself], by rw [hself]⟩, rfl, by rw [hself], fun b _ => ?_⟩
      · rw [Kernel.setSwap_ptable, if_neg hq]
        exact SameProc.refl _
      · rw [hself]
        rfl
      · rw [Kernel.pte, Kernel.pte, hself]

/-- The state of `exec` before the commit: a directory is under construction. -/
structure Loading (s : Kernel) (p : ProcIdx) (pr : Proc) (pd : PageDir) (m : Phys) : Prop where
  proc : SameProc (s.ptable p) pr
  layout : m.layout = s.phys.layout
  uses : ∀ f, pd.uses f + m.free f = s.phys.free f
  blank : ∀ b < kernBase, (pd.pte b).present = false

theorem Loading.same {pr : Proc} {m : Phys} (hpr : SameProc (s.ptable p) pr) (hlay : m.layout = s.phys.layout)
    (hfree : ∀ f, m.free f = s.phys.free f) : SamePages s (s.own p pr m) := by
  refine ⟨hlay, hfree, fun q => ?_⟩
  by_cases hq : q = p
  · subst hq
    rw [Kernel.own_self]
    exact hpr
  · rw [show (s.own p pr m).ptable q = s.ptable q by simp [Kernel.own, hq]]
    exact SameProc.refl _

theorem execBad_pages {pr : Proc} {pd : PageDir} {m : Phys} {r : Int} (hl : Loading s p pr pd m)
    (h : execBad p pd (s.own p pr m) = .ok (r, s')) : SamePages s s' := by
  unfold execBad at h
  obtain ⟨l, -, h⟩ := bind_eq_ok.1 h
  obtain ⟨t, hfree, h⟩ := bind_eq_ok.1 h
  obtain ⟨m', hvm, h⟩ := bind_eq_ok.1 h
  cases h
  have hsame := swapFree_pages hfree
  obtain ⟨hlay, huses⟩ := freevm_uses hvm
  refine ⟨hlay.trans (hsame.layout.trans hl.layout), fun f => ?_, fun q => ?_⟩
  · have h1 := huses f
    have h2 := hsame.free f
    have h3 := hl.uses f
    simp only [Kernel.own] at h2
    dsimp only
    omega
  · have hq := hsame.procs q
    by_cases hqp : q = p
    · subst hqp
      simp only [Kernel.own_self] at hq
      exact ⟨hq.kstack.trans hl.proc.kstack, hq.pgdir.trans hl.proc.pgdir, hq.sz.trans hl.proc.sz, hq.state.trans hl.proc.state⟩
    · simpa [Kernel.own, hqp] using hq

theorem execCommit_pages {pr : Proc} {pd : PageDir} {m : Phys} {r : Int} {path : List UInt8} {elf : ElfHdr} {sz sp base : Nat}
    (hk : Kept s) (hp : Live s p) (hl : Loading s p pr pd m) (hsz : sz ≤ kernBase)
    (h : execCommit p path elf pd sz sp base (s.own p pr m) = .ok (r, s')) : Moves p s s' ∧ Kept s' := by
  obtain ⟨name, path', r', t, old, m', hout, -, hold, hvm, hs'⟩ := execCommit_ok h
  rw [Kernel.own_self] at hold
  obtain ⟨⟨hmoves, hsz', hst⟩, hphys, hks, -⟩ := swapOut_pages (by simp only [pgSize, kernBase] at *; omega)
    (by
      simp only [Kernel.pte, Kernel.setProc_same, Option.elim_some]
      exact hl.blank _ (by simp only [pgSize, kernBase] at *; omega)) hout
  have hproc : s'.ptable = t.ptable := by rw [hs']
  simp only [Kernel.setProc_same, Kernel.own_self] at hks hsz' hst
  obtain ⟨hlay, huses⟩ := freevm_uses hvm
  have hm : Moves p s s' := by
    refine ⟨?_, fun q hq => ?_, fun f => ?_⟩
    · rw [hs']
      dsimp only
      rw [hlay, hphys]
      exact hl.layout
    · rw [hproc]
      simpa [Kernel.setProc, Kernel.own, hq] using hmoves.other q hq
    · have h1 := hmoves.uses f
      have h2 := huses f
      have h3 := hl.uses f
      rw [hphys] at h1 h2
      simp only [Kernel.setProc_same, Kernel.setProc_phys, Kernel.own, Function.update_self, Proc.uses, Option.elim_some] at h1 h2
      rw [hproc, hs']
      have hold' : (s.ptable p).pgdir = some old := by rw [← hl.proc.pgdir]; exact hold
      rw [show (s.ptable p).uses f = pr.kstack.elim 0 (one · f) + old.uses f by
        rw [Proc.uses, hold', ← hl.proc.kstack]; rfl, Proc.uses]
      dsimp only
      omega
  refine ⟨hm, hm.kept hk (fun hn => ?_) ?_⟩
  · rw [Live, hproc, hst, hl.proc.state] at hn
    exact absurd hp hn
  · rw [hproc, hsz']
    exact hsz

theorem clearpteu_pages {pd pd' : PageDir} {a : Nat} (ha : a < kernBase) (h : clearpteu pd a = .ok pd') (f : Nat) :
    pd'.uses f = pd.uses f := by
  unfold clearpteu at h
  split at h
  · cases h
  · next pte hpte =>
    cases h
    have := uses_setPte { pte with user := false } ha hpte f
    have hsame : Pte.uses { pte with user := false } f = pte.uses f := rfl
    omega

theorem execStack_pages {pr : Proc} {pd : PageDir} {m : Phys} {r : Int} {path : List UInt8} {argv : List (List UInt8)}
    {elf : ElfHdr} {c : Nat} (hk : Kept s) (hp : Live s p) (hl : Loading s p pr pd m) (hc : c ≤ kernBase)
    (h : execStack p path argv elf pd c (s.own p pr m) = .ok (r, s')) : Moves p s s' ∧ Kept s' := by
  have hsame : ∀ pr' : Proc, SameProc pr pr' → SameProc (s.ptable p) pr' := fun _ h' =>
    ⟨h'.kstack.trans hl.proc.kstack, h'.pgdir.trans hl.proc.pgdir, h'.sz.trans hl.proc.sz, h'.state.trans hl.proc.state⟩
  unfold execStack at h
  dsimp only at h
  obtain ⟨⟨sz, pd₁, t₁⟩, halloc, h⟩ := bind_eq_ok.1 h
  obtain ⟨m₁, rfl, hb, hpres, hsz⟩ := allocuvm_pages (by simp only [pgRoundUp, pgSize, kernBase, wordSize] at *; omega)
    (fun b _ _ h2 => hl.blank b h2) halloc
  have hl₁ : ∀ pr' : Proc, SameProc pr pr' → Loading s p pr' pd₁ m₁ := fun pr' h' =>
    ⟨hsame pr' h', hb.layout.trans hl.layout, fun f => (hb.uses f).trans (hl.uses f),
      fun b hlt => by rw [hpres b hlt]; exact hl.blank b hlt⟩
  have hbad : ∀ {pr' : Proc} {pd' : PageDir} {m' : Phys}, Loading s p pr' pd' m' →
      execBad p pd' (s.own p pr' m') = .ok (r, s') → Moves p s s' ∧ Kept s' := by
    intro pr' pd' m' hl' hbad
    have := execBad_pages hl' hbad
    exact ⟨this.moves p, this.kept hk⟩
  dsimp only at h
  split at h
  · simp only [Kernel.own, Kernel.setProc, Function.update_self, Function.update_idem] at h
    exact hbad (hl₁ { pr with cdbSize := c } ⟨rfl, rfl, rfl, rfl⟩) h
  next hz =>
  obtain ⟨pd₂, hclear, h⟩ := bind_eq_ok.1 h
  obtain ⟨-, hpte⟩ := clearpteu_ok hclear
  have hlt : sz - 2 * pgSize < kernBase := by have := (hsz hz).2.1; simp only [pgSize, kernBase] at *; omega
  have hl₂ : ∀ pr' : Proc, SameProc pr pr' → Loading s p pr' pd₂ m₁ := fun pr' h' =>
    ⟨hsame pr' h', (hl₁ pr' h').layout, fun f => by rw [clearpteu_pages hlt hclear]; exact (hl₁ pr' h').uses f,
      fun b hlt => by rw [(hpte b).1]; exact (hl₁ pr' h').blank b hlt⟩
  obtain ⟨⟨args, buf⟩, -, h⟩ := bind_eq_ok.1 h
  cases args with
  | none =>
    simp only [Kernel.own, Kernel.setProc, Function.update_self, Function.update_idem] at h
    exact hbad (hl₂ { pr with cdbSize := c, stackBuffer := buf } ⟨rfl, rfl, rfl, rfl⟩) h
  | some x =>
    obtain ⟨buf', -, h⟩ := bind_eq_ok.1 h
    simp only [Kernel.own, Kernel.setProc, Function.update_self, Function.update_idem] at h
    exact execCommit_pages hk hp (hl₂ { pr with cdbSize := c, stackBuffer := buf' } ⟨rfl, rfl, rfl, rfl⟩) (hsz hz).2.1 h

theorem exec_pages {r : Int} {path : List UInt8} {argv : List (List UInt8)} (hk : Kept s) (hp : Live s p)
    (h : exec p path argv s = .ok (r, s')) : Moves p s s' ∧ Kept s' := by
  have hown : ∀ (pr : Proc) {m : Phys}, SameProc (s.ptable p) pr → m.layout = s.phys.layout → (∀ f, m.free f = s.phys.free f) →
      Moves p s (s.own p pr m) ∧ Kept (s.own p pr m) := fun _ _ h1 h2 h3 =>
    ⟨(Loading.same h1 h2 h3).moves p, (Loading.same h1 h2 h3).kept hk⟩
  unfold exec at h
  split at h
  · cases h
    simpa [Kernel.own_eq] using hown (s.ptable p) (SameProc.refl _) (m := s.phys) rfl fun _ => rfl
  · next ip _ =>
    dsimp only at h
    split at h
    · cases h
      exact hown { s.ptable p with ip := ip } ⟨rfl, rfl, rfl, rfl⟩ rfl fun _ => rfl
    split at h
    · cases h
      exact hown { s.ptable p with ip := ip } ⟨rfl, rfl, rfl, rfl⟩ rfl fun _ => rfl
    obtain ⟨⟨d, m₀⟩, hset, h⟩ := bind_eq_ok.1 h
    obtain ⟨hlay, huses⟩ := setupkvm_uses hset
    cases d with
    | none =>
      cases h
      exact hown { s.ptable p with ip := ip } ⟨rfl, rfl, rfl, rfl⟩ hlay fun f => by simpa using huses f
    | some d =>
      have hkd : ∀ b < kernBase, (d.pte b).present = false := by
        rcases setupkvm_cases (m := s.phys) with ⟨-, hno⟩ | ⟨pd, m, -, hset', hkd⟩
        · cases hno _ _ hset
        · cases hset'.symm.trans hset
          exact fun b hb => by rw [hkd.pte_user hb]; rfl
      dsimp only at h
      obtain ⟨⟨o, pd₁, t₁⟩, hload, h⟩ := bind_eq_ok.1 h
      obtain ⟨ph, m₁, rfl, hb, hblank, hc⟩ := execLoad_pages (by decide) hkd hload
      have hl : Loading s p { s.ptable p with ip := ip, ph := ph } pd₁ m₁ :=
        ⟨⟨rfl, rfl, rfl, rfl⟩, hb.layout.trans hlay, fun f => (hb.uses f).trans (huses f), hblank⟩
      simp only [Kernel.own, Kernel.setProc, Function.update_self, Function.update_idem] at h
      cases o with
      | none =>
        have := execBad_pages hl h
        exact ⟨this.moves p, this.kept hk⟩
      | some c => exact execStack_pages hk hp hl (hc c rfl) h

end Exec

/-! ## Growing and shrinking -/

section Grow

variable {s s' : Kernel} {p : ProcIdx}

theorem growprocLoop_pages : ∀ {n i : Nat} {s s' : Kernel} {r : Int},
    (∀ j < n, (s.ptable p).sz + (i + j) * pgSize < kernBase ∧ (s.pte p ((s.ptable p).sz + (i + j) * pgSize)).present = false) →
    growprocLoop p n i s = .ok (r, s') → Parked p s s'
  | 0, _, s, _, _, _, h => by
    cases h
    exact ⟨⟨Moves.refl p s, rfl, rfl⟩, rfl, rfl, fun _ _ => rfl⟩
  | n + 1, i, s, s', r, hnew, h => by
    rw [growprocLoop] at h
    obtain ⟨⟨r₁, s₁⟩, hout, h⟩ := bind_eq_ok.1 h
    obtain ⟨hlt, hnp⟩ := hnew 0 (Nat.succ_pos n)
    rw [Nat.add_zero] at hlt hnp
    have hbuf : Parked p s (s.setProc p { s.ptable p with heapBuffer := zeroPage }) := by
      refine ⟨⟨⟨rfl, fun q hq => ?_, fun f => ?_⟩, by simp, by simp⟩, rfl, by simp, fun b _ => by simp [Kernel.pte]⟩
      · rw [Kernel.setProc_ptable, if_neg hq]
        exact SameProc.refl _
      · rw [Kernel.setProc_same]
        rfl
    simp only [Kernel.setProc_same] at hout
    rw [Nat.mod_eq_of_lt (by simp only [kernBase, wordSize] at *; omega)] at hout
    have hpark := hbuf.trans (swapOut_pages hlt (by rw [hbuf.present _ hlt]; exact hnp) hout)
    dsimp only at h
    split at h
    · cases h
      exact hpark
    · refine hpark.trans (growprocLoop_pages (fun j hj => ?_) h)
      obtain ⟨h1, h2⟩ := hnew (j + 1) (by omega)
      rw [hpark.sz, show i + 1 + j = i + (j + 1) by omega]
      exact ⟨h1, by rw [hpark.present _ h1]; exact h2⟩

theorem subWord_self (a : Nat) : subWord a a = 0 := by
  simp only [subWord, wordSize]
  omega

/-- The addresses that `growproc` swaps out end below the new end. -/
theorem new_pages {old new j : Nat} (hle : old ≤ new) (hnew : new ≤ kernBase)
    (hj : j < subWord (pgRoundUp new) (pgRoundUp old) / pgSize) : old + j * pgSize < pgRoundUp new := by
  have hup : ∀ a, a ≤ kernBase → pgRoundUp a = (a + pgSize - 1) / pgSize * pgSize := fun a ha => by
    rw [pgRoundUp, Nat.mod_eq_of_lt (by simp only [pgSize, kernBase, wordSize] at *; omega)]
  rw [hup old (hle.trans hnew), hup new hnew] at hj
  rw [hup new hnew]
  have hsub : subWord ((new + pgSize - 1) / pgSize * pgSize) ((old + pgSize - 1) / pgSize * pgSize) =
      (new + pgSize - 1) / pgSize * pgSize - (old + pgSize - 1) / pgSize * pgSize := by
    simp only [subWord, pgSize, kernBase, wordSize] at *
    omega
  rw [hsub] at hj
  simp only [pgSize] at *
  omega

/-- The size that `growproc` is asked for. -/
def newSize (pr : Proc) (n : Int) : Nat := ((pr.sz + n) % wordSize).toNat

/-- A new directory for the process, built from the old one. -/
theorem Builds.steady {pd pd' : PageDir} {m : Phys} (hb : Builds pd s.phys pd' m) (hpd : (s.ptable p).pgdir = some pd)
    {t : Kernel} (hproc : ∀ q, SameProc (s.ptable q) (t.ptable q)) : Steady p s { t.setPgdir p pd' with phys := m } := by
  have hself : (t.setPgdir p pd').ptable p = { t.ptable p with pgdir := some pd' } := by rw [Kernel.setPgdir_ptable, if_pos rfl]
  refine ⟨⟨hb.layout, fun q hq => ?_, fun f => ?_⟩, ?_, ?_⟩
  · rw [Kernel.setPgdir_ptable, if_neg hq]
    exact hproc q
  · have := hb.uses f
    simp only [hself, Proc.uses, hpd, (hproc p).kstack, Option.elim_some]
    omega
  · rw [hself]
    exact (hproc p).sz
  · rw [hself]
    exact (hproc p).state

theorem setSize_moves (s : Kernel) (p : ProcIdx) (sz : Nat) : Moves p s (s.setProc p { s.ptable p with sz := sz }) := by
  refine ⟨rfl, fun q hq => ?_, fun f => ?_⟩
  · rw [Kernel.setProc_ptable, if_neg hq]
    exact SameProc.refl _
  · rw [Kernel.setProc_same]
    rfl

/-- The last step of `growproc`: the new size is stored. -/
theorem Steady.setSize {sz : Nat} (h : Steady p s s') (hk : Kept s) (hp : Live s p) (hsz : sz ≤ kernBase) :
    Moves p s (s'.setProc p { s'.ptable p with sz := sz }) ∧ Kept (s'.setProc p { s'.ptable p with sz := sz }) := by
  have hm := h.moves.trans (setSize_moves s' p sz)
  refine ⟨hm, hm.kept hk (fun hn => ?_) (by simpa using hsz)⟩
  rw [Live, Kernel.setProc_same] at hn
  exact absurd (h.live hp) hn

theorem growproc_pages {n r : Int} (hk : Kept s) (hp : Live s p)
    (hnew : 0 < n → pgRoundUp (newSize (s.ptable p) n) ≤ pgRoundUp (s.ptable p).sz ∨
      ∀ b, pgRoundDown (s.ptable p).sz ≤ b → b < pgRoundUp (newSize (s.ptable p) n) → b < kernBase → (s.pte p b).present = false)
    (h : growproc p n s = .ok (r, s')) : Moves p s s' ∧ Kept s' := by
  have hsz := hk.size p
  unfold growproc at h
  dsimp only at h
  rw [← newSize] at h
  split at h
  · cases h
    exact ⟨Moves.refl p s, hk⟩
  obtain ⟨pd, hpd, h⟩ := bind_eq_ok.1 h
  rw [deref_eq_ok] at hpd
  split at h
  · next hn =>
    replace hnew := hnew hn
    generalize newSize (s.ptable p) n = newsz at h hnew
    obtain ⟨⟨sz, pd₁, s₁⟩, halloc, h⟩ := bind_eq_ok.1 h
    obtain ⟨m, rfl, hb, hpres, hr⟩ := allocuvm_pages hsz (fun b h1 h2 h3 => by
      rcases hnew with hle | hblank
      · omega
      · have := hblank b (((pgRoundDown_le _).trans (le_pgRoundUp hsz)).trans h1) h2 h3
        rwa [Kernel.pte, hpd] at this) halloc
    have hst := hb.steady hpd (t := { s with phys := m }) fun _ => SameProc.refl _
    dsimp only at h
    split at h
    · cases h
      exact ⟨hst.moves, hst.kept hp hk⟩
    next hz =>
    obtain ⟨hge, hlek, heq⟩ := hr hz
    obtain ⟨⟨r₁, s₂⟩, hloop, h⟩ := bind_eq_ok.1 h
    have hpark := growprocLoop_pages (fun j hj => ?_) hloop
    swap
    · -- the loop runs only if there are new pages, and stays below the new end
      have hself : (({ s with phys := m } : Kernel).setPgdir p pd₁).ptable p = { s.ptable p with pgdir := some pd₁ } := by
        rw [Kernel.setPgdir_ptable, if_pos rfl]
      rw [hself]
      dsimp only
      have hgrown : pgRoundUp sz ≠ pgRoundUp (s.ptable p).sz := fun he => by rw [he, subWord_self] at hj; cases hj
      have hend := new_pages hge hlek hj
      have hkb := pgRoundUp_le_kernBase hlek
      rw [Nat.zero_add]
      refine ⟨by omega, ?_⟩
      rw [Kernel.pte, hself]
      simp only [Option.elim_some]
      rw [hpres _ (by omega)]
      obtain rfl : sz = newsz := heq.resolve_left fun he => hgrown (by rw [he])
      rcases hnew with hle | hblank
      · exact absurd (le_antisymm hle (pgRoundUp_mono hge hlek)) hgrown
      · have := hblank ((s.ptable p).sz + j * pgSize) ((pgRoundDown_le _).trans (Nat.le_add_right _ _)) hend (by omega)
        rwa [Kernel.pte, hpd] at this
    have hst₂ := hst.trans hpark.toSteady
    dsimp only at h
    split at h
    · cases h
      exact ⟨hst₂.moves, hst₂.kept hp hk⟩
    · obtain ⟨-, -, h⟩ := bind_eq_ok.1 h
      cases h
      exact hst₂.setSize hk hp hlek
  · generalize newSize (s.ptable p) n = newsz at h
    obtain ⟨⟨sz, pd₁, m⟩, hde, h⟩ := bind_eq_ok.1 h
    have hb : Builds pd s.phys pd₁ m ∧ sz ≤ (s.ptable p).sz := by
      unfold deallocuvm at hde
      split at hde
      · cases hde
        exact ⟨⟨rfl, fun _ => rfl⟩, le_rfl⟩
      · obtain ⟨⟨pd₂, m₂⟩, hloop, hde⟩ := bind_eq_ok.1 hde
        cases hde
        have := deallocuvmLoop_uses hsz (by simp only [pgRoundUp, pgSize]; omega) hloop
        exact ⟨⟨this.layout, this.uses⟩, by omega⟩
    have hst := hb.1.steady hpd fun _ => SameProc.refl _
    dsimp only at h
    split at h
    · cases h
      exact ⟨hst.moves, hst.kept hp hk⟩
    · obtain ⟨-, -, h⟩ := bind_eq_ok.1 h
      cases h
      exact hst.setSize hk hp (hb.2.trans hsz)

end Grow

end DemandPaging
