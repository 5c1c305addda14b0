/-
Demand loading of the other layouts. The handler knows the last segment only, and takes the fault
address both for the place in the file and for the place in memory: a page of an earlier segment
keeps what its frame held before, and so does the last byte of a segment that does not start at
address 0, unless the handler fails altogether.
-/
import DemandPaging.Exec.Demand

namespace DemandPaging

section Untouched

variable {pd : PageDir} {file : File} {addr f : Nat} {m m' : Phys} {h : ProgHdr}

/-- A page outside the saved segment is left alone. -/
theorem fillPage_outside (hok : h.Ok) (hk : addr < kernBase) (hout : ¬h.Has addr)
    (hfill : fillPage pd h.info file addr f m = .ok m') : m'.mem f = m.mem f := by
  have hle := hok.filesz_le
  have hfits := hok.fits
  simp only [kernBase] at hk hfits
  unfold fillPage ProgHdr.info at hfill
  dsimp only at hfill
  rw [show (h.vaddr + h.memsz) % wordSize = h.vaddr + h.memsz by simp only [wordSize]; omega,
    show (h.vaddr + h.filesz) % wordSize = h.vaddr + h.filesz by simp only [wordSize]; omega,
    show (addr + pgSize) % wordSize = addr + pgSize by simp only [wordSize, pgSize]; omega] at hfill
  split at hfill
  · next hin =>
    -- the test lets the page behind the segment through
    have hend : addr = h.vaddr + h.memsz := by
      by_contra hne
      exact hout ⟨hin.1, by omega⟩
    rw [if_neg (by simp only [pgSize]; omega), if_pos (by omega), if_neg (by simp only [pgSize]; omega)] at hfill
    by_cases hv : h.vaddr = 0
    · have hsub : subWord h.memsz addr = 0 := by simp only [subWord, wordSize]; omega
      rw [hsub, copyInto_eq (by simp)] at hfill
      cases hfill
      rw [Phys.setPage_self]
      funext i
      rw [if_neg (by omega)]
    · have hsub : pgSize < subWord h.memsz addr := by simp only [subWord, wordSize, pgSize]; omega
      rw [copyInto, if_pos (by omega)] at hfill
      cases hfill
  · cases hfill
    rfl

theorem readi_off_le {off n r : Nat} (hread : readi file off n = some r) : off ≤ file.size := by
  unfold readi at hread
  split_ifs at hread <;> omega

theorem loaduvm_unmapped {offset sz : Nat} (hw : addr < wordSize) (h0 : 0 < sz) (hsz : sz ≤ pgSize) (hpte : pd.pte? addr = none)
    {x : Int × Phys} : loaduvm pd addr file offset sz m ≠ .ok x := by
  have hrounds : (sz + pgSize - 1) / pgSize = 1 := by simp only [pgSize] at *; omega
  rw [loaduvm]
  split
  · simp
  · rw [hrounds, loaduvmLoop, Nat.add_zero, Nat.mod_eq_of_lt hw, hpte]
    simp

/-- The last byte of a segment that does not start at address 0 is left alone: the load goes to another
page, and the zeros stop short of it. -/
theorem fillPage_shifted (hok : h.Ok) (hv : 0 < h.vaddr) (hm : 0 < h.memsz)
    (hframe : ∀ b < kernBase, b / pgSize ≠ (h.vaddr + h.memsz - 1) / pgSize → (pd.pte b).frame ≠ f)
    (hbyte : h.byte? file (h.vaddr + h.memsz - 1) ≠ none)
    (hfill : fillPage pd h.info file (pgRoundDown (h.vaddr + h.memsz - 1)) f m = .ok m') :
    m'.mem f (pgOffset (h.vaddr + h.memsz - 1)) = m.mem f (pgOffset (h.vaddr + h.memsz - 1)) := by
  have hle := hok.filesz_le
  have hfits := hok.fits
  have hal := hok.aligned
  have hsize := file.size_le
  have h1 := pgRoundDown_le (h.vaddr + h.memsz - 1)
  have h2 : h.vaddr + h.memsz - 1 < pgRoundDown (h.vaddr + h.memsz - 1) + pgSize := by simp only [pgRoundDown, pgSize]; omega
  have h3 : h.vaddr ≤ pgRoundDown (h.vaddr + h.memsz - 1) := by simp only [pgRoundDown, pgSize] at *; omega
  have h4 := pgRoundDown_mod (h.vaddr + h.memsz - 1)
  have h5 := pgRoundDown_page (h.vaddr + h.memsz - 1)
  have hoff : (pgOffset (h.vaddr + h.memsz - 1)).val = h.vaddr + h.memsz - 1 - pgRoundDown (h.vaddr + h.memsz - 1) := by
    simp only [pgOffset, pgRoundDown, pgSize]; omega
  generalize pgRoundDown (h.vaddr + h.memsz - 1) = addr at hfill h1 h2 h3 h4 h5 hoff
  simp only [kernBase, maxFileBytes, bSize] at hfits hsize
  have hpv : pgSize ≤ h.vaddr := by simp only [pgSize] at *; omega
  unfold fillPage ProgHdr.info at hfill
  dsimp only at hfill
  rw [show (h.vaddr + h.memsz) % wordSize = h.vaddr + h.memsz by simp only [wordSize]; omega,
    show (h.vaddr + h.filesz) % wordSize = h.vaddr + h.filesz by simp only [wordSize]; omega,
    show (addr + pgSize) % wordSize = addr + pgSize by simp only [wordSize, pgSize]; omega,
    show (h.vaddr + addr) % wordSize = h.vaddr + addr by simp only [wordSize]; omega, if_pos ⟨h3, by omega⟩] at hfill
  by_cases hfull : addr + pgSize ≤ h.vaddr + h.filesz
  · rw [if_pos hfull] at hfill
    obtain ⟨⟨r, m₁⟩, hload, hfill⟩ := bind_eq_ok.1 hfill
    cases hfill
    cases hpte : pd.pte? (h.vaddr + addr) with
    | none => exact absurd hload (loaduvm_unmapped (by simp only [wordSize]; omega) (by decide) le_rfl hpte)
    | some pte =>
      obtain ⟨r', hload'⟩ := loaduvm_page file m (h.vaddr + addr) ((h.off + addr) % wordSize) pgSize
        (by simp only [pgSize] at *; omega) (by simp only [wordSize]; omega) (Nat.mod_lt _ (by decide)) (by decide) le_rfl hpte
      cases hload'.symm.trans hload
      cases hread : readi file ((h.off + addr) % wordSize) pgSize with
      | none => rfl
      | some n =>
        by_cases hk : h.vaddr + addr < kernBase
        · have hne := hframe (h.vaddr + addr) hk (by simp only [pgSize] at *; omega)
          rw [PageDir.pte, hpte, Option.getD_some] at hne
          simp [Phys.setPage, hne.symm]
        · -- an alias in the kernel half: the place in the file is past its end
          exfalso
          have hle' := readi_off_le hread
          refine hbyte ?_
          rw [ProgHdr.byte?, if_pos (by omega), if_neg]
          simp only [wordSize, kernBase] at *
          omega
  · rw [if_neg hfull] at hfill
    by_cases hzero : h.filesz ≤ addr
    · rw [if_pos hzero, if_neg (by omega)] at hfill
      by_cases hmem : addr ≤ h.memsz
      · have hsub : subWord h.memsz addr = h.memsz - addr := by simp only [subWord, wordSize]; omega
        rw [hsub, copyInto_eq (by omega)] at hfill
        cases hfill
        rw [Phys.setPage_self, if_neg]
        omega
      · have hsub : pgSize < subWord h.memsz addr := by simp only [subWord, wordSize, pgSize]; omega
        rw [copyInto, if_pos (by omega)] at hfill
        cases hfill
    · omega

end Untouched

/-! ## Every layout -/

/-- Demand loading works from the state: whatever the free pages hold, and whatever addresses of the
segments fault in whatever order, the handler returns as long as there are pages, and the pages that
have faulted are as eager loading leaves them. -/
def DemandLoads (p : ProcIdx) (file : File) (s : Kernel) : Prop :=
  ∀ mem : Nat → Page, (∀ f, f ∉ s.phys.freelist → mem f = s.phys.mem f) →
    ∀ as : List Nat, (∀ a ∈ as, ∃ h ∈ loadHdrs file, h.Has a) →
      (as.length ≤ s.phys.freelist.length → ∃ t, faults p as (s.withMem mem) = .ok t) ∧
      ∀ t, faults p as (s.withMem mem) = .ok t →
        ∀ h ∈ loadHdrs file, ∀ a, h.Has a → (∃ b ∈ as, b / pgSize = a / pgSize) → Served p h file a t

/-- The layouts that demand loading can serve: at most one segment with anything in it, the last one,
at address 0 and with all of its bytes in the file. -/
def Loadable (file : File) : Prop :=
  (∀ h ∈ (loadHdrs file).dropLast, h.memsz = 0) ∧
    ∀ h, (loadHdrs file).getLast? = some h → h.memsz = 0 ∨ h.vaddr = 0 ∧ h.InFile file

/-- No two segments have a page in common. -/
def PageDisjoint (hs : List ProgHdr) : Prop :=
  hs.Pairwise fun h h' => ∀ a b, h.Has a → h'.Has b → a / pgSize ≠ b / pgSize

section Layouts

variable {s s₀ : Kernel} {p : ProcIdx} {file : File} {old : PhInfo} {h : ProgHdr} {a f : Nat} {fl : List Nat} {mem : Nat → Page}

/-- What is read after a single fault is what the handler left in the first free page. -/
theorem Unloaded.served {t : Kernel} (hu : Unloaded p file old s) (hh : h ∈ loadHdrs file) (ha : h.Has a) (hno : NoSlot s p a)
    (hfl : s.phys.freelist = f :: fl) (hfault : faults p [a] (s.withMem mem) = .ok t)
    (hserved : Served p h file a t) : ∃ pd m₁ m₂, (s.ptable p).pgdir = some pd ∧
      fillPage (pd.setPte (pgRoundDown a) ⟨⟨true, true, true⟩, f⟩) (s.ptable p).ph file (pgRoundDown a) f
        { s.phys with freelist := fl, mem := mem } = .ok m₁ ∧
      fillPage (pd.setPte (pgRoundDown a) ⟨⟨true, true, true⟩, f⟩) (s.ptable p).ph file (pgRoundDown a) f m₁ = .ok m₂ ∧
      h.byte? file a = some (m₂.mem f (pgOffset a)) := by
  obtain ⟨pd, hpd, hcov, -⟩ := hu.pgdir
  obtain ⟨hok, hsz⟩ := hu.seg h hh
  have hfits := hok.fits
  have ha2 := ha.2
  have hpte := hcov a (by omega)
  rw [faults] at hfault
  obtain ⟨t₁, ht, hfault⟩ := bind_eq_ok.1 hfault
  cases hfault
  rw [pgfltHandler_fill (s := s.withMem mem) (by omega) hno hpd hpte hfl] at ht
  obtain ⟨m₁, hm₁, ht⟩ := bind_eq_ok.1 ht
  obtain ⟨m₂, hm₂, ht⟩ := bind_eq_ok.1 ht
  cases ht
  rw [show (s.withMem mem).fs.file ((s.withMem mem).ptable p).ip = file from hu.inode] at hm₁ hm₂
  refine ⟨pd, m₁, m₂, hpd, hm₁, hm₂, ?_⟩
  obtain ⟨g, hg, hbyte⟩ := hserved
  have htable : pd.tables (pdx (pgRoundDown a)) ≠ none := by
    rw [Ne, ← pte?_eq_none, pte?_page (pgRoundDown_page a)]
    exact hpte
  have hentry : (pd.setPte (pgRoundDown a) ⟨⟨true, true, true⟩, f⟩).pte? a = some ⟨⟨true, true, true⟩, f⟩ := by
    rw [pte?_page (pgRoundDown_page a).symm]
    exact pte?_setPte_same htable
  simp [userFrame, hentry] at hg
  subst hg
  exact hbyte

/-- A byte that the handler leaves alone shows what the free page held. -/
theorem not_demandLoads (hu : Unloaded p file old s) (hh : h ∈ loadHdrs file) (ha : h.Has a) (hno : NoSlot s p a)
    (hfl : s.phys.freelist = f :: fl)
    (hkeep : h.byte? file a ≠ none → ∀ pd m m', (s.ptable p).pgdir = some pd →
      fillPage (pd.setPte (pgRoundDown a) ⟨⟨true, true, true⟩, f⟩) (s.ptable p).ph file (pgRoundDown a) f m = .ok m' →
      m'.mem f (pgOffset a) = m.mem f (pgOffset a)) : ¬DemandLoads p file s := by
  intro hD
  -- whatever the page holds is read back
  have hread : ∀ x : UInt8, h.byte? file a = some x := by
    intro x
    have hmem : ∀ g, g ∉ s.phys.freelist → Function.update s.phys.mem f (fun _ => x) g = s.phys.mem g := by
      intro g hg
      rw [hfl, List.mem_cons, not_or] at hg
      rw [Function.update_of_ne hg.1]
    obtain ⟨hprog, hres⟩ := hD _ hmem [a] (by simpa using ⟨h, hh, ha⟩)
    obtain ⟨t, ht⟩ := hprog (by simp [hfl])
    obtain ⟨pd, m₁, m₂, hpd, hm₁, hm₂, hbyte⟩ := hu.served hh ha hno hfl ht (hres t ht h hh a ha ⟨a, by simp, rfl⟩)
    have hsome : h.byte? file a ≠ none := by rw [hbyte]; simp
    rw [hbyte, hkeep hsome pd m₁ m₂ hpd hm₂, hkeep hsome pd _ m₁ hpd hm₁]
    simp
  have h01 := (hread 0).symm.trans (hread 1)
  exact absurd (Option.some.inj h01) (by decide)

/-- The page of an earlier segment that is not empty is not loaded. -/
theorem not_demandLoads_init (hu : Unloaded p file old s) (hdisj : PageDisjoint (loadHdrs file))
    (hslots : ∀ h ∈ loadHdrs file, ∀ a, h.Has a → NoSlot s p a) (hfl : s.phys.freelist = f :: fl)
    (hh : h ∈ (loadHdrs file).dropLast) (hm : h.memsz ≠ 0) : ¬DemandLoads p file s := by
  rcases List.eq_nil_or_concat' (loadHdrs file) with hnil | ⟨init, l, heq⟩
  · rw [hnil] at hh; cases hh
  have hmem : h ∈ loadHdrs file := List.mem_of_mem_dropLast hh
  have hl : l ∈ loadHdrs file := by simp [heq]
  have ha : h.Has h.vaddr := ⟨le_rfl, by omega⟩
  obtain ⟨hok, -⟩ := hu.seg h hmem
  have hfits := hok.fits
  have hph : (s.ptable p).ph = l.info := by rw [hu.last, heq]; simp
  have hout : ¬l.Has (pgRoundDown h.vaddr) := by
    intro hc
    rw [heq, List.dropLast_concat] at hh
    rw [PageDisjoint, heq, List.pairwise_append] at hdisj
    exact hdisj.2.2 h hh l (by simp) h.vaddr _ ha hc (pgRoundDown_page _).symm
  refine not_demandLoads hu hmem ha (hslots h hmem _ ha) hfl fun _ pd m m' _ hfill => ?_
  rw [hph] at hfill
  exact congrFun (fillPage_outside (hu.seg l hl).1 (lt_of_le_of_lt (pgRoundDown_le _) (by omega)) hout hfill) _

/-- The last byte of a segment at another address than 0 is not loaded. -/
theorem not_demandLoads_shifted (hu : Unloaded p file old s) (hlast : (loadHdrs file).getLast? = some h)
    (hslots : ∀ a, h.Has a → NoSlot s p a) (hfl : s.phys.freelist = f :: fl) (hzero : f ≠ 0) (hm : h.memsz ≠ 0)
    (hv : h.vaddr ≠ 0) : ¬DemandLoads p file s := by
  have hmem : h ∈ loadHdrs file := List.mem_of_getLast? hlast
  have ha : h.Has (h.vaddr + h.memsz - 1) := ⟨by omega, by omega⟩
  obtain ⟨hok, -⟩ := hu.seg h hmem
  have hfits := hok.fits
  have hph : (s.ptable p).ph = h.info := by rw [hu.last, hlast]; rfl
  refine not_demandLoads hu hmem ha (hslots _ ha) hfl fun hbyte pd m m' hpd hfill => ?_
  rw [hph] at hfill
  refine fillPage_shifted hok (by omega) (by omega) (fun b hb hpage => ?_) hbyte hfill
  obtain ⟨pd', hpd', -, hblank⟩ := hu.pgdir
  obtain rfl : pd' = pd := Option.some.inj (hpd'.symm.trans hpd)
  have hidx := index_eq_iff (a := b) (b := pgRoundDown (h.vaddr + h.memsz - 1)) (by simp only [wordSize, kernBase] at *; omega)
    (lt_of_le_of_lt (pgRoundDown_le _) (by simp only [wordSize, kernBase] at *; omega))
  rw [pgRoundDown_page] at hidx
  have hother : (pd'.setPte (pgRoundDown (h.vaddr + h.memsz - 1)) ⟨⟨true, true, true⟩, f⟩).pte b = pd'.pte b := by
    rw [PageDir.pte, PageDir.pte, pte?_setPte_other fun hc => hpage (hidx.1 hc)]
  rw [hother, (hblank b hb).2]
  exact hzero.symm

/-- A byte that is not in the file cannot be loaded. -/
theorem not_demandLoads_short (hlast : (loadHdrs file).getLast? = some h) (hok : h.Ok) (hv : h.vaddr = 0)
    (hshort : ¬h.InFile file) (hfl : s.phys.freelist = f :: fl) : ¬DemandLoads p file s := by
  intro hD
  rw [ProgHdr.InFile, not_or] at hshort
  have hmem : h ∈ loadHdrs file := List.mem_of_getLast? hlast
  have hle := hok.filesz_le
  have ha : h.Has (h.filesz - 1) := ⟨by omega, by omega⟩
  obtain ⟨hprog, hres⟩ := hD s.phys.mem (fun _ _ => rfl) [h.filesz - 1] (by simpa using ⟨h, hmem, ha⟩)
  obtain ⟨t, ht⟩ := hprog (by simp [hfl])
  obtain ⟨g, -, hbyte⟩ := hres t ht h hmem _ ha ⟨_, by simp, rfl⟩
  rw [ProgHdr.byte?, if_pos (by omega), if_neg (by omega)] at hbyte
  cases hbyte

/-- What is loaded at all is a page of the last segment. -/
theorem Loadable.last (hL : Loadable file) (hh : h ∈ loadHdrs file) (ha : h.Has a) :
    (loadHdrs file).getLast? = some h ∧ h.vaddr = 0 ∧ h.InFile file := by
  have hpos : h.memsz ≠ 0 := by
    have h1 := ha.1
    have h2 := ha.2
    omega
  rcases List.eq_nil_or_concat' (loadHdrs file) with hnil | ⟨init, l, heq⟩
  · rw [hnil] at hh; cases hh
  · have hlast : (loadHdrs file).getLast? = some l := by simp [heq]
    have hcase : h ∈ init ∨ h = l := by simpa [heq] using hh
    rcases hcase with hi | rfl
    · exact absurd (hL.1 h (by simpa [heq] using hi)) hpos
    · exact ⟨hlast, (hL.2 h hlast).resolve_left hpos⟩

end Layouts

end DemandPaging
