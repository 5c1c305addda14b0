/-
What a successful `exec` leaves: a page directory whose user half has entries for every page of the
image and none of them present, the last segment in `ph`, and the stack page on swap. Until the
stack page is swapped out, nothing but the calling process and the free pages has changed.
-/
import DemandPaging.Kernel.Exec
import DemandPaging.Paging.Swapping

namespace DemandPaging

/-- Only the process and the free pages have changed. -/
def Kernel.own (s : Kernel) (p : ProcIdx) (pr : Proc) (m : Phys) : Kernel :=
  { s with phys := m, ptable := Function.update s.ptable p pr }

@[simp] theorem Kernel.own_self (s : Kernel) (p : ProcIdx) (pr : Proc) (m : Phys) : (s.own p pr m).ptable p = pr := by
  simp [own]

@[simp] theorem Kernel.own_own (s : Kernel) (p : ProcIdx) (pr pr' : Proc) (m m' : Phys) :
    (s.own p pr m).own p pr' m' = s.own p pr' m' := by
  simp [own]

theorem Kernel.own_eq (s : Kernel) (p : ProcIdx) : s.own p (s.ptable p) s.phys = s := by
  simp [own]

/-! ## Mapping without pages -/

/-- The entry of a page that has not been loaded yet. -/
def Pte.blank : Pte := ⟨⟨false, true, true⟩, 0⟩

/-- Page tables have been added, and entries for pages that are not there. -/
structure Blanks (pd : PageDir) (m : Phys) (pd' : PageDir) (m' : Phys) : Prop where
  takes : m.Takes m'
  grows : pd.present ⊆ pd'.present
  balance : pd'.present.card + m'.freelist.length = pd.present.card + m.freelist.length
  entry : ∀ b, pd'.pte b = pd.pte b ∨ pd'.pte b = Pte.blank

namespace Blanks

variable {pd pd' pd'' : PageDir} {m m' m'' : Phys}

theorem refl (pd : PageDir) (m : Phys) : Blanks pd m pd m :=
  ⟨Phys.Takes.refl m, subset_rfl, rfl, fun _ => Or.inl rfl⟩

theorem trans (h : Blanks pd m pd' m') (h' : Blanks pd' m' pd'' m'') : Blanks pd m pd'' m'' := by
  refine ⟨h.takes.trans h'.takes, h.grows.trans h'.grows, h'.balance.trans h.balance, fun b => ?_⟩
  rcases h'.entry b with he | he
  · rw [he]; exact h.entry b
  · exact Or.inr he

theorem of_mapped {a : Nat} (h : Mapped a Pte.blank pd m pd' m') : Blanks pd m pd' m' := by
  refine ⟨h.takes, h.grows, h.balance, fun b => ?_⟩
  by_cases hb : pdx b = pdx a ∧ ptx b = ptx a
  · refine Or.inr ?_
    have he := h.entry
    rw [PageDir.pte?] at he
    rw [PageDir.pte, PageDir.pte?, hb.1, hb.2, he]
    rfl
  · exact Or.inl (h.other b hb)

end Blanks

theorem pte?_of_grows {pd pd' : PageDir} {b : Nat} (h : pd.present ⊆ pd'.present) (hb : pd.pte? b ≠ none) :
    pd'.pte? b ≠ none := by
  rw [Ne, pte?_eq_none, ← Ne, ← mem_present] at hb ⊢
  exact h hb

section Alloc

variable {p : ProcIdx}

/-- `allocuvm` that only maps: it fails when a page table is missing and there is no page for it. -/
theorem allocuvmLoop_blank (p : ProcIdx) : ∀ (n a : Nat) (pd : PageDir) (s : Kernel), a % pgSize = 0 →
    a + n * pgSize ≤ wordSize → ∃ done pd' m', allocuvmLoop p false n a pd s = .ok (done, pd', { s with phys := m' }) ∧
      Blanks pd s.phys pd' m' ∧ (done = true → ∀ b, a ≤ b → b < a + n * pgSize → pd'.pte? b ≠ none) ∧
      (1024 ≤ pd.present.card + s.phys.freelist.length → done = true)
  | 0, a, pd, s, _, _ => ⟨true, pd, s.phys, rfl, Blanks.refl pd s.phys, fun _ b h1 h2 => by omega, fun _ => rfl⟩
  | n + 1, a, pd, s, ha, hw => by
    have ha' : (a + pgSize) % pgSize = 0 := by simp only [pgSize] at *; omega
    have hw' : a + pgSize + n * pgSize ≤ wordSize := by simp only [pgSize] at *; omega
    have hlt : a < wordSize := by simp only [pgSize, wordSize] at *; omega
    rw [allocuvmLoop]
    simp only [Bool.false_eq_true, if_false, pure_ok, ok_bind]
    rcases mappages_page_cases (0 * pgSize) ⟨false, true, true⟩ false pd s.phys ha hlt with
      ⟨hnil, hmiss, hmap⟩ | ⟨pd₁, m₁, hmap, hmapped⟩
    · rw [hmap]
      refine ⟨false, pd, s.phys, rfl, Blanks.refl pd s.phys, fun h => (Bool.false_ne_true h).elim, fun hfree => ?_⟩
      -- with no page left every table would be there
      rw [hnil, List.length_nil] at hfree
      have hlt : pd.present.card < (Finset.univ : Finset (Fin 1024)).card :=
        Finset.card_lt_card ⟨Finset.subset_univ _, fun hc => hmiss (hc (Finset.mem_univ _))⟩
      rw [Finset.card_univ, Fintype.card_fin] at hlt
      omega
    · rw [hmap]
      have hmapped : Mapped a Pte.blank pd s.phys pd₁ m₁ := hmapped
      have hbl := Blanks.of_mapped hmapped
      obtain ⟨done, pd', m', hloop, hbl', hcov, hfree⟩ := allocuvmLoop_blank p n (a + pgSize) pd₁ { s with phys := m₁ } ha' hw'
      refine ⟨done, pd', m', hloop, hbl.trans hbl', fun hdone b h1 h2 => ?_, fun h => hfree ?_⟩
      · by_cases hb : b < a + pgSize
        · refine pte?_of_grows hbl'.grows ?_
          rw [pte?_page (b := a) (by simp only [pgSize] at *; omega), hmapped.entry]
          simp
        · exact hcov hdone b (by omega) (by simp only [pgSize] at *; omega)
      · rw [show ({ s with phys := m₁ } : Kernel).phys = m₁ from rfl, hbl.balance]
        exact h

/-- `allocuvm` for a segment or the stack of `exec`. -/
theorem allocuvm_blank (p : ProcIdx) (pd : PageDir) (oldsz newsz : Nat) (s : Kernel) (hold : oldsz ≤ kernBase) :
    ∃ r pd' m', allocuvm p pd oldsz newsz false s = .ok (r, pd', { s with phys := m' }) ∧ Blanks pd s.phys pd' m' ∧
      (r ≠ 0 → newsz < kernBase ∧ r = max oldsz newsz ∧ ∀ b, pgRoundUp oldsz ≤ b → b < newsz → pd'.pte? b ≠ none) ∧
      (newsz < kernBase → 1024 ≤ pd.present.card + s.phys.freelist.length → r = max oldsz newsz) := by
  unfold allocuvm
  by_cases hk : kernBase ≤ newsz
  · rw [if_pos hk]
    exact ⟨0, pd, s.phys, rfl, Blanks.refl pd s.phys, fun h => absurd rfl h, fun h => by omega⟩
  rw [if_neg hk]
  by_cases hlt : newsz < oldsz
  · rw [if_pos hlt]
    refine ⟨oldsz, pd, s.phys, rfl, Blanks.refl pd s.phys, fun _ => ⟨by omega, by omega, fun b h1 h2 => ?_⟩, by omega⟩
    simp only [pgRoundUp, pgSize, wordSize, kernBase] at *
    omega
  · rw [if_neg hlt]
    have hup : pgRoundUp oldsz % pgSize = 0 := by simp only [pgRoundUp, pgSize] at *; omega
    obtain ⟨done, pd', m', hloop, hbl, hcov, hfree⟩ := allocuvmLoop_blank p ((newsz - pgRoundUp oldsz + pgSize - 1) / pgSize)
      (pgRoundUp oldsz) pd s hup (by simp only [pgRoundUp, pgSize, wordSize, kernBase] at *; omega)
    dsimp only
    rw [hloop]
    refine ⟨if done then newsz else 0, pd', m', rfl, hbl, fun hr => ?_, fun _ h => ?_⟩
    · cases done with
      | false => exact absurd rfl hr
      | true =>
        refine ⟨by omega, ?_, fun b h1 h2 => hcov rfl b h1 ?_⟩
        · show newsz = _
          omega
        · simp only [pgSize] at *; omega
    · rw [hfree h]
      show newsz = _
      omega

end Alloc

/-! ## The segments -/

theorem readi_eq {file : File} {off n : Nat} (h : off + n ≤ file.size) : readi file off n = some n := by
  have hsize := file.size_le
  unfold readi
  rw [if_neg, if_neg (by omega)]
  simp only [maxFileBytes, bSize, wordSize] at *
  omega

/-- The `LOAD` headers among `n` program headers from an offset on. -/
def loadHdrsFrom (file : File) : Nat → Nat → List ProgHdr
  | 0, _ => []
  | n + 1, off =>
    let rest := loadHdrsFrom file n ((off + progHdrSize) % wordSize)
    if (progHdr file off).type = elfProgLoad then progHdr file off :: rest else rest

/-- The `LOAD` headers of an executable. -/
def loadHdrs (file : File) : List ProgHdr := loadHdrsFrom file (elfHdr file).phnum (elfHdr file).phoff

/-- The end of the image that starts with `sz` bytes and has the segments `hs`. -/
def imageEnd (sz : Nat) (hs : List ProgHdr) : Nat := hs.foldl (fun n h => max n (h.vaddr + h.memsz)) sz

/-- What `exec` saves of a segment. -/
def ProgHdr.info (h : ProgHdr) : PhInfo := ⟨h.filesz, h.memsz, h.vaddr, h.off⟩

/-- The checks of `exec` on a segment. -/
structure ProgHdr.Ok (h : ProgHdr) : Prop where
  filesz_le : h.filesz ≤ h.memsz
  aligned : h.vaddr % pgSize = 0
  fits : h.vaddr + h.memsz < kernBase

theorem le16_lt (d : Nat → UInt8) (off : Nat) : le16 d off < 65536 := by
  have h1 := (d off).toNat_lt
  have h2 := (d (off + 1)).toNat_lt
  unfold le16
  omega

theorem le32_lt (d : Nat → UInt8) (off : Nat) : le32 d off < wordSize := by
  have h1 := le16_lt d off
  have h2 := le16_lt d (off + 2)
  simp only [le32, wordSize]
  omega

theorem pgRoundUp_pgRoundUp {c : Nat} (hc : c ≤ kernBase) : pgRoundUp (pgRoundUp c) = pgRoundUp c := by
  simp only [pgRoundUp, pgSize, wordSize, kernBase] at *
  omega

theorem le_pgRoundUp {c : Nat} (hc : c ≤ kernBase) : c ≤ pgRoundUp c := by
  simp only [pgRoundUp, pgSize, wordSize, kernBase] at *
  omega

/-- Entries up to a size reach the end of its last page. -/
theorem covered_roundUp {pd : PageDir} {sz b : Nat} (h : ∀ b < sz, pd.pte? b ≠ none) (hsz : sz ≤ kernBase)
    (hb : b < pgRoundUp sz) : pd.pte? b ≠ none := by
  by_cases hlt : b < sz
  · exact h b hlt
  · rw [pte?_page (b := sz - 1) (by simp only [pgRoundUp, pgSize, wordSize, kernBase] at *; omega)]
    refine h (sz - 1) ?_
    simp only [pgRoundUp, pgSize, wordSize, kernBase] at *
    omega

/-- The segments `hs` have been mapped: every one has passed the checks, the last one is saved, and the
pages up to the size have entries. -/
structure Loaded (hs : List ProgHdr) (sz : Nat) (pd : PageDir) (old : PhInfo) (sz' : Nat) (pd' : PageDir) (ph : PhInfo) :
    Prop where
  le : sz' ≤ kernBase
  mono : sz ≤ sz'
  size : sz' = imageEnd sz hs
  seg : ∀ h ∈ hs, h.Ok ∧ h.vaddr + h.memsz ≤ sz'
  last : ph = (hs.getLast?.map ProgHdr.info).getD old
  covers : (∀ b < sz, pd.pte? b ≠ none) → ∀ b < sz', pd'.pte? b ≠ none

theorem Loaded.cons {h : ProgHdr} {hs : List ProgHdr} {sz sz' : Nat} {pd pd₁ pd' : PageDir} {old ph : PhInfo}
    (hl : Loaded hs (max sz (h.vaddr + h.memsz)) pd₁ h.info sz' pd' ph) (hok : h.Ok) (hsz : sz ≤ kernBase)
    (hgrows : pd.present ⊆ pd₁.present)
    (hcov : ∀ b, pgRoundUp sz ≤ b → b < h.vaddr + h.memsz → pd₁.pte? b ≠ none) :
    Loaded (h :: hs) sz pd old sz' pd' ph := by
  have hmono := hl.mono
  refine ⟨hl.le, by omega, hl.size, ?_, ?_, fun hpd => hl.covers fun b hb => ?_⟩
  · intro h' hh'
    rcases List.mem_cons.1 hh' with rfl | hh'
    · exact ⟨hok, by omega⟩
    · exact hl.seg h' hh'
  · rw [hl.last]
    cases hs with
    | nil => rfl
    | cons h' hs => rw [List.getLast?_cons_cons]; simp [List.getLast?_cons]
  · by_cases hup : b < pgRoundUp sz
    · exact pte?_of_grows hgrows (covered_roundUp hpd hsz hup)
    · refine hcov b (by omega) ?_
      simp only [pgRoundUp, pgSize, wordSize, kernBase] at *
      omega

/-- The loop over the program headers changes the `ph` of the process and the free pages. -/
theorem execLoad_spec (p : ProcIdx) (file : File) : ∀ (n off sz : Nat) (pd : PageDir) (s : Kernel), sz ≤ kernBase →
    ∃ r pd' m' ph, execLoad p file n off sz pd s = .ok (r, pd', s.own p { s.ptable p with ph := ph } m') ∧
      Blanks pd s.phys pd' m' ∧
      ∀ sz', r = some sz' → Loaded (loadHdrsFrom file n off) sz pd (s.ptable p).ph sz' pd' ph
  | 0, off, sz, pd, s, hsz => by
    refine ⟨some sz, pd, s.phys, (s.ptable p).ph, ?_, Blanks.refl pd s.phys, ?_⟩
    · rw [execLoad, s.own_eq p]
    · rintro _ ⟨⟩
      exact ⟨hsz, le_rfl, rfl, by simp [loadHdrsFrom], by simp [loadHdrsFrom], fun h => h⟩
  | n + 1, off, sz, pd, s, hsz => by
    have hstop : ∃ r pd' m' ph, (Except.ok (none, pd, s) : Except Stuck (Option Nat × PageDir × Kernel)) =
          .ok (r, pd', s.own p { s.ptable p with ph := ph } m') ∧
        Blanks pd s.phys pd' m' ∧
        ∀ sz', r = some sz' → Loaded (loadHdrsFrom file (n + 1) off) sz pd (s.ptable p).ph sz' pd' ph :=
      ⟨none, pd, s.phys, (s.ptable p).ph, by rw [s.own_eq p], Blanks.refl pd s.phys, fun _ h => by cases h⟩
    rw [execLoad]
    dsimp only
    split_ifs with hread htype hmem hwrap hal
    · exact hstop
    · obtain ⟨r, pd', m', ph, hload, hbl, hok⟩ := execLoad_spec p file n ((off + progHdrSize) % wordSize) sz pd s hsz
      refine ⟨r, pd', m', ph, hload, hbl, fun sz' hr => ?_⟩
      rw [loadHdrsFrom, if_neg htype]
      exact hok sz' hr
    · exact hstop
    · exact hstop
    · exact hstop
    · -- a segment: it is saved and its pages are mapped
      have hv : (progHdr file off).vaddr < wordSize := le32_lt _ _
      have hm : (progHdr file off).memsz < wordSize := le32_lt _ _
      obtain ⟨sz₁, pd₁, m₁, halloc, hbl₁, hres, -⟩ := allocuvm_blank p pd sz
        (((progHdr file off).vaddr + (progHdr file off).memsz) % wordSize)
        (s.setProc p { s.ptable p with ph := (progHdr file off).info }) hsz
      rw [ProgHdr.info] at halloc
      rw [halloc]
      simp only [ok_bind]
      by_cases hz : sz₁ = 0
      · rw [if_pos hz]
        exact ⟨none, pd₁, m₁, (progHdr file off).info, rfl, hbl₁, fun _ h => by cases h⟩
      · rw [if_neg hz]
        obtain ⟨hlt, hmax, hcov⟩ := hres hz
        have hsum : ((progHdr file off).vaddr + (progHdr file off).memsz) % wordSize =
            (progHdr file off).vaddr + (progHdr file off).memsz := by
          simp only [wordSize] at *; omega
        rw [hsum] at hlt hmax hcov
        obtain ⟨r, pd', m', ph, hload, hbl, hok⟩ := execLoad_spec p file n ((off + progHdrSize) % wordSize) sz₁ pd₁
          { s.setProc p { s.ptable p with ph := (progHdr file off).info } with phys := m₁ }
          (by rw [hmax]; simp only [kernBase] at *; omega)
        refine ⟨r, pd', m', ph, ?_, hbl₁.trans hbl, fun sz' hr => ?_⟩
        · refine hload.trans ?_
          simp [Kernel.own, Kernel.setProc]
        · rw [loadHdrsFrom, if_pos (not_not.1 htype)]
          have hl := hok sz' hr
          rw [hmax] at hl
          simp only [Kernel.setProc_same] at hl
          exact hl.cons ⟨not_lt.1 hmem, not_not.1 hal, hlt⟩ hsz hbl₁.grows hcov

/-! ## The new image -/

/-- What `exec` has built when it commits. -/
structure Image where
  ip : InodeInfo
  ph : PhInfo
  cdbSize : Nat
  pgdir : PageDir
  sz : Nat
  name : List UInt8
  path : List UInt8
  eip : Nat
  esp : Nat
  stackBuffer : Page
  phys : Phys

/-- The state in which the stack page of the image is swapped out. -/
def Kernel.withImage (s : Kernel) (p : ProcIdx) (im : Image) : Kernel :=
  { s with
    phys := im.phys
    ptable := Function.update s.ptable p { s.ptable p with
      ip := im.ip, ph := im.ph, cdbSize := im.cdbSize, pgdir := some im.pgdir, sz := im.sz, name := im.name, path := im.path
      eip := im.eip, esp := im.esp, stackBuffer := im.stackBuffer } }

/-- The image is one of the executable: its pages have entries, none of them is present, and of the
segments the last one is saved. -/
structure Image.Of (im : Image) (file : File) (m : Phys) (old : PhInfo) : Prop where
  takes : m.Takes im.phys
  cdb_le : im.cdbSize ≤ kernBase
  cdb : im.cdbSize = imageEnd 0 (loadHdrs file)
  size : im.sz = pgRoundUp im.cdbSize + 2 * pgSize
  lt : im.sz < kernBase
  seg : ∀ h ∈ loadHdrs file, h.Ok ∧ h.vaddr + h.memsz ≤ im.cdbSize
  last : im.ph = ((loadHdrs file).getLast?.map ProgHdr.info).getD old
  covers : ∀ b < im.sz, im.pgdir.pte? b ≠ none
  blank : ∀ b < kernBase, (im.pgdir.pte b).present = false ∧ (im.pgdir.pte b).frame = 0

section Exec

variable {s s' : Kernel} {p : ProcIdx} {path : List UInt8} {argv : List (List UInt8)} {r : Int}

theorem execBad_ok {pd : PageDir} (h : execBad p pd s = .ok (r, s')) : r = -1 := by
  unfold execBad at h
  obtain ⟨l, -, h⟩ := bind_eq_ok.1 h
  obtain ⟨t, -, h⟩ := bind_eq_ok.1 h
  obtain ⟨m, -, h⟩ := bind_eq_ok.1 h
  cases h; rfl

theorem execCommit_ok {elf : ElfHdr} {pd : PageDir} {sz sp base : Nat} (h : execCommit p path elf pd sz sp base s = .ok (r, s')) :
    ∃ name path' r' t old m, swapOutFunc .stack p (sz - pgSize) (s.setProc p { s.ptable p with
        name := name, path := path', pgdir := some pd, sz := sz, eip := elf.entry, esp := (base + sp) % wordSize }) =
          .ok (r', t) ∧ 0 ≤ r' ∧ (s.ptable p).pgdir = some old ∧ freevm old t.phys = .ok m ∧
      s' = { t with phys := m } := by
  unfold execCommit at h
  split at h
  · cases h
  · obtain ⟨-, -, h⟩ := bind_eq_ok.1 h
    obtain ⟨⟨r', t⟩, hout, h⟩ := bind_eq_ok.1 h
    dsimp only at h
    split at h
    · cases h
    · next hr =>
      cases hold : (s.ptable p).pgdir with
      | none => rw [hold] at h; cases h
      | some old =>
        rw [hold] at h
        obtain ⟨m, hm, h⟩ := bind_eq_ok.1 h
        cases h
        exact ⟨_, _, r', t, old, m, hout, not_lt.1 hr, rfl, hm, rfl⟩

/-- A directory with nothing in its user half. -/
theorem KernelDir.pte_user {m m' : Phys} {pd : PageDir} (h : KernelDir m pd m') {b : Nat} (hb : b < kernBase) :
    pd.pte b = Pte.zero := by
  have hn : pdx b ∉ pd.present := by
    rw [h.present]
    simp only [kernelIdx, Finset.mem_filter, Finset.mem_univ, true_and, pdx, kernBase] at *
    omega
  have ht : pd.tables (pdx b) = none := by simpa [mem_present] using hn
  rw [PageDir.pte, pte?_eq_none.2 ht]
  rfl

theorem clearpteu_ok {pd pd' : PageDir} {a : Nat} (h : clearpteu pd a = .ok pd') :
    pd'.present = pd.present ∧ ∀ b, (pd'.pte b).present = (pd.pte b).present ∧ (pd'.pte b).frame = (pd.pte b).frame := by
  unfold clearpteu at h
  split at h
  · cases h
  · next pte hpte =>
    cases h
    refine ⟨setPte_present, fun b => ?_⟩
    by_cases hb : pdx b = pdx a ∧ ptx b = ptx a
    · have hab : ∀ pd : PageDir, pd.pte? b = pd.pte? a := fun pd => by rw [PageDir.pte?, PageDir.pte?, hb.1, hb.2]
      rw [PageDir.pte, PageDir.pte, hab, hab, pte?_setPte_same (by rw [Ne, ← pte?_eq_none, hpte]; simp), hpte]
      exact ⟨rfl, rfl⟩
    · rw [PageDir.pte, PageDir.pte, pte?_setPte_other hb]
      exact ⟨rfl, rfl⟩

/-- `exec` once the segments are mapped. -/
theorem execStack_ok {elf : ElfHdr} {pd : PageDir} {c : Nat} (hc : c ≤ kernBase)
    (h : execStack p path argv elf pd c s = .ok (0, s')) : ∃ pd₁ pd₂ m₁ name path' eip esp buf r t old m,
      Blanks pd s.phys pd₁ m₁ ∧ pd₂.present = pd₁.present ∧
      (∀ b, (pd₂.pte b).present = (pd₁.pte b).present ∧ (pd₂.pte b).frame = (pd₁.pte b).frame) ∧
      pgRoundUp c + 2 * pgSize < kernBase ∧ (∀ b, pgRoundUp c ≤ b → b < pgRoundUp c + 2 * pgSize → pd₂.pte? b ≠ none) ∧
      swapOutFunc .stack p (pgRoundUp c + 2 * pgSize - pgSize) (s.own p { s.ptable p with
        cdbSize := c, pgdir := some pd₂, sz := pgRoundUp c + 2 * pgSize, name := name, path := path', eip := eip
        esp := esp, stackBuffer := buf } m₁) = .ok (r, t) ∧ 0 ≤ r ∧
      (s.ptable p).pgdir = some old ∧ freevm old t.phys = .ok m ∧ s' = { t with phys := m } := by
  unfold execStack at h
  dsimp only at h
  obtain ⟨⟨sz, pd₁, t₁⟩, halloc, h⟩ := bind_eq_ok.1 h
  obtain ⟨sz', pd₁', m₁, halloc', hbl, hres, -⟩ := allocuvm_blank p pd (pgRoundUp c) (pgRoundUp c + 2 * pgSize)
    (s.setProc p { s.ptable p with cdbSize := c }) (by simp only [pgRoundUp, pgSize, wordSize, kernBase] at *; omega)
  cases halloc'.symm.trans halloc
  dsimp only at h
  split at h
  · cases execBad_ok h
  next hz =>
  obtain ⟨hlt, hmax, hcov⟩ := hres hz
  obtain rfl : sz = pgRoundUp c + 2 * pgSize := by rw [hmax]; simp only [pgSize]; omega
  obtain ⟨pd₂, hclear, h⟩ := bind_eq_ok.1 h
  obtain ⟨hpres, hpte⟩ := clearpteu_ok hclear
  obtain ⟨⟨args, buf⟩, -, h⟩ := bind_eq_ok.1 h
  cases args with
  | none => cases execBad_ok h
  | some x =>
    obtain ⟨buf', -, h⟩ := bind_eq_ok.1 h
    obtain ⟨name, path', r, t, old, m, hout, hr, hold, hm, hs'⟩ := execCommit_ok h
    simp only [Kernel.setProc, Function.update_self, Function.update_idem] at hout hold
    refine ⟨pd₁, pd₂, m₁, name, path', _, _, buf', r, t, old, m, hbl, hpres, hpte, hlt, fun b h1 h2 => ?_, hout, hr, hold,
      hm, hs'⟩
    have hne := hcov b (by rw [pgRoundUp_pgRoundUp hc]; exact h1) h2
    rw [Ne, pte?_eq_none, ← Ne, ← mem_present] at hne ⊢
    rwa [hpres]

/-- A successful `exec`: the image of the file is committed, its stack page goes to swap, and the old
page directory is freed. -/
theorem exec_ok (h : exec p path argv s = .ok (0, s')) : ∃ im r t old m, s.fs.namei path = some im.ip ∧
    im.Of (s.fs.file im.ip) s.phys (s.ptable p).ph ∧
    swapOutFunc .stack p (im.sz - pgSize) (s.withImage p im) = .ok (r, t) ∧ 0 ≤ r ∧
    (s.ptable p).pgdir = some old ∧ freevm old t.phys = .ok m ∧ s' = { t with phys := m } := by
  unfold exec at h
  cases hnamei : s.fs.namei path with
  | none => rw [hnamei] at h; cases h
  | some ip =>
    rw [hnamei] at h
    dsimp only at h
    split at h
    · cases h
    split at h
    · cases h
    obtain ⟨⟨d, m₀⟩, hsetup, h⟩ := bind_eq_ok.1 h
    rcases setupkvm_cases (m := s.phys) with ⟨-, hnone⟩ | ⟨pd₀, m₀', hlen, hsetup', hkd⟩
    · obtain rfl := hnone d m₀ hsetup
      cases h
    cases hsetup'.symm.trans hsetup
    dsimp only at h
    obtain ⟨⟨sz, pd₁, t₁⟩, hload, h⟩ := bind_eq_ok.1 h
    obtain ⟨sz', pd₁', m₁, ph, hload', hbl, hl⟩ := execLoad_spec p (s.fs.file ip) (elfHdr (s.fs.file ip)).phnum
      (elfHdr (s.fs.file ip)).phoff 0 pd₀ (s.own p { s.ptable p with ip := ip } m₀) (by decide)
    cases hload'.symm.trans hload
    cases sz with
    | none => cases execBad_ok h
    | some c =>
      have hl := hl c rfl
      obtain ⟨pd₂, pd₃, m₂, name, path', eip, esp, buf, r, t, old, m, hbl₂, hpres, hpte, hlt, hcov, hout, hr, hold, hm, hs'⟩ :=
        execStack_ok hl.le h
      refine ⟨⟨ip, ph, c, pd₃, pgRoundUp c + 2 * pgSize, name, path', eip, esp, buf, m₂⟩, r, t, old, m, rfl, ?_, ?_, hr, ?_,
        hm, hs'⟩
      · have hgrows : pd₁.present ⊆ pd₃.present := by rw [hpres]; exact hbl₂.grows
        refine ⟨hkd.takes.trans (hbl.takes.trans hbl₂.takes), hl.le, hl.size, rfl, hlt, hl.seg, ?_, fun b hb => ?_, fun b hb => ?_⟩
        · rw [hl.last, Kernel.own_self]; rfl
        · by_cases hup : b < pgRoundUp c
          · exact pte?_of_grows hgrows (covered_roundUp (hl.covers fun b hb => by omega) hl.le hup)
          · exact hcov b (by omega) hb
        · -- an entry of the user half was zero before it was mapped
          rw [(hpte b).1, (hpte b).2]
          rcases (hbl.trans hbl₂).entry b with he | he
          · rw [he, hkd.pte_user hb]; exact ⟨rfl, rfl⟩
          · rw [he]; exact ⟨rfl, rfl⟩
      · simp only [Kernel.own_own, Kernel.own_self] at hout
        exact hout
      · simpa using hold

/-- Everything that a successful `exec` changes. -/
theorem exec_eq (h : exec p path argv s = .ok (0, s')) : ∃ (im : Image) (pte : Pte) (f : SlotIdx) (list : Option SlotIdx)
    (sw : Swap) (l : Lru) (m : Phys) (old : PageDir), s.fs.namei path = some im.ip ∧
    im.Of (s.fs.file im.ip) s.phys (s.ptable p).ph ∧ im.pgdir.pte? (im.sz - pgSize) = some pte ∧
    linkSlot .stack (im.sz - pgSize) (s.ptable p).swapList s.swap = .ok (some f, list, sw) ∧
    lruFreeFrame (s.ptable p).pid (im.sz - pgSize) s.lru = .ok l ∧
    (s.ptable p).pgdir = some old ∧ freevm old im.phys = .ok m ∧ s' = { s with
      swap := sw
      lru := l
      disk := writeswap im.stackBuffer (SwapKind.stack.start + f * 8) s.disk
      phys := m
      ptable := Function.update s.ptable p { s.ptable p with
        ip := im.ip, ph := im.ph, cdbSize := im.cdbSize, sz := im.sz, name := im.name, path := im.path, eip := im.eip
        esp := im.esp, stackBuffer := im.stackBuffer, swapList := list
        pgdir := some (im.pgdir.setPte (im.sz - pgSize) { pte with present := false }) } } := by
  obtain ⟨im, r, t, old, m, hip, him, hout, hr, hold, hm, rfl⟩ := exec_ok h
  rw [swapOutFunc_eq] at hout
  have hlt := him.lt
  obtain ⟨f, list, sw, pd, pte, l, hlink, hpd, hpte, hl, rfl⟩ := swapOutWith_user hout hr (by omega)
  simp only [Kernel.withImage, Function.update_self, Option.some.injEq] at hpd hlink hl
  subst hpd
  refine ⟨im, pte, f, list, sw, l, m, old, hip, him, hpte, hlink, hl, hold, hm, ?_⟩
  simp [Kernel.withImage, SwapKind.buffer]

end Exec

/-! ## The slot of the stack page -/

section StackSlot

variable {kind : SwapKind} {vaddr : Nat} {list list' : Option SlotIdx} {sw sw' : Swap} {f : SlotIdx}

/-- The slot that `swap_out*` takes, and the head of the list. -/
theorem linkSlot_slot (h : linkSlot kind vaddr list sw = .ok (some f, list', sw')) :
    freeSlot? sw = some f ∧ list' = some (list.getD f) ∧ sw'.lk = false ∧ sw'.frames f = ⟨vaddr, none, kind, 1⟩ ∧
      ∀ j, j ≠ f → (sw'.frames j).vaddr = (sw.frames j).vaddr ∧ (sw'.frames j).swap = (sw.frames j).swap ∧
        ((sw'.frames j).next = (sw.frames j).next ∨ (sw'.frames j).next = some f) := by
  obtain ⟨-, L, -, ⟨-, hs, -⟩ | ⟨g, hg, hs, hlist, rfl⟩⟩ := linkSlot_inv h
  · cases hs
  · cases hs
    refine ⟨hg, by rw [hlist]; cases list <;> rfl, rfl, if_pos rfl, fun j hj => ?_⟩
    simp only [Swap.linked, if_neg hj]
    split
    · exact ⟨rfl, rfl, .inr rfl⟩
    · exact ⟨rfl, rfl, .inl rfl⟩

/-- A list of one slot. -/
theorem swapCheck_single {c : Int} (hlk : sw.lk = false) (hf : sw.frames f = ⟨vaddr, none, kind, c⟩) (a : Nat) :
    swapCheck a (some f) sw = .ok (if a = vaddr then some kind else none, sw) := by
  have hL : SwapList sw (some f) [f] := ⟨rfl, by simp [hf]⟩
  rw [swapCheck_eq hL hlk]
  simp only [List.find?_singleton, hf, eq_comm]
  split <;> simp_all

end StackSlot

/-! ## An `exec` that succeeds -/

/-- `deallocuvm` of pages that are not there changes nothing. -/
theorem deallocuvmLoop_blank {pd : PageDir} {oldsz : Nat} (hpd : ∀ b < oldsz, (pd.pte b).present = false) (hsz : oldsz ≤ kernBase)
    (m : Phys) : ∀ (fuel a : Nat), a % pgSize = 0 → oldsz ≤ a + fuel * pgSize →
    deallocuvmLoop oldsz (fuel + 1) a pd m = .ok (pd, m)
  | 0, a, _, hf => by rw [deallocuvmLoop, if_neg (by omega)]
  | fuel + 1, a, ha, hf => by
    rw [deallocuvmLoop]
    by_cases hlt : a < oldsz
    · rw [if_pos hlt]
      cases hpte : pd.pte? a with
      | none =>
        refine deallocuvmLoop_blank hpd hsz m fuel _ ?_ ?_ <;>
          simp only [pgSize, wordSize, kernBase] at * <;> omega
      | some pte =>
        have hp : pte.present = false := by
          have := hpd a hlt
          rwa [PageDir.pte, hpte] at this
        simp only [hp, Bool.false_eq_true, if_false]
        refine deallocuvmLoop_blank hpd hsz m fuel _ ?_ ?_ <;>
          simp only [pgSize, wordSize, kernBase] at * <;> omega
    · rw [if_neg hlt]

theorem deallocuvm_blank {pd : PageDir} (hpd : ∀ b, (pd.pte b).present = false) (m : Phys) :
    deallocuvm pd kernBase 0 m = .ok (0, pd, m) := by
  rw [deallocuvm, if_neg (by decide), deallocuvmLoop_blank (fun b _ => hpd b) le_rfl m (2 ^ 20) (pgRoundUp 0) (by decide) (by decide)]
  rfl

theorem kfree_eq {m : Phys} {f : Nat} (hlo : m.layout.kernEnd ≤ f * pgSize + kernBase) (hhi : f * pgSize < physTop) :
    kfree f m = .ok { m.setPage f (runPage m.freelist.head?) with freelist := f :: m.freelist } := by
  rw [kfree, if_neg (by omega)]

theorem foldlM_unchanged {α β : Type} {g : α → β → Except Stuck α} (a : α) : ∀ {bs : List β}, (∀ b ∈ bs, g a b = .ok a) →
    bs.foldlM g a = .ok a
  | [], _ => rfl
  | b :: bs, h => by
    rw [List.foldlM_cons, h b (by simp)]
    exact foldlM_unchanged a fun c hc => h c (by simp [hc])

/-- The two pages of the small directory. -/
theorem freevm_small {m : Phys} (hm : m.layout = smallLayout) : ∃ m', freevm smallDir m = .ok m' ∧
    m'.freelist = 998 :: 999 :: m.freelist := by
  have hpd : ∀ b, (smallDir.pte b).present = false := by
    intro b
    simp only [PageDir.pte, PageDir.pte?, smallDir]
    by_cases hb : pdx b = 0
    · simp [hb]
    · simp [hb, Pte.zero]
  rw [freevm, deallocuvm_blank hpd]
  simp only [ok_bind]
  rw [List.finRange_succ, List.foldlM_cons]
  have h0 : smallDir.tables 0 = some ⟨999, fun _ => ⟨⟨false, true, true⟩, 0⟩⟩ := rfl
  have hk : m.layout.kernEnd ≤ 998 * pgSize + kernBase := by rw [hm]; decide
  rw [h0]
  dsimp only
  rw [kfree_eq (by omega) (by decide), ok_bind, foldlM_unchanged, ok_bind]
  · rw [kfree_eq (by exact hk) (by decide)]
    exact ⟨_, rfl, rfl⟩
  · intro i hi
    obtain ⟨j, -, rfl⟩ := List.mem_map.1 hi
    have hj : smallDir.tables j.succ = none := by simp [smallDir, Fin.succ_ne_zero]
    rw [hj]
    rfl

theorem execLoad_one {p : ProcIdx} {file : File} {off : Nat} {pd : PageDir} {s : Kernel}
    (hread : readi file off progHdrSize = some progHdrSize) (htype : (progHdr file off).type = elfProgLoad)
    (hok : (progHdr file off).Ok) (hpos : 0 < (progHdr file off).vaddr + (progHdr file off).memsz)
    (hfree : 1024 ≤ pd.present.card + s.phys.freelist.length) :
    ∃ pd' m' ph, execLoad p file 1 off 0 pd s = .ok (some ((progHdr file off).vaddr + (progHdr file off).memsz), pd',
      s.own p { s.ptable p with ph := ph } m') ∧ Blanks pd s.phys pd' m' := by
  have hfits := hok.fits
  have hsum : ((progHdr file off).vaddr + (progHdr file off).memsz) % wordSize =
      (progHdr file off).vaddr + (progHdr file off).memsz := by
    simp only [wordSize, kernBase] at *; omega
  obtain ⟨sz, pd', m', halloc, hbl, -, hres⟩ := allocuvm_blank p pd 0 ((progHdr file off).vaddr + (progHdr file off).memsz)
    (s.setProc p { s.ptable p with ph := (progHdr file off).info }) (by decide)
  obtain rfl : sz = _ := hres hfits hfree
  refine ⟨pd', m', (progHdr file off).info, ?_, hbl⟩
  rw [execLoad]
  simp only [hread, htype, hsum, ne_eq, not_true_eq_false, if_false, if_neg (not_lt.2 hok.filesz_le), hok.aligned]
  rw [if_neg (by omega)]
  rw [ProgHdr.info] at halloc
  rw [halloc]
  simp only [ok_bind, Nat.zero_max]
  rw [if_neg (by omega), execLoad]
  rfl

/-- The stack without arguments. -/
theorem storeBytes_ustack (buf : Page) (a b c d : Nat) :
    ∃ buf', storeBytes buf 4080 ([a, b, c, d].flatMap leBytes) = .ok buf' := by
  have hlen : ([a, b, c, d].flatMap leBytes).length = 16 := by simp [leBytes]
  rw [storeBytes, hlen, if_neg (by decide)]
  exact ⟨_, rfl⟩

/-- What `exec` needs besides free pages: a swap slot, and an old directory that can be freed. -/
structure Ready (s : Kernel) (p : ProcIdx) : Prop where
  kstack : (s.ptable p).kstack ≠ none
  list : ∃ L, SwapList s.swap (s.ptable p).swapList L
  unlocked : s.swap.lk = false
  slot : freeSlot? s.swap ≠ none
  queue : ∃ E, Queue s.lru E ∧ ∀ e ∈ E, e.1 ≠ (s.ptable p).pid
  old : ∃ old, (s.ptable p).pgdir = some old ∧ ∀ m : Phys, m.layout = s.phys.layout → ∃ m', freevm old m = .ok m'

theorem Ready.own {s : Kernel} {p : ProcIdx} {m : Phys} (h : Ready s p) (pr : Proc) (hm : s.phys.Takes m)
    (hks : pr.kstack = (s.ptable p).kstack) (hlist : pr.swapList = (s.ptable p).swapList) (hpid : pr.pid = (s.ptable p).pid)
    (hpd : pr.pgdir = (s.ptable p).pgdir) : Ready (s.own p pr m) p where
  kstack := by rw [Kernel.own_self, hks]; exact h.kstack
  list := by rw [Kernel.own_self, hlist]; exact h.list
  unlocked := h.unlocked
  slot := h.slot
  queue := by rw [Kernel.own_self, hpid]; exact h.queue
  old := by
    rw [Kernel.own_self, hpd]
    obtain ⟨old, hold, hfree⟩ := h.old
    exact ⟨old, hold, fun m' hm' => hfree m' (hm'.trans hm.layout)⟩

theorem execCommit_progress {s : Kernel} {p : ProcIdx} {path : List UInt8} {elf : ElfHdr} {pd : PageDir} {sz sp base : Nat}
    (hs : Ready s p) (hpath : path.length < 512) (hsz : sz < kernBase) (hpte : pd.pte? (sz - pgSize) ≠ none) :
    ∃ s', execCommit p path elf pd sz sp base s = .ok (0, s') := by
  obtain ⟨L, hL⟩ := hs.list
  obtain ⟨E, hE, hpid⟩ := hs.queue
  obtain ⟨old, hold, hfreevm⟩ := hs.old
  obtain ⟨f, hf⟩ := Option.ne_none_iff_exists'.1 hs.slot
  obtain ⟨ks, hks⟩ := Option.ne_none_iff_exists'.1 hs.kstack
  obtain ⟨pte, hpte⟩ := Option.ne_none_iff_exists'.1 hpte
  unfold execCommit
  rw [if_neg (by omega)]
  dsimp only
  generalize hpr : ({ s.ptable p with name := _, path := _, pgdir := some pd, sz := sz, eip := elf.entry, esp := _ } : Proc) = pr
  have hself : (s.setProc p pr).ptable p = pr := s.setProc_same p pr
  have hsw : switchuvm p (s.setProc p pr) = .ok () := by
    rw [switchuvm, hself, ← hpr]
    simp [hks]
  have hout : swapOutFunc .stack p (sz - pgSize) (s.setProc p pr) =
      .ok (1, (s.setProc p pr).swappedOut .stack p (sz - pgSize) L f pd pte) := by
    rw [swapOutFunc_eq]
    refine swapOutWith_eq (E := E) ?_ hs.unlocked hf ?_ hpte hE (by omega) ?_
    · rw [hself, ← hpr]; exact hL
    · rw [hself, ← hpr]
    · rw [hself, ← hpr]; exact fun hm => hpid _ hm rfl
  obtain ⟨m, hm⟩ := hfreevm ((s.setProc p pr).swappedOut .stack p (sz - pgSize) L f pd pte).phys rfl
  rw [hsw, hout, hold]
  simp only [ok_bind]
  rw [if_neg (by decide), hm]
  exact ⟨_, rfl⟩

theorem execStack_progress {s : Kernel} {p : ProcIdx} {path : List UInt8} (elf : ElfHdr) (pd : PageDir) {c : Nat}
    (hs : Ready s p) (hpath : path.length < 512) (hc : c ≤ kernBase) (hfit : pgRoundUp c + 2 * pgSize < kernBase)
    (hfree : 1024 ≤ pd.present.card + s.phys.freelist.length) :
    ∃ s', execStack p path [] elf pd c s = .ok (0, s') := by
  obtain ⟨sz, pd₁, m₁, halloc, hbl, hne, hres⟩ := allocuvm_blank p pd (pgRoundUp c) (pgRoundUp c + 2 * pgSize)
    (s.setProc p { s.ptable p with cdbSize := c }) (by simp only [kernBase] at *; omega)
  have hsz : sz = pgRoundUp c + 2 * pgSize := by rw [hres hfit hfree]; simp only [pgSize]; omega
  have hz : sz ≠ 0 := by rw [hsz]; simp only [pgSize]; omega
  obtain ⟨-, -, hcov⟩ := hne hz
  rw [pgRoundUp_pgRoundUp hc] at hcov
  subst hsz
  have hguard : pd₁.pte? (pgRoundUp c + 2 * pgSize - 2 * pgSize) ≠ none :=
    hcov _ (by omega) (by simp only [pgSize]; omega)
  obtain ⟨pte, hpte⟩ := Option.ne_none_iff_exists'.1 hguard
  have hclear : clearpteu pd₁ (pgRoundUp c + 2 * pgSize - 2 * pgSize) =
      .ok (pd₁.setPte (pgRoundUp c + 2 * pgSize - 2 * pgSize) { pte with user := false }) := by
    rw [clearpteu, hpte]
  unfold execStack
  dsimp only
  rw [halloc]
  simp only [ok_bind, if_neg hz, hclear, pushArgs, List.length_nil, List.append_nil]
  obtain ⟨buf, hbuf⟩ := storeBytes_ustack (s.ptable p).stackBuffer 0xffffffff 0
    (((pgRoundUp c + pgSize) % wordSize + subWord pgSize ((0 + 1) * 4)) % wordSize) 0
  have hstore : storeBytes (s.ptable p).stackBuffer (subWord pgSize ((3 + 0 + 1) * 4))
      (List.flatMap leBytes ([0xffffffff, 0, ((pgRoundUp c + pgSize) % wordSize + subWord pgSize ((0 + 1) * 4)) % wordSize] ++ [0])) =
        .ok buf := hbuf
  simp only [Kernel.setProc_same]
  rw [hstore]
  refine execCommit_progress ?_ hpath hfit ?_
  · have hr := hs.own { s.ptable p with cdbSize := c, stackBuffer := buf } hbl.takes rfl rfl rfl rfl
    simpa [Kernel.own, Kernel.setProc] using hr
  · rw [Ne, pte?_eq_none, ← Ne, ← mem_present, setPte_present, mem_present, Ne, ← pte?_eq_none]
    exact hcov _ (by simp only [pgSize]; omega) (by simp only [pgSize]; omega)

/-- On such a machine, with pages for the tables of the whole user half, `exec` of a file with one
segment succeeds. -/
theorem exec_progress {s : Kernel} {p : ProcIdx} {path : List UInt8} {ip : InodeInfo} (file : File) (h : ProgHdr)
    (hs : Ready s p) (hpages : 1025 ≤ s.phys.freelist.length) (hnamei : s.fs.namei path = some ip) (hfile : s.fs.file ip = file)
    (hpath : path.length < 512) (helf : readi file 0 elfHdrSize = some elfHdrSize) (hmagic : (elfHdr file).magic = elfMagic)
    (hnum : (elfHdr file).phnum = 1) (hread : readi file (elfHdr file).phoff progHdrSize = some progHdrSize)
    (hh : progHdr file (elfHdr file).phoff = h) (htype : h.type = elfProgLoad)
    (hok : h.Ok) (hpos : 0 < h.vaddr + h.memsz) (hfit : pgRoundUp (h.vaddr + h.memsz) + 2 * pgSize < kernBase) :
    ∃ s', exec p path [] s = .ok (0, s') := by
  subst hh
  rcases setupkvm_cases (m := s.phys) with ⟨hlt, -⟩ | ⟨pd₀, m₀, -, hsetup, hkd⟩
  · omega
  have hcard : pd₀.present.card = 64 := by rw [hkd.present, kernelIdx_card]
  have hlen := hkd.length
  obtain ⟨pd₁, m₁, ph, hload, hbl⟩ := execLoad_one (p := p) (s := s.own p { s.ptable p with ip := ip } m₀) hread htype
    hok hpos (by rw [hcard]; show 1024 ≤ _ + m₀.freelist.length; omega)
  have hbal : pd₁.present.card + m₁.freelist.length = pd₀.present.card + m₀.freelist.length := hbl.balance
  have htakes : m₀.Takes m₁ := hbl.takes
  have hready := hs.own { s.ptable p with ip := ip, ph := ph } (hkd.takes.trans htakes) rfl rfl rfl rfl
  obtain ⟨s', hstack⟩ := execStack_progress (elfHdr file) pd₁ hready hpath hok.fits.le hfit
    (by show 1024 ≤ _ + m₁.freelist.length; omega)
  refine ⟨s', ?_⟩
  unfold exec
  rw [hnamei]
  dsimp only
  rw [Kernel.setProc_fs, hfile, if_neg (by simp [helf]), if_neg (by simp [hmagic]), Kernel.setProc_phys, hsetup, ok_bind, hnum]
  dsimp only
  refine Eq.trans (congrArg (· >>= _) hload) ?_
  rw [ok_bind, Kernel.own_own, Kernel.own_self]
  exact hstack

/-- An executable with one segment, of eight bytes and eight zeros, at page `v / 16`. -/
def smallElf (v : UInt8) : File where
  size := 92
  data := fun n => match n with
    | 0 => 0x7f
    | 1 => 0x45
    | 2 => 0x4c
    | 3 => 0x46
    | 28 => 52
    | 44 => 1
    | 52 => 1
    | 56 => 84
    | 61 => v
    | 68 => 8
    | 72 => 16
    | _ => if 84 ≤ n then 7 else 0
  size_le := by decide

/-- The small machine with that file, under every name, and more pages. -/
def execKernel (v : UInt8) : Kernel :=
  { smallKernel with
    phys := ⟨smallLayout, List.range' 1000 1100, fun _ => zeroPage⟩
    fs := ⟨fun _ => some ⟨1, 1⟩, fun _ => smallElf v⟩ }

theorem freeSlot?_init : freeSlot? swapInit = some 0 := by
  unfold freeSlot?
  rw [Fin.find?_eq_some_iff]
  exact ⟨by decide, fun j hj => absurd hj (Fin.not_lt_zero j)⟩

theorem execKernel_ready (v : UInt8) : Ready (execKernel v) 0 where
  kstack := by simp [execKernel, smallKernel, smallProc]
  list := ⟨[], rfl⟩
  unlocked := rfl
  slot := by rw [show (execKernel v).swap = swapInit from rfl, freeSlot?_init]; simp
  queue := ⟨[], lruInit_queue, by simp⟩
  old := by
    refine ⟨smallDir, rfl, fun m hm => ?_⟩
    obtain ⟨m', hm', -⟩ := freevm_small hm
    exact ⟨m', hm'⟩

theorem smallElf_hdr (v : UInt8) : elfHdr (smallElf v) = ⟨elfMagic, 0, 52, 1⟩ := by
  simp [elfHdr, le32, le16, smallElf]

theorem smallElf_progHdr (v : UInt8) : progHdr (smallElf v) 52 = ⟨elfProgLoad, 84, v.toNat * 256, 8, 16⟩ := by
  simp [progHdr, le32, le16, smallElf]
  omega

/-- `exec` of that file on a machine that is ready. -/
theorem smallElf_exec {s : Kernel} {p : ProcIdx} {v : UInt8} {ip : InodeInfo} (hs : Ready s p)
    (hpages : 1025 ≤ s.phys.freelist.length) (hnamei : s.fs.namei [] = some ip) (hfile : s.fs.file ip = smallElf v)
    (hv : v.toNat * 256 % pgSize = 0) : ∃ s', exec p [] [] s = .ok (0, s') := by
  have hlt := v.toNat_lt
  have helf := smallElf_hdr v
  refine exec_progress (smallElf v) ⟨elfProgLoad, 84, v.toNat * 256, 8, 16⟩ hs hpages hnamei hfile (by decide) ?_ (by rw [helf])
    (by rw [helf]) ?_ (by rw [helf]; exact smallElf_progHdr v) rfl ⟨by simp, hv, ?_⟩ ?_ ?_
  · exact readi_eq (by simp [smallElf, elfHdrSize])
  · rw [helf]; exact readi_eq (by simp [smallElf, progHdrSize])
  · simp only [kernBase]; omega
  · simp
  · simp only [pgRoundUp, pgSize, wordSize, kernBase]; omega

theorem execKernel_exec {v : UInt8} (hv : v.toNat * 256 % pgSize = 0) : ∃ s', exec 0 [] [] (execKernel v) = .ok (0, s') :=
  smallElf_exec (execKernel_ready v) (by simp [execKernel]) rfl rfl hv

theorem loadHdrs_smallElf (v : UInt8) : loadHdrs (smallElf v) = [⟨elfProgLoad, 84, v.toNat * 256, 8, 16⟩] := by
  rw [loadHdrs, smallElf_hdr]
  simp [loadHdrsFrom, smallElf_progHdr]

theorem smallElf_data (v : UInt8) {n : Nat} (hn : 84 ≤ n) : (smallElf v).data n = 7 := by
  simp only [smallElf]
  split <;> simp_all

end DemandPaging
