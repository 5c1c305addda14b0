/-
Demand loading. After `exec` no page of the image is present; a page fault takes a free page and
fills it from the one segment that `exec` has saved. For a single segment at address 0 the pages end
up as eager loading would leave them, in whatever order they fault. For every other layout the
addresses of the fault and of the segment do not fit together.
-/
import DemandPaging.Exec.Image

namespace DemandPaging

/-! ## Filling a page -/

section Fill

variable {pd : PageDir} {ph : PhInfo} {file : File} {addr f : Nat} {m : Phys} {pte : Pte}

theorem Phys.setPage_self (m : Phys) (f : Nat) (pg : Page) : (m.setPage f pg).mem f = pg := by simp [setPage]

theorem Phys.setPage_setPage (m : Phys) (f : Nat) (pg pg' : Page) : (m.setPage f pg).setPage f pg' = m.setPage f pg' := by
  simp [setPage]

theorem copyInto_eq {off n : Nat} {src : Nat → UInt8} (h : off + n ≤ pgSize) : copyInto f off n src m =
    .ok (m.setPage f fun i => if off ≤ i.val ∧ i.val < off + n then src (i.val - off) else m.mem f i) := by
  rw [copyInto, if_neg (by omega)]

theorem readi_le {off n r : Nat} (h : readi file off n = some r) : r ≤ n := by
  unfold readi at h
  split_ifs at h with h1 h2
  · cases h; omega
  · cases h; exact le_rfl

/-- `loaduvm` of one page or less is one round. -/
theorem loaduvm_page (file : File) (m : Phys) (addr offset sz : Nat) (hal : addr % pgSize = 0) (hw : addr < wordSize) (ho : offset < wordSize) (h0 : 0 < sz)
    (hsz : sz ≤ pgSize) (hpte : pd.pte? addr = some pte) : ∃ r, loaduvm pd addr file offset sz m = .ok (r,
      match readi file offset sz with
      | none => m
      | some n => m.setPage pte.frame fun i => if i.val < n then file.data (offset + i) else m.mem pte.frame i) := by
  have hrounds : (sz + pgSize - 1) / pgSize = 1 := by simp only [pgSize] at *; omega
  have hcnt : (if sz - 0 < pgSize then sz - 0 else pgSize) = sz := by split <;> omega
  rw [loaduvm, if_neg (by simp [hal]), hrounds, loaduvmLoop]
  dsimp only
  rw [Nat.add_zero, Nat.add_zero, Nat.mod_eq_of_lt hw, Nat.mod_eq_of_lt ho, hpte, hcnt]
  dsimp only
  cases hread : readi file offset sz with
  | none => exact ⟨-1, rfl⟩
  | some n =>
    have hn := readi_le hread
    dsimp only
    rw [copyInto_eq (by omega)]
    simp only [ok_bind, Nat.zero_le, true_and, Nat.zero_add, Nat.sub_zero]
    by_cases hne : n = sz
    · exact ⟨0, by rw [if_neg (by simp [hne])]; rfl⟩
    · exact ⟨-1, by rw [if_pos hne]; rfl⟩

/-- The byte that eager loading puts at an address of a segment; past the end of the file there is
none. -/
def ProgHdr.byte? (h : ProgHdr) (file : File) (a : Nat) : Option UInt8 :=
  if a - h.vaddr < h.filesz then
    if h.off + (a - h.vaddr) < file.size then some (file.data (h.off + (a - h.vaddr))) else none
  else some 0

/-- The whole of the segment is in the file. -/
def ProgHdr.InFile (h : ProgHdr) (file : File) : Prop := h.filesz = 0 ∨ h.off + h.filesz ≤ file.size

/-- A page of a segment at address 0, whatever was in it before. -/
theorem fillPage_origin {h : ProgHdr} (hok : h.Ok) (hv : h.vaddr = 0) (hfile : h.InFile file) (hal : addr % pgSize = 0)
    (hlt : addr < h.memsz) (hpte : pd.pte? addr = some pte) (hf : pte.frame = f) :
    ∃ pg, fillPage pd h.info file addr f m = .ok (m.setPage f pg) ∧
      ∀ i : Fin pgSize, addr + i < h.memsz → h.byte? file (addr + i) = some (pg i) := by
  have hsize := file.size_le
  have hle := hok.filesz_le
  have hfits := hok.fits
  simp only [maxFileBytes, bSize, kernBase] at hsize hfits
  unfold fillPage ProgHdr.info
  dsimp only
  rw [hv, if_pos (by simp only [wordSize]; omega)]
  have hvm : (0 + h.filesz) % wordSize = h.filesz := by simp only [wordSize]; omega
  have hav : (addr + pgSize) % wordSize = addr + pgSize := by simp only [wordSize, pgSize]; omega
  have hva : (0 + addr) % wordSize = addr := by simp only [wordSize]; omega
  rw [hvm, hav, hva]
  by_cases hfull : addr + pgSize ≤ h.filesz
  · -- the page is all file
    have hfile : h.off + h.filesz ≤ file.size := hfile.resolve_left (by simp only [pgSize] at *; omega)
    rw [if_pos hfull]
    have ho : (h.off + addr) % wordSize = h.off + addr := by simp only [wordSize]; omega
    obtain ⟨r, hload⟩ := loaduvm_page file m addr (h.off + addr) pgSize hal
      (by simp only [wordSize]; omega) (by simp only [wordSize]; omega) (by decide) le_rfl hpte
    rw [readi_eq (by omega)] at hload
    rw [ho, hload, hf]
    refine ⟨_, rfl, fun i hi => ?_⟩
    have hi := i.isLt
    rw [if_pos hi, ProgHdr.byte?, hv, Nat.sub_zero, if_pos (by omega), if_pos (by omega), Nat.add_assoc]
  · rw [if_neg hfull]
    by_cases hzero : h.filesz ≤ addr
    · -- the page is all zeros, as far as the segment goes
      rw [if_pos hzero]
      have hbyte : ∀ i : Fin pgSize, h.byte? file (addr + i) = some 0 := fun i => by
        rw [ProgHdr.byte?, hv, Nat.sub_zero, if_neg (by omega)]
      by_cases hmem : addr + pgSize ≤ h.memsz
      · rw [if_pos hmem, copyInto_eq (by simp)]
        refine ⟨_, rfl, fun i _ => ?_⟩
        rw [hbyte i, if_pos ⟨Nat.zero_le _, by simp⟩]
      · have hsub : subWord h.memsz addr = h.memsz - addr := by simp only [subWord, wordSize]; omega
        rw [if_neg hmem, hsub, copyInto_eq (by omega)]
        refine ⟨_, rfl, fun i hi => ?_⟩
        rw [hbyte i, if_pos ⟨Nat.zero_le _, by omega⟩]
    · -- the file ends inside the page
      have hfile : h.off + h.filesz ≤ file.size := hfile.resolve_left (by omega)
      rw [if_neg hzero]
      have ho : (h.off + addr) % wordSize = h.off + addr := by simp only [wordSize]; omega
      have hsub : subWord pgSize (h.filesz - addr) = pgSize - (h.filesz - addr) := by
        simp only [subWord, wordSize, pgSize] at *; omega
      obtain ⟨r, hload⟩ := loaduvm_page file m addr (h.off + addr) (h.filesz - addr) hal
        (by simp only [wordSize]; omega) (by simp only [wordSize]; omega) (by omega) (by omega) hpte
      rw [readi_eq (by omega)] at hload
      rw [ho, hload, hf, hsub]
      simp only [ok_bind]
      rw [copyInto_eq (by omega)]
      refine ⟨_, congrArg Except.ok (Phys.setPage_setPage m f _ _), fun i hi => ?_⟩
      rw [ProgHdr.byte?, hv, Nat.sub_zero]
      by_cases hlow : addr + i < h.filesz
      · rw [if_pos hlow, if_pos (by omega), if_neg (by omega)]
        rw [Phys.setPage_self, if_pos (by omega), Nat.add_assoc]
      · have hi := i.isLt
        rw [if_neg hlow, if_pos ⟨by omega, by omega⟩]

end Fill

/-! ## A fault -/

section Fault

variable {s s' : Kernel} {p : ProcIdx} {a f : Nat} {fl : List Nat} {pd : PageDir}

/-- The page of the address has no slot on the swap list of the process. -/
def NoSlot (s : Kernel) (p : ProcIdx) (a : Nat) : Prop :=
  swapCheck (pgRoundDown a) (s.ptable p).swapList s.swap = .ok (none, s.swap)

/-- A fault without a free page. -/
theorem pgfltHandler_exhausted (hno : NoSlot s p a) (hfl : s.phys.freelist = []) : pgfltHandler p a s ≠ .ok s' := by
  unfold pgfltHandler kalloc kallocPage
  dsimp only
  split
  · simp
  · rw [hno, ok_bind]
    dsimp only
    rw [hfl]
    simp

/-- A fault on a page with an entry and no slot: the first free page is mapped and filled, twice. -/
theorem pgfltHandler_fill (ha : a < kernBase) (hno : NoSlot s p a) (hpd : (s.ptable p).pgdir = some pd) (hpte : pd.pte? a ≠ none)
    (hfl : s.phys.freelist = f :: fl) : pgfltHandler p a s = (do
      let pd' := pd.setPte (pgRoundDown a) ⟨⟨true, true, true⟩, f⟩
      let m ← fillPage pd' (s.ptable p).ph (s.fs.file (s.ptable p).ip) (pgRoundDown a) f { s.phys with freelist := fl }
      let m ← fillPage pd' (s.ptable p).ph (s.fs.file (s.ptable p).ip) (pgRoundDown a) f m
      return s.own p { s.ptable p with pgdir := some pd' } m) := by
  have hle := pgRoundDown_le a
  have hpage : pd.tables (pdx (pgRoundDown a)) ≠ none := by
    rw [Ne, ← pte?_eq_none, pte?_page (pgRoundDown_page a)]
    exact hpte
  have hmap := mappages_page (f * pgSize) ⟨true, true, true⟩ true pd { s.phys with freelist := fl } (pgRoundDown_mod a)
    (by simp only [wordSize, kernBase] at *; omega)
  rw [walkpgdir_present hpage, Nat.mul_div_cancel _ (by decide)] at hmap
  unfold pgfltHandler kalloc kallocPage mappagesProc
  dsimp only
  rw [if_neg (by omega), hno, ok_bind]
  simp only [hfl, hpd, hmap, ok_bind, pure_ok, deref_some, ne_eq, not_true_eq_false, and_self, if_false, lt_self_iff_false,
    Kernel.setPgdir, Kernel.setProc, Function.update_self, Bool.or_true]
  rfl

end Fault

/-! ## Runs of faults -/

/-- The faults of a process, one after the other. -/
def faults (p : ProcIdx) : List Nat → Kernel → Except Stuck Kernel
  | [], s => .ok s
  | a :: as, s => do faults p as (← pgfltHandler p a s)

/-- The addresses of a segment. -/
def ProgHdr.Has (h : ProgHdr) (a : Nat) : Prop := h.vaddr ≤ a ∧ a < h.vaddr + h.memsz

/-- The process reads at the address the byte that eager loading would have put there. -/
def Served (p : ProcIdx) (h : ProgHdr) (file : File) (a : Nat) (s : Kernel) : Prop :=
  ∃ f, userFrame p a false s = some f ∧ h.byte? file a = some (s.phys.mem f (pgOffset a))

/-- The pages `D` of a segment have been loaded, and the others can be. -/
structure Demand (p : ProcIdx) (h : ProgHdr) (file : File) (D : Set Nat) (s : Kernel) : Prop where
  ph : (s.ptable p).ph = h.info
  inode : s.fs.file (s.ptable p).ip = file
  slots : ∀ a, h.Has a → NoSlot s p a
  nodup : s.phys.freelist.Nodup
  pgdir : ∃ pd, (s.ptable p).pgdir = some pd ∧ (∀ a, h.Has a → pd.pte? a ≠ none) ∧
    ∀ a, h.Has a → a / pgSize ∈ D → ∃ f, pd.pte? a = some ⟨⟨true, true, true⟩, f⟩ ∧ f ∉ s.phys.freelist ∧
      h.byte? file a = some (s.phys.mem f (pgOffset a))

section Run

variable {s s' : Kernel} {p : ProcIdx} {h : ProgHdr} {file : File} {D : Set Nat} {a : Nat}

theorem Demand.served (hD : Demand p h file D s) (ha : h.Has a) (hm : a / pgSize ∈ D) : Served p h file a s := by
  obtain ⟨pd, hpd, -, hload⟩ := hD.pgdir
  obtain ⟨f, hpte, -, hbyte⟩ := hload a ha hm
  refine ⟨f, ?_, hbyte⟩
  simp [userFrame, hpd, hpte]

/-- A fault on one more page of a segment at address 0. -/
theorem Demand.fault (hD : Demand p h file D s) (hok : h.Ok) (hv : h.vaddr = 0) (hfile : h.InFile file) (ha : h.Has a)
    {f : Nat} {fl : List Nat} (hfl : s.phys.freelist = f :: fl) :
    ∃ s', pgfltHandler p a s = .ok s' ∧ Demand p h file (insert (a / pgSize) D) s' ∧ s'.phys.freelist = fl := by
  obtain ⟨pd, hpd, hcov, hload⟩ := hD.pgdir
  have hfits := hok.fits
  have hnd : f ∉ fl ∧ fl.Nodup := List.nodup_cons.1 (hfl ▸ hD.nodup)
  have hlt : pgRoundDown a < h.memsz := lt_of_le_of_lt (pgRoundDown_le a) (by have := ha.2; omega)
  have hw : ∀ b, h.Has b → b < wordSize := fun b hb => by
    have := hb.2; simp only [wordSize, kernBase] at *; omega
  have hpte : (pd.setPte (pgRoundDown a) ⟨⟨true, true, true⟩, f⟩).pte? (pgRoundDown a) = some ⟨⟨true, true, true⟩, f⟩ := by
    refine pte?_setPte_same ?_
    rw [Ne, ← pte?_eq_none, pte?_page (pgRoundDown_page a)]
    exact hcov a ha
  rw [pgfltHandler_fill (by have := ha.2; omega) (hD.slots a ha) hpd (hcov a ha) hfl, hD.ph, hD.inode]
  obtain ⟨pg, hfill, -⟩ := fillPage_origin (m := { s.phys with freelist := fl }) hok hv hfile (pgRoundDown_mod a) hlt hpte rfl
  obtain ⟨pg', hfill', hbyte⟩ := fillPage_origin (m := { s.phys with freelist := fl }.setPage f pg) hok hv hfile
    (pgRoundDown_mod a) hlt hpte rfl
  rw [Phys.setPage_setPage] at hfill'
  simp only [hfill, hfill', ok_bind, pure_ok]
  refine ⟨_, rfl, ⟨?_, ?_, ?_, hnd.2, pd.setPte (pgRoundDown a) ⟨⟨true, true, true⟩, f⟩, ?_, fun b hb => ?_, fun b hb hbD => ?_⟩, rfl⟩
  · rw [Kernel.own_self]; exact hD.ph
  · rw [Kernel.own_self]; exact hD.inode
  · intro b hb
    rw [NoSlot, Kernel.own_self]
    exact hD.slots b hb
  · rw [Kernel.own_self]
  · rw [Ne, pte?_eq_none, ← Ne, ← mem_present, setPte_present, mem_present, Ne, ← pte?_eq_none]
    exact hcov b hb
  · have hidx := index_eq_iff (hw b hb) (lt_of_le_of_lt (pgRoundDown_le a) (hw a ha))
    rw [pgRoundDown_page] at hidx
    by_cases hpage : b / pgSize = a / pgSize
    · -- the page that has just been loaded
      refine ⟨f, ?_, hnd.1, ?_⟩
      · rw [pte?_page (hpage.trans (pgRoundDown_page a).symm)]
        exact hpte
      · have hb' : b = pgRoundDown a + (pgOffset b).val := by
          simp only [pgRoundDown, pgOffset, pgSize] at *
          omega
        have hmem := hbyte (pgOffset b) (by rw [← hb']; have := hb.2; omega)
        rw [← hb'] at hmem
        simpa [Kernel.own, Phys.setPage] using hmem
    · obtain ⟨g, hg, hgfree, hgbyte⟩ := hload b hb (hbD.resolve_left hpage)
      rw [hfl, List.mem_cons, not_or] at hgfree
      refine ⟨g, ?_, hgfree.2, ?_⟩
      · rw [pte?_setPte_other (fun hc => hpage (hidx.1 hc))]
        exact hg
      · simpa [Kernel.own, Phys.setPage, hgfree.1] using hgbyte

theorem faults_ok (as : List Nat) (hok : h.Ok) (hv : h.vaddr = 0) (hfile : h.InFile file) (has : ∀ a ∈ as, h.Has a)
    (hD : Demand p h file D s) : (as.length ≤ s.phys.freelist.length → ∃ s', faults p as s = .ok s') ∧
      ∀ s', faults p as s = .ok s' → Demand p h file (D ∪ { n | ∃ a ∈ as, a / pgSize = n }) s' := by
  induction as generalizing s D with
  | nil =>
    refine ⟨fun _ => ⟨s, rfl⟩, fun s' hs' => ?_⟩
    cases hs'
    simpa using hD
  | cons a as ih =>
    have ha := has a (by simp)
    cases hfl : s.phys.freelist with
    | nil =>
      refine ⟨by simp, fun s' hs' => ?_⟩
      obtain ⟨s₁, hs₁, -⟩ := bind_eq_ok.1 hs'
      exact absurd hs₁ (pgfltHandler_exhausted (hD.slots a ha) hfl)
    | cons f fl =>
      obtain ⟨s₁, hs₁, hD₁, hfl₁⟩ := hD.fault hok hv hfile ha hfl
      obtain ⟨hprog, hres⟩ := ih (fun b hb => has b (by simp [hb])) hD₁
      rw [faults, hs₁, ok_bind]
      refine ⟨fun hlen => hprog (by rw [hfl₁]; simpa using hlen), fun s' hs' => ?_⟩
      convert hres s' hs' using 1
      ext n
      simp only [List.mem_cons, exists_eq_or_imp, Set.mem_union, Set.mem_ofPred_eq, Set.mem_insert_iff]
      tauto

end Run

/-! ## After `exec` -/

theorem setPte_pte (pd : PageDir) (a b : Nat) (pte : Pte) : (pd.setPte a pte).pte b = pte ∨ (pd.setPte a pte).pte b = pd.pte b := by
  by_cases hb : pdx b = pdx a ∧ ptx b = ptx a
  · by_cases ht : pd.tables (pdx a) = none
    · rw [PageDir.setPte, ht]; exact Or.inr rfl
    · refine Or.inl ?_
      have hsame : (pd.setPte a pte).pte? a = some pte := pte?_setPte_same ht
      rw [PageDir.pte?] at hsame
      rw [PageDir.pte, PageDir.pte?, hb.1, hb.2, hsame]
      rfl
  · refine Or.inr ?_
    rw [PageDir.pte, PageDir.pte, pte?_setPte_other hb]

/-- The process has the image of the executable and nothing of it has been loaded. -/
structure Unloaded (p : ProcIdx) (file : File) (old : PhInfo) (s : Kernel) : Prop where
  inode : s.fs.file (s.ptable p).ip = file
  seg : ∀ h ∈ loadHdrs file, h.Ok ∧ h.vaddr + h.memsz ≤ (s.ptable p).sz
  last : (s.ptable p).ph = ((loadHdrs file).getLast?.map ProgHdr.info).getD old
  pgdir : ∃ pd, (s.ptable p).pgdir = some pd ∧ (∀ b < (s.ptable p).sz, pd.pte? b ≠ none) ∧
    ∀ b < kernBase, (pd.pte b).present = false ∧ (pd.pte b).frame = 0

section Exec

variable {s s₀ : Kernel} {p : ProcIdx} {path : List UInt8} {argv : List (List UInt8)} {ip : InodeInfo}

theorem exec_unloaded (hexec : exec p path argv s = .ok (0, s₀)) (hip : s.fs.namei path = some ip) :
    Unloaded p (s.fs.file ip) (s.ptable p).ph s₀ := by
  obtain ⟨im, pte, f, list, sw, l, m, old, hip', him, hpte, -, -, -, -, rfl⟩ := exec_eq hexec
  obtain rfl : im.ip = ip := Option.some.inj (hip'.symm.trans hip)
  have hlt := him.lt
  refine ⟨?_, ?_, ?_, im.pgdir.setPte (im.sz - pgSize) { pte with present := false }, ?_, ?_, ?_⟩
  · simp
  · intro h hh
    refine ⟨(him.seg h hh).1, (him.seg h hh).2.trans ?_⟩
    simp only [Function.update_self]
    rw [him.size]
    exact (le_pgRoundUp him.cdb_le).trans (Nat.le_add_right _ _)
  · simpa using him.last
  · simp
  · intro b hb
    rw [Ne, pte?_eq_none, ← Ne, ← mem_present, setPte_present, mem_present, Ne, ← pte?_eq_none]
    exact him.covers b (by simpa using hb)
  · intro b hb
    rcases setPte_pte im.pgdir (im.sz - pgSize) b { pte with present := false } with he | he
    · rw [he]
      have hblank := (him.blank (im.sz - pgSize) (by omega)).2
      rw [PageDir.pte, hpte] at hblank
      exact ⟨rfl, hblank⟩
    · rw [he]
      exact him.blank b hb

/-- The state with other contents of the pages. -/
def Kernel.withMem (s : Kernel) (mem : Nat → Page) : Kernel := { s with phys := { s.phys with mem := mem } }

theorem Unloaded.demand {file : File} {old : PhInfo} {h : ProgHdr} (hu : Unloaded p file old s) (mem : Nat → Page)
    (hlast : (loadHdrs file).getLast? = some h) (hslots : ∀ a, h.Has a → NoSlot s p a) (hfree : s.phys.freelist.Nodup) :
    Demand p h file ∅ (s.withMem mem) := by
  obtain ⟨pd, hpd, hcov, -⟩ := hu.pgdir
  have hfits := (hu.seg h (List.mem_of_getLast? hlast)).2
  refine ⟨?_, hu.inode, hslots, hfree, pd, hpd, fun a ha => hcov a ?_, fun a _ hm => absurd hm (Set.notMem_empty _)⟩
  · refine hu.last.trans ?_
    rw [hlast]
    rfl
  · have := ha.2
    omega

/-- The small machine after `exec`: a free list in order, and a slot for the stack page only. -/
theorem execKernel_after {v : UInt8} (hexec : exec 0 [] [] (execKernel v) = .ok (0, s₀)) :
    s₀.phys.freelist.Nodup ∧ s₀.phys.freelist ≠ [] ∧ 0 ∉ s₀.phys.freelist ∧
      ∀ h ∈ loadHdrs (smallElf v), ∀ a, h.Has a → NoSlot s₀ 0 a := by
  obtain ⟨im, pte, f, list, sw, l, m, old, hip, him, -, hlink, -, hold, hm, rfl⟩ := exec_eq hexec
  obtain rfl : smallDir = old := Option.some.inj hold
  obtain ⟨T, hT, -⟩ := him.takes.taken
  have hT : List.range' 1000 1100 = T ++ im.phys.freelist := hT
  have hnd : im.phys.freelist.Nodup := (List.nodup_append.1 (hT ▸ List.nodup_range')).2.1
  have hge : ∀ g ∈ im.phys.freelist, 1000 ≤ g := by
    intro g hg
    have hmem : g ∈ List.range' 1000 1100 := by rw [hT]; exact List.mem_append_right _ hg
    exact (List.mem_range'_1.1 hmem).1
  obtain ⟨m', hm', hfl⟩ := freevm_small (him.takes.layout.trans rfl)
  obtain rfl : m' = m := Except.ok.inj (hm'.symm.trans hm)
  refine ⟨?_, by rw [hfl]; simp, ?_, fun h hh a ha => ?_⟩
  · rw [hfl]
    refine List.nodup_cons.2 ⟨fun hc => ?_, List.nodup_cons.2 ⟨fun hc => ?_, hnd⟩⟩
    · rcases List.mem_cons.1 hc with hc | hc
      · exact absurd hc (by decide)
      · exact absurd (hge _ hc) (by decide)
    · exact absurd (hge _ hc) (by decide)
  · rw [hfl]
    intro hc
    simp only [List.mem_cons, OfNat.zero_ne_ofNat, false_or] at hc
    exact absurd (hge _ hc) (by decide)
  · obtain ⟨-, rfl, hlk, hslot, -⟩ := linkSlot_slot hlink
    have hle := (him.seg h hh).2
    have hup := le_pgRoundUp him.cdb_le
    have hsize := him.size
    have hpage := pgRoundDown_le a
    have hhas := ha.2
    have hnone : ((execKernel v).ptable 0).swapList = none := rfl
    rw [NoSlot]
    simp only [Function.update_self, hnone, Option.getD_none]
    rw [swapCheck_single hlk hslot, if_neg]
    simp only [pgSize] at *
    omega

/-- Demand loading of a single segment at address 0 agrees with eager loading: the pages are not
there after `exec`, and whatever pages have faulted, in whatever order, hold the bytes of the file
and zeros behind them. -/
theorem demand_load_origin {seg : ProgHdr} (as : List Nat) (hexec : exec p path argv s = .ok (0, s₀))
    (hip : s.fs.namei path = some ip) (hseg : loadHdrs (s.fs.file ip) = [seg]) (hv : seg.vaddr = 0)
    (hfile : seg.off + seg.filesz ≤ (s.fs.file ip).size) (hslots : ∀ a < seg.memsz, NoSlot s₀ p a)
    (hfree : s₀.phys.freelist.Nodup) (has : ∀ a ∈ as, a < seg.memsz) :
    (∀ a < seg.memsz, ∀ wr, userFrame p a wr s₀ = none) ∧
    (as.length ≤ s₀.phys.freelist.length → ∃ s₁, faults p as s₀ = .ok s₁) ∧
    ∀ s₁, faults p as s₀ = .ok s₁ → ∀ a < seg.memsz, (∃ b ∈ as, b / pgSize = a / pgSize) →
      ∃ f, userFrame p a false s₁ = some f ∧
        s₁.phys.mem f (pgOffset a) = if a < seg.filesz then (s.fs.file ip).data (seg.off + a) else 0 := by
  have hu := exec_unloaded hexec hip
  obtain ⟨hok, hsz⟩ := hu.seg seg (by simp [hseg])
  have hfits := hok.fits
  have hhas : ∀ a < seg.memsz, seg.Has a := fun a ha => ⟨by omega, by omega⟩
  have hD : Demand p seg (s.fs.file ip) ∅ s₀ :=
    hu.demand s₀.phys.mem (by simp [hseg]) (fun a ha => hslots a (by have := ha.2; omega)) hfree
  obtain ⟨hprog, hres⟩ := faults_ok as hok hv (Or.inr hfile) (fun a ha => hhas a (has a ha)) hD
  refine ⟨fun a ha wr => ?_, hprog, fun s₁ hs₁ a ha hb => ?_⟩
  · obtain ⟨pd, hpd, -, hblank⟩ := hu.pgdir
    have hp := (hblank a (by omega)).1
    rw [PageDir.pte] at hp
    cases hpte : pd.pte? a with
    | none => simp [userFrame, hpd, hpte]
    | some pte =>
      rw [hpte, Option.getD_some] at hp
      simp [userFrame, hpd, hpte, hp]
  · obtain ⟨f, hf, hbyte⟩ := (hres s₁ hs₁).served (hhas a ha) (Or.inr hb)
    refine ⟨f, hf, ?_⟩
    rw [ProgHdr.byte?, hv, Nat.sub_zero] at hbyte
    split at hbyte
    · next hlt =>
      rw [if_pos (by omega)] at hbyte
      rw [if_pos hlt, Option.some.inj hbyte]
    · next hlt =>
      rw [if_neg hlt, Option.some.inj hbyte]

theorem demand_load_origin_small : ∃ s₀ s₁, exec 0 [] [] (execKernel 0) = .ok (0, s₀) ∧ faults 0 [0] s₀ = .ok s₁ ∧
    ∀ a < 16, ∃ f, userFrame 0 a false s₁ = some f ∧ s₁.phys.mem f (pgOffset a) = if a < 8 then 7 else 0 := by
  obtain ⟨s₀, hexec⟩ := execKernel_exec (v := 0) (by decide)
  obtain ⟨hnd, hne, -, hno⟩ := execKernel_after hexec
  have hseg := loadHdrs_smallElf 0
  have hslots : ∀ a < 16, NoSlot s₀ 0 a := fun a ha =>
    hno _ (by rw [hseg]; exact List.mem_singleton.2 rfl) a ⟨by simp, by simpa using ha⟩
  obtain ⟨-, hprog, hres⟩ := demand_load_origin [0] hexec rfl hseg rfl (by simp [execKernel, smallElf]) hslots hnd (by simp)
  obtain ⟨s₁, hs₁⟩ := hprog (List.length_pos_iff.2 hne)
  refine ⟨s₀, s₁, hexec, hs₁, fun a ha => ?_⟩
  obtain ⟨f, hf, hbyte⟩ := hres s₁ hs₁ a ha ⟨0, by simp, by simp only [pgSize]; omega⟩
  refine ⟨f, hf, ?_⟩
  rw [hbyte]
  split
  · exact smallElf_data 0 (Nat.le_add_right _ _)
  · rfl

end Exec

end DemandPaging
