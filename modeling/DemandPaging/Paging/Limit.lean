/-
The page fault handler and the limits of the address space. The handler looks neither at the size of
the process nor at the entry of the page, and it never kills: it serves a fault below the size of the
process, on a page that is not the guard page, when there is room; every other fault it also serves,
or it panics.
-/
import DemandPaging.Exec.Layouts
import DemandPaging.Lru.Fifo
import DemandPaging.Paging.Eviction
import DemandPaging.Paging.Locks
import DemandPaging.Swap.Isolation

namespace DemandPaging

/-! ## Mappings -/

/-- The page table entry of a process for an address, zero when there is none. -/
def Kernel.pte (s : Kernel) (q : ProcIdx) (b : Nat) : Pte := (s.ptable q).pgdir.elim Pte.zero fun pd => pd.pte b

/-- User code can use the page. -/
def UserMapped (s : Kernel) (q : ProcIdx) (b : Nat) : Prop := (s.pte q b).present = true ∧ (s.pte q b).user = true

/-- A page that `exec` has made inaccessible: its entry is there, without `PTE_U`. -/
def Guard (s : Kernel) (q : ProcIdx) (b : Nat) : Prop := s.pte q b ≠ Pte.zero ∧ (s.pte q b).user = false

/-- The page belongs to the process and is not its guard page. -/
def Allowed (p : ProcIdx) (v : Nat) (s : Kernel) : Prop := v < (s.ptable p).sz ∧ ¬Guard s p v

/-- Kernel mappings are as before, no guard page has become accessible, and pages have been made
accessible only below the size of the process. -/
structure Confined (p : ProcIdx) (s s' : Kernel) : Prop where
  kernel : ∀ q b, kernBase ≤ b → b < wordSize → s'.pte q b = s.pte q b
  guard : ∀ b < kernBase, Guard s p b → ¬UserMapped s' p b
  added : ∀ q b, b < wordSize → UserMapped s' q b → UserMapped s q b ∨ q = p ∧ pgRoundDown b < (s.ptable p).sz

/-- The handler returns, confined; and all it does on a fault that is not allowed is to kill. -/
def Enforced (p : ProcIdx) (a : Nat) (s : Kernel) : Prop :=
  ∃ s', pgfltHandler p a s = .ok s' ∧ Confined p s s' ∧
    (¬Allowed p (pgRoundDown a) s → s' = s.setProc p { s.ptable p with killed := true })

/-! ## Room -/

/-- The pages it takes to map the page: one, and one for a missing table. -/
def pagesFor (pd : PageDir) (v : Nat) : Nat := if pd.pte? v = none then 2 else 1

/-- The oldest entry can be evicted: there is a slot for its page, or no page to save. -/
def Evictable (s : Kernel) : Prop := freeSlot? s.swap ≠ none ∨ ∃ e, s.lru.abs.head? = some e ∧ Vacant s e

/-- The handler can fill the page from the saved segment: the page that `loaduvm` writes has a table, and
the length of the zeros does not wrap. -/
structure Fillable (ph : PhInfo) (pd : PageDir) (v : Nat) : Prop where
  load : ph.vaddr ≤ v → v + pgSize ≤ ph.vaddr + ph.filesz → pd.pte? (ph.vaddr + v) ≠ none ∨ pdx (ph.vaddr + v) = pdx v
  zero : ph.vaddr ≤ v → v ≤ ph.vaddr + ph.memsz → ph.vaddr + ph.filesz < v + pgSize → ph.filesz ≤ v → v ≤ ph.memsz

/-- A page of the process is on its swap list. -/
def Listed (p : ProcIdx) (v : Nat) (s : Kernel) : Prop := ∃ i, Lists s p i ∧ (s.swap.frames i).vaddr = v

/-- There is room to bring the page in. -/
structure Roomy (p : ProcIdx) (v : Nat) (s : Kernel) : Prop where
  pages : ∀ pd, (s.ptable p).pgdir = some pd → pagesFor pd v ≤ s.phys.freelist.length
  ring : Listed p v s → s.lru.abs.length < maxFrameLru ∨ Evictable s
  fill : ¬Listed p v s → ∀ pd, (s.ptable p).pgdir = some pd → Fillable (s.ptable p).ph pd v

/-- What the rest of the kernel promises to the handler: free locks, a well-formed ring of user pages,
swap lists that end, of slots in use, page directories, and a segment that has passed the checks of
`exec`. -/
structure Faulting (p : ProcIdx) (s : Kernel) : Prop where
  unlocked : Unlocked s
  ring : RingOk s.lru
  user : ∀ e ∈ s.lru.abs, e.2 < kernBase
  list : ∃ L, SwapList s.swap (s.ptable p).swapList L
  pgdir : ∃ pd, (s.ptable p).pgdir = some pd
  used : ∀ i, Lists s p i → s.swap.bitmap i ≠ -1
  owners : ∀ e ∈ s.lru.abs, ∀ q, getProc e.1 s = some q →
    (∃ pd, (s.ptable q).pgdir = some pd) ∧ ∃ L, SwapList s.swap (s.ptable q).swapList L
  size : (s.ptable p).sz ≤ kernBase
  aligned : (s.ptable p).ph.vaddr % pgSize = 0
  filesz : (s.ptable p).ph.filesz ≤ (s.ptable p).ph.memsz
  fits : (s.ptable p).ph.vaddr + (s.ptable p).ph.memsz < kernBase

/-! ## Filling a page -/

section Fill

variable {ph : PhInfo} {pd : PageDir} {file : File} {v f : Nat} {m m' : Phys}

/-- Whatever the handler fills, only the contents of pages change. -/
theorem copyInto_mem {off n : Nat} {src : Nat → UInt8} (h : copyInto f off n src m = .ok m') : ∃ x, m' = { m with mem := x } := by
  unfold copyInto at h
  split at h
  · cases h
  · cases h; exact ⟨_, rfl⟩

theorem loaduvmLoop_mem {addr offset sz : Nat} : ∀ {n i : Nat} {m m' : Phys} {r : Int},
    loaduvmLoop pd addr file offset sz n i m = .ok (r, m') → ∃ x, m' = { m with mem := x }
  | 0, _, m, _, _, h => by cases h; exact ⟨m.mem, rfl⟩
  | n + 1, i, m, m', r, h => by
    rw [loaduvmLoop] at h
    split at h
    · cases h
    · dsimp only at h
      generalize (if sz - i < pgSize then sz - i else pgSize) = cnt at h
      split at h
      · cases h; exact ⟨m.mem, rfl⟩
      · obtain ⟨m₁, hcopy, h⟩ := bind_eq_ok.1 h
        obtain ⟨x, rfl⟩ := copyInto_mem hcopy
        split at h
        · cases h; exact ⟨x, rfl⟩
        · obtain ⟨x', rfl⟩ := loaduvmLoop_mem h
          exact ⟨x', rfl⟩

theorem loaduvm_mem {addr offset sz : Nat} {r : Int} (h : loaduvm pd addr file offset sz m = .ok (r, m')) :
    ∃ x, m' = { m with mem := x } := by
  unfold loaduvm at h
  split at h
  · cases h
  · exact loaduvmLoop_mem h

theorem fillPage_mem (h : fillPage pd ph file v f m = .ok m') : ∃ x, m' = { m with mem := x } := by
  unfold fillPage at h
  split at h
  · split at h
    · obtain ⟨⟨r, m₁⟩, hload, h⟩ := bind_eq_ok.1 h
      cases h
      exact loaduvm_mem hload
    · split at h
      · split at h <;> exact copyInto_mem h
      · obtain ⟨⟨r, m₁⟩, hload, h⟩ := bind_eq_ok.1 h
        obtain ⟨x, rfl⟩ := loaduvm_mem hload
        obtain ⟨x', rfl⟩ := copyInto_mem h
        exact ⟨x', rfl⟩
  · cases h; exact ⟨m.mem, rfl⟩

/-- The handler fills the page exactly when the page that is loaded has an entry and the zeros end
within the page. -/
theorem fillPage_returns_iff (hal : ph.vaddr % pgSize = 0) (hle : ph.filesz ≤ ph.memsz) (hfits : ph.vaddr + ph.memsz < kernBase)
    (hv : v % pgSize = 0) (hk : v ≤ kernBase) (hpte : pd.pte? v ≠ none) :
    (∃ m', fillPage pd ph file v f m = .ok m') ↔
      (ph.vaddr ≤ v → v + pgSize ≤ ph.vaddr + ph.filesz → pd.pte? (ph.vaddr + v) ≠ none) ∧
      (ph.vaddr ≤ v → v ≤ ph.vaddr + ph.memsz → ph.vaddr + ph.filesz < v + pgSize → ph.filesz ≤ v → v ≤ ph.memsz) := by
  have hsum : (ph.vaddr + ph.memsz) % wordSize = ph.vaddr + ph.memsz := by simp only [wordSize, kernBase] at *; omega
  have hsum' : (ph.vaddr + ph.filesz) % wordSize = ph.vaddr + ph.filesz := by simp only [wordSize, kernBase] at *; omega
  have hnext : (v + pgSize) % wordSize = v + pgSize := by simp only [wordSize, kernBase, pgSize] at *; omega
  unfold fillPage
  rw [hsum, hsum', hnext]
  by_cases hin : ph.vaddr ≤ v ∧ v ≤ ph.vaddr + ph.memsz
  swap
  · -- outside the segment nothing is filled
    rw [if_neg hin]
    refine ⟨fun _ => ⟨fun h1 h2 => absurd ⟨h1, ?_⟩ hin, fun h1 h2 => absurd ⟨h1, h2⟩ hin⟩, fun _ => ⟨m, rfl⟩⟩
    simp only [pgSize] at *
    omega
  have htarget : (ph.vaddr + v) % wordSize = ph.vaddr + v := by simp only [wordSize, kernBase] at *; omega
  have htal : (ph.vaddr + v) % pgSize = 0 := by simp only [pgSize] at *; omega
  have htw : ph.vaddr + v < wordSize := by simp only [wordSize, kernBase] at *; omega
  have hoff : (ph.off + v) % wordSize < wordSize := Nat.mod_lt _ (by decide)
  rw [if_pos hin, htarget]
  by_cases hfull : v + pgSize ≤ ph.vaddr + ph.filesz
  · rw [if_pos hfull]
    cases hpd : pd.pte? (ph.vaddr + v) with
    | none =>
      constructor
      · rintro ⟨m', h⟩
        obtain ⟨x, hload, -⟩ := bind_eq_ok.1 h
        exact absurd hload (loaduvm_unmapped htw (by decide) le_rfl hpd)
      · intro h
        exact absurd rfl (h.1 hin.1 hfull)
    | some pte =>
      obtain ⟨r, hload⟩ := loaduvm_page file m (ph.vaddr + v) ((ph.off + v) % wordSize) pgSize htal htw hoff (by decide) le_rfl hpd
      rw [hload]
      refine ⟨fun _ => ⟨fun _ _ => by simp, fun _ _ h3 => by omega⟩, fun _ => ⟨_, rfl⟩⟩
  rw [if_neg hfull]
  by_cases hzero : ph.filesz ≤ v
  · rw [if_pos hzero]
    by_cases hmem : v + pgSize ≤ ph.memsz
    · rw [if_pos hmem, copyInto_eq (by simp)]
      refine ⟨fun _ => ⟨fun _ h => absurd h hfull, fun _ _ _ _ => by omega⟩, fun _ => ⟨_, rfl⟩⟩
    · rw [if_neg hmem]
      by_cases hwrap : v ≤ ph.memsz
      · have hsub : subWord ph.memsz v = ph.memsz - v := by simp only [subWord, wordSize, kernBase] at *; omega
        rw [hsub, copyInto_eq (by omega)]
        exact ⟨fun _ => ⟨fun _ h => absurd h hfull, fun _ _ _ _ => hwrap⟩, fun _ => ⟨_, rfl⟩⟩
      · have hsub : pgSize < subWord ph.memsz v := by simp only [subWord, wordSize, kernBase, pgSize] at *; omega
        rw [copyInto, if_pos (by omega)]
        refine ⟨?_, fun h => absurd (h.2 hin.1 hin.2 (by omega) hzero) hwrap⟩
        rintro ⟨m', h⟩
        cases h
  · -- only a segment at address 0 ends inside the page here
    rw [if_neg hzero]
    have hv0 : ph.vaddr = 0 := by simp only [pgSize] at *; omega
    obtain ⟨pte, hpd⟩ := Option.ne_none_iff_exists'.1 hpte
    have hsub : subWord pgSize (ph.filesz - v) = pgSize - (ph.filesz - v) := by
      simp only [subWord, wordSize, kernBase, pgSize] at *; omega
    obtain ⟨r, hload⟩ := loaduvm_page file m (ph.vaddr + v) ((ph.off + v) % wordSize) (ph.filesz - v) htal htw hoff
      (by omega) (by simp only [pgSize] at *; omega) (by rw [hv0, Nat.zero_add]; exact hpd)
    rw [hload, hsub]
    simp only [ok_bind]
    rw [copyInto_eq (by simp only [pgSize] at *; omega)]
    exact ⟨fun _ => ⟨fun _ h => absurd h hfull, fun _ _ _ h => absurd h hzero⟩, fun _ => ⟨_, rfl⟩⟩

end Fill

/-! ## A page without a slot -/

section Unlisted

variable {s s' : Kernel} {p : ProcIdx} {a : Nat} {pd : PageDir}

/-- The handler on a page without a slot. -/
theorem pgfltHandler_unlisted (hk : pgRoundDown a ≤ kernBase) (hno : NoSlot s p a) (hpd : (s.ptable p).pgdir = some pd) :
    pgfltHandler p a s = match s.phys.freelist with
      | [] => .error (.panic "No Free Page")
      | f :: fl =>
        match mappages pd (pgRoundDown a) pgSize (f * pgSize) ⟨true, true, true⟩ true { s.phys with freelist := fl } with
        | (r, pd', m) =>
          if r < 0 then .error (.panic "Error in Mappages")
          else do
            let m ← fillPage pd' (s.ptable p).ph (s.fs.file (s.ptable p).ip) (pgRoundDown a) f m
            let m ← fillPage pd' (s.ptable p).ph (s.fs.file (s.ptable p).ip) (pgRoundDown a) f m
            return s.own p { s.ptable p with pgdir := some pd' } m := by
  unfold pgfltHandler kalloc kallocPage mappagesProc
  dsimp only
  rw [if_neg (by omega), hno, ok_bind]
  cases hfl : s.phys.freelist with
  | nil => rfl
  | cons f fl =>
    dsimp only
    simp only [hpd, ok_bind, pure_ok, deref_some, ne_eq, not_true_eq_false, and_self, if_false]
    rcases mappages pd (pgRoundDown a) pgSize (f * pgSize) ⟨true, true, true⟩ true { s.phys with freelist := fl } with ⟨r, pd', m⟩
    dsimp only
    split
    · rfl
    · simp only [Kernel.setPgdir, Kernel.setProc, Function.update_self, deref_some, ok_bind]
      rfl

/-- Mapping a page adds at most its own table. -/
theorem mappages_page_present {v pa : Nat} {perm : Flags} {set : Bool} {pd pd' : PageDir} {m m' : Phys} (hv : v % pgSize = 0)
    (hw : v < wordSize) (h : mappages pd v pgSize pa perm set m = (0, pd', m')) : pd'.present = insert (pdx v) pd.present := by
  rw [mappages_page pa perm set pd m hv hw] at h
  rcases walkpgdir_cases pd v m with ⟨hp, hwalk⟩ | ⟨hp, hfl, hwalk⟩ | ⟨f, fl, hp, hfl, hwalk⟩
  · rw [hwalk] at h
    cases h
    rw [setPte_present, Finset.insert_eq_of_mem hp]
  · rw [hwalk] at h
    cases h
  · rw [hwalk] at h
    cases h
    rw [setPte_present, insert_present]

theorem pte?_ne_none {v b : Nat} {pd pd' : PageDir} (h : pd'.present = insert (pdx v) pd.present) :
    pd'.pte? b ≠ none ↔ pd.pte? b ≠ none ∨ pdx b = pdx v := by
  rw [Ne, Ne, pte?_eq_none, pte?_eq_none, ← Ne, ← Ne, ← mem_present, ← mem_present, h, Finset.mem_insert, or_comm]

/-- The page fits when there is one for it and one for a missing table. -/
theorem pagesFor_le {v f : Nat} {fl : List Nat} : pagesFor pd v ≤ (f :: fl).length ↔ ¬(fl = [] ∧ pdx v ∉ pd.present) := by
  have hp : pd.pte? v = none ↔ pdx v ∉ pd.present := by rw [pte?_eq_none, mem_present, not_not]
  unfold pagesFor
  cases fl with
  | nil => split <;> simp_all
  | cons g fl => split <;> simp

theorem unlisted_ok (hw : a < wordSize) (hk : pgRoundDown a ≤ kernBase) (hno : NoSlot s p a)
    (hpd : (s.ptable p).pgdir = some pd) (h : pgfltHandler p a s = .ok s') : ∃ f pd' m m₁ m₂,
      s' = s.own p { s.ptable p with pgdir := some pd' } m₂ ∧ Mapped (pgRoundDown a) ⟨⟨true, true, true⟩, f⟩ pd m pd' m₁ ∧
      m₂.freelist.length < s.phys.freelist.length := by
  have hv := pgRoundDown_le a
  rw [pgfltHandler_unlisted hk hno hpd] at h
  cases hfl : s.phys.freelist with
  | nil => rw [hfl] at h; cases h
  | cons f fl =>
    rw [hfl] at h
    dsimp only at h
    rcases mappages_page_cases (f * pgSize) ⟨true, true, true⟩ true pd { s.phys with freelist := fl } (pgRoundDown_mod a)
      (by omega) with ⟨-, -, hmap⟩ | ⟨pd', m₁, hmap, hmapped⟩
    · rw [hmap] at h; cases h
    · rw [hmap] at h
      simp only [lt_self_iff_false, if_false] at h
      obtain ⟨m₂, hfill, h⟩ := bind_eq_ok.1 h
      obtain ⟨m₃, hfill', h⟩ := bind_eq_ok.1 h
      cases h
      rw [Nat.mul_div_cancel _ (by decide)] at hmapped
      refine ⟨f, pd', _, m₁, m₃, rfl, hmapped, ?_⟩
      obtain ⟨T, hT, -⟩ := hmapped.takes.taken
      have hlen := congrArg List.length hT
      rw [List.length_append] at hlen
      obtain ⟨x, rfl⟩ := fillPage_mem hfill
      obtain ⟨x', rfl⟩ := fillPage_mem hfill'
      dsimp only at hlen ⊢
      rw [List.length_cons]
      omega

theorem unlisted_returns_iff (h : Faulting p s) (hw : a < wordSize) (hk : pgRoundDown a ≤ kernBase) (hno : NoSlot s p a)
    (hpd : (s.ptable p).pgdir = some pd) : (∃ s', pgfltHandler p a s = .ok s') ↔
      pagesFor pd (pgRoundDown a) ≤ s.phys.freelist.length ∧ Fillable (s.ptable p).ph pd (pgRoundDown a) := by
  have hv := pgRoundDown_le a
  rw [pgfltHandler_unlisted hk hno hpd]
  cases hfl : s.phys.freelist with
  | nil =>
    constructor
    · rintro ⟨s', h⟩; cases h
    · rintro ⟨h, -⟩
      unfold pagesFor at h
      split at h <;> simp at h
  | cons f fl =>
    dsimp only
    rw [pagesFor_le]
    rcases mappages_page_cases (f * pgSize) ⟨true, true, true⟩ true pd { s.phys with freelist := fl } (pgRoundDown_mod a)
      (by omega) with ⟨hnil, hmiss, hmap⟩ | ⟨pd', m₁, hmap, hmapped⟩
    · rw [hmap]
      constructor
      · rintro ⟨s', h⟩; cases h
      · rintro ⟨h, -⟩; exact absurd ⟨hnil, hmiss⟩ h
    · have hroom : ¬(fl = [] ∧ pdx (pgRoundDown a) ∉ pd.present) := by
        rintro ⟨rfl, hmiss⟩
        have hpres := mappages_page_present (pgRoundDown_mod a) (by omega) hmap
        have hbal := hmapped.balance
        rw [hpres, Finset.card_insert_of_notMem hmiss] at hbal
        simp only [List.length_nil] at hbal
        omega
      have hpres := mappages_page_present (pgRoundDown_mod a) (by omega) hmap
      have hentry : pd'.pte? (pgRoundDown a) ≠ none := by rw [hmapped.entry]; simp
      -- the second pass meets what the first one met
      have hfill : ∀ m, (∃ m', fillPage pd' (s.ptable p).ph (s.fs.file (s.ptable p).ip) (pgRoundDown a) f m = .ok m') ↔ _ :=
        fun m => fillPage_returns_iff h.aligned h.filesz h.fits (pgRoundDown_mod a) hk hentry
      have hcond : ((s.ptable p).ph.vaddr ≤ pgRoundDown a → pgRoundDown a + pgSize ≤ (s.ptable p).ph.vaddr + (s.ptable p).ph.filesz →
          pd'.pte? ((s.ptable p).ph.vaddr + pgRoundDown a) ≠ none) ∧ ((s.ptable p).ph.vaddr ≤ pgRoundDown a →
          pgRoundDown a ≤ (s.ptable p).ph.vaddr + (s.ptable p).ph.memsz →
          (s.ptable p).ph.vaddr + (s.ptable p).ph.filesz < pgRoundDown a + pgSize → (s.ptable p).ph.filesz ≤ pgRoundDown a →
          pgRoundDown a ≤ (s.ptable p).ph.memsz) ↔ Fillable (s.ptable p).ph pd (pgRoundDown a) := by
        rw [pte?_ne_none hpres]
        exact ⟨fun ⟨h1, h2⟩ => ⟨h1, h2⟩, fun ⟨h1, h2⟩ => ⟨h1, h2⟩⟩
      rw [hmap, ← hcond]
      simp only [lt_self_iff_false, if_false]
      constructor
      · rintro ⟨s', h⟩
        obtain ⟨m₂, h₂, -⟩ := bind_eq_ok.1 h
        exact ⟨hroom, (hfill m₁).1 ⟨m₂, h₂⟩⟩
      · rintro ⟨-, hc⟩
        obtain ⟨m₂, h₂⟩ := (hfill m₁).2 hc
        obtain ⟨m₃, h₃⟩ := (hfill m₂).2 hc
        rw [h₂, ok_bind, h₃]
        exact ⟨_, rfl⟩

end Unlisted

/-! ## A page with a slot -/

/-- What an eviction leaves: at most the entry of one user page has lost `PTE_P`, and the list of the
process still has a slot of the page. -/
structure Evolved (p : ProcIdx) (v : Nat) (s s₁ : Kernel) : Prop where
  phys : s₁.phys = s.phys
  unlocked : s₁.swap.lk = false
  list : ∃ L, SwapList s₁.swap (s₁.ptable p).swapList L ∧ ∃ i ∈ L, (s₁.swap.frames i).vaddr = v
  pgdir : ∀ q pd, (s.ptable q).pgdir = some pd → ∃ pd₁, (s₁.ptable q).pgdir = some pd₁ ∧ pd₁.present = pd.present
  kernel : ∀ q b, kernBase ≤ b → b < wordSize → s₁.pte q b = s.pte q b
  pte : ∀ q b, s₁.pte q b = s.pte q b ∨ s₁.pte q b = { s.pte q b with present := false }

section Listed

variable {s s' s₁ : Kernel} {p q : ProcIdx} {a v : Nat} {pd : PageDir} {pte : Pte} {e : Int × Nat} {L Lq : List SlotIdx}
  {listq : Option SlotIdx} {f : SlotIdx}

theorem Evolved.of_lru (h : Unlocked s) (l : Lru) (hL : SwapList s.swap (s.ptable p).swapList L)
    (hv : ∃ i ∈ L, (s.swap.frames i).vaddr = v) : Evolved p v s { s with lru := l } :=
  ⟨rfl, h.swap, ⟨L, hL, hv⟩, fun _ pd hpd => ⟨pd, hpd, rfl⟩, fun _ _ _ _ => rfl, fun _ _ => .inl rfl⟩

/-- A list that may share its end with the one a slot is appended to. -/
theorem SwapList.linked_any {sw : Swap} {list : Option SlotIdx} (hL : SwapList sw list L) (kind : SwapKind) (vaddr : Nat)
    (hq : SwapList sw listq Lq) (hf : f ∉ L) : ∃ L', SwapList (sw.linked Lq kind vaddr f) list L' ∧ ∀ i ∈ L, i ∈ L' := by
  by_cases hz : ∀ z ∈ Lq.getLast?, z ∉ L
  · exact ⟨L, hL.linked_other hf hz, fun _ hi => hi⟩
  · push Not at hz
    obtain ⟨z, hz, hzL⟩ := hz
    obtain ⟨A, B, rfl⟩ := List.append_of_mem hzL
    -- the last slot of the one list has no successor, so it is the last of the other
    have hB : B = [] := by
      obtain ⟨C, rfl⟩ := List.getLast?_eq_some_iff.1 hz
      have h1 := Chain.Path.next_eq hq
      rw [Chain.Path.next_eq hL] at h1
      simpa using h1
    subst hB
    have hlink : sw.linked Lq kind vaddr f = sw.linked (A ++ [z]) kind vaddr f := by
      rw [Swap.linked, Swap.linked, hz, List.getLast?_concat]
    refine ⟨A ++ [z] ++ [f], ?_, fun i hi => List.mem_append_left _ hi⟩
    have hor : list.or (some f) = list := by
      cases list with
      | none => exact absurd (Chain.path_none.1 hL) (by simp)
      | some x => rfl
    rw [hlink, ← hor]
    exact hL.linked hf

theorem linked_vaddr {sw : Swap} {kind : SwapKind} {vaddr : Nat} {i : SlotIdx} (hi : i ≠ f) :
    ((sw.linked Lq kind vaddr f).frames i).vaddr = (sw.frames i).vaddr := by
  simp only [Swap.linked, if_neg hi]
  split <;> rfl

theorem Evolved.of_evicted (l : Lru) (hv : Victim s e q pd pte) (hk : e.2 < kernBase)
    (hLq : SwapList s.swap (s.ptable q).swapList Lq) (hf : freeSlot? s.swap = some f)
    (hL : SwapList s.swap (s.ptable p).swapList L) (hi : ∃ i ∈ L, (s.swap.frames i).vaddr = v)
    (hused : ∀ i ∈ L, s.swap.bitmap i ≠ -1) : Evolved p v s (s.evicted e q Lq f pd pte l) := by
  have hfL : f ∉ L := fun hc => hused f hc (freeSlot?_some hf)
  have hpgdir : ∀ r, ((s.evicted e q Lq f pd pte l).ptable r).pgdir =
      if r = q then some (pd.setPte e.2 { pte with present := false }) else (s.ptable r).pgdir := by
    intro r
    by_cases hr : r = q
    · subst hr
      rw [if_pos rfl, evicted_self]
    · rw [if_neg hr, evicted_other hr]
  have hpte : ∀ r b, (s.evicted e q Lq f pd pte l).pte r b =
      if r = q then (pd.setPte e.2 { pte with present := false }).pte b else s.pte r b := by
    intro r b
    unfold Kernel.pte
    rw [hpgdir]
    split <;> rfl
  have hsame : ∀ b, pdx b = pdx e.2 ∧ ptx b = ptx e.2 → pd.pte b = pte := by
    intro b hb
    have := hv.entry
    rw [PageDir.pte?] at this
    rw [PageDir.pte, PageDir.pte?, hb.1, hb.2, this]
    rfl
  have hother : ∀ b, ¬(pdx b = pdx e.2 ∧ ptx b = ptx e.2) →
      (pd.setPte e.2 { pte with present := false }).pte b = pd.pte b := by
    intro b hb
    rw [PageDir.pte, PageDir.pte, pte?_setPte_other hb]
  have hq : ∀ b, s.pte q b = pd.pte b := fun b => by rw [Kernel.pte, hv.pgdir]; rfl
  refine ⟨rfl, rfl, ?_, fun r d hd => ?_, fun r b hb hw => ?_, fun r b => ?_⟩
  · obtain ⟨i, hiL, hiv⟩ := hi
    have hif : i ≠ f := by rintro rfl; exact hfL hiL
    by_cases hp : p = q
    · subst hp
      have hLeq : Lq = L := Chain.Path.unique hLq hL
      subst hLeq
      refine ⟨Lq ++ [f], ?_, i, List.mem_append_left _ hiL, (linked_vaddr hif).trans hiv⟩
      rw [evicted_self]
      exact hL.linked hfL
    · obtain ⟨L', hL', hsub⟩ := hL.linked_any .generic e.2 hLq hfL
      refine ⟨L', ?_, i, hsub i hiL, (linked_vaddr hif).trans hiv⟩
      rw [evicted_other hp]
      exact hL'
  · by_cases hr : r = q
    · subst hr
      rw [hv.pgdir] at hd
      cases hd
      exact ⟨_, by rw [hpgdir, if_pos rfl], setPte_present⟩
    · exact ⟨d, by rw [hpgdir, if_neg hr]; exact hd, rfl⟩
  · rw [hpte]
    split
    · next hr =>
      rw [hr, hq, hother]
      rw [index_eq_iff hw (by simp only [wordSize, kernBase] at *; omega)]
      simp only [kernBase, pgSize] at *
      omega
    · rfl
  · rw [hpte]
    split
    · next hr =>
      rw [hr, hq]
      by_cases hb : pdx b = pdx e.2 ∧ ptx b = ptx e.2
      · right
        rw [hsame b hb]
        have hset : (pd.setPte e.2 { pte with present := false }).pte? e.2 = some { pte with present := false } := by
          refine pte?_setPte_same ?_
          rw [Ne, ← pte?_eq_none, hv.entry]
          simp
        rw [PageDir.pte?] at hset
        rw [PageDir.pte, PageDir.pte?, hb.1, hb.2, hset]
        rfl
      · exact .inl (hother b hb)
    · exact .inl rfl

theorem Faulting.vacant_or_victim (h : Faulting p s) (he : e ∈ s.lru.abs) : Vacant s e ∨ ∃ q pd pte L,
    Victim s e q pd pte ∧ SwapList s.swap (s.ptable q).swapList L := by
  cases hq : getProc e.1 s with
  | none => exact .inl (.inl hq)
  | some q =>
    obtain ⟨⟨pd, hpd⟩, L, hL⟩ := h.owners e he q hq
    cases hpte : pd.pte? e.2 with
    | none => exact .inl (.inr ⟨q, pd, hq, hpd, .inl hpte⟩)
    | some pte =>
      by_cases hz : pte = Pte.zero
      · exact .inl (.inr ⟨q, pd, hq, hpd, .inr (hz ▸ hpte)⟩)
      · exact .inr ⟨q, pd, pte, L, ⟨hq, hpd, hpte, hz⟩, hL⟩

/-- `get_lru` for a page with a slot: it needs an entry, or something to evict. -/
theorem getLru_evolves (h : Faulting p s) (hl : Listed p v s) (pid : Int) (w : Nat) :
    (s.lru.abs.length < maxFrameLru ∨ Evictable s) ∧ (∃ s₁, getLru pid w s = .ok s₁ ∧ Evolved p v s s₁) ∨
      ¬(s.lru.abs.length < maxFrameLru ∨ Evictable s) ∧ ∃ x, getLru pid w s = .error x := by
  obtain ⟨L, hL⟩ := h.list
  have hin : ∃ i ∈ L, (s.swap.frames i).vaddr = v := by
    obtain ⟨i, hi, hv⟩ := hl
    exact ⟨i, hL.mem_iff_reach.2 hi, hv⟩
  have hE := h.ring.queue h.unlocked.lru
  by_cases hlen : s.lru.abs.length < maxFrameLru
  · obtain ⟨l, hget, -⟩ := getLru_insert pid w hE hlen
    exact .inl ⟨.inl hlen, _, hget, .of_lru h.unlocked l hL hin⟩
  have hfull : s.lru.abs.length = maxFrameLru := by
    have := hE.freeEntries_eq
    omega
  obtain ⟨e, E, habs⟩ := List.exists_cons_of_length_pos (show 0 < s.lru.abs.length by rw [hfull]; decide)
  have hE' := habs ▸ hE
  have hEl : E.length = maxFrameLru - 1 := by rw [habs, List.length_cons] at hfull; omega
  have htwo : 2 ≤ E.length := by rw [hEl]; decide
  have hlt : ∀ E' : List (Int × Nat), E'.length ≤ E.length → E'.length < maxFrameLru := fun E' hE' => by
    rw [hEl] at hE'; exact lt_of_le_of_lt hE' (by decide)
  have hhead : ∀ e', s.lru.abs.head? = some e' → e' = e := fun e' he' => by rw [habs] at he'; simpa using he'.symm
  have he : e ∈ s.lru.abs := by rw [habs]; exact List.mem_cons_self
  rcases h.vacant_or_victim he with hvac | ⟨q, pd, pte, Lq, hvic, hLq⟩
  · obtain ⟨l₁, E₁, hev, hE₁, hsub⟩ := evict_vacant hE' htwo hvac
    obtain ⟨l, hget, -⟩ := getLru_evict pid w hE hfull hev hE₁ (hlt _ hsub.length_le)
    exact .inl ⟨.inr (.inr ⟨e, by rw [habs]; rfl, hvac⟩), _, hget, .of_lru h.unlocked l hL hin⟩
  · cases hf : freeSlot? s.swap with
    | some f =>
      obtain ⟨l₁, hev, hE₁⟩ := evict_victim hE' htwo hvic (h.user e he).le hLq h.unlocked.swap hf
      obtain ⟨l, hget, -⟩ := getLru_evict pid w hE hfull hev hE₁ (hlt _ List.length_erase_le)
      exact .inl ⟨.inr (.inl (by rw [hf]; simp)), _, hget,
        .of_evicted l hvic (h.user e he) hLq hf hL hin fun i hi => h.used i (hL.mem_iff_reach.1 hi)⟩
    | none =>
      have hev := evict_stuck hE' (by rintro rfl; simp at htwo) hvic hLq h.unlocked.swap hf
      refine .inr ⟨?_, _, getLru_stuck pid w hE hfull hev⟩
      rintro (hc | hc | ⟨e', he', hc⟩)
      · exact hlen hc
      · exact hc hf
      · rw [hhead e' he'] at hc
        rcases hc with hc | ⟨q', pd', hq', hpd', hc⟩
        · rw [hvic.owner] at hc; cases hc
        · rw [hvic.owner] at hq'
          cases hq'
          rw [hvic.pgdir] at hpd'
          cases hpd'
          rw [hvic.entry] at hc
          rcases hc with hc | hc
          · cases hc
          · exact hvic.nonzero (Option.some.inj hc)

theorem Evolved.takeSlot (h : Evolved p v s s₁) :
    ∃ y list sw, takeSlot v (s₁.ptable p).swapList s₁.swap = .ok (some y, list, sw) := by
  obtain ⟨L, hL, hi⟩ := h.list
  obtain ⟨A, y, B, rfl, hA, hy⟩ := exists_first hi
  by_cases hc : (s₁.swap.frames y).count = 1
  · exact ⟨y, _, _, takeSlot_last hL h.unlocked hA hy hc⟩
  · exact ⟨y, _, _, takeSlot_shared hL h.unlocked hA hy hc⟩

/-- `swap_in*` once a slot is found: it needs the pages. -/
theorem swapInWith_cases (kind : SwapKind) {y : SlotIdx} {list : Option SlotIdx} {sw : Swap} (hv : v % pgSize = 0)
    (hw : v < wordSize) (htake : takeSlot v (s.ptable p).swapList s.swap = .ok (some y, list, sw))
    (hpd : (s.ptable p).pgdir = some pd) :
    pagesFor pd v ≤ s.phys.freelist.length ∧ (∃ f pd' m m₁, swapInWith kind p v s = .ok (0, { s with
        swap := sw
        phys := m₁
        ptable := Function.update s.ptable p { s.ptable p with swapList := list, pgdir := some pd' } }) ∧
        Mapped v ⟨⟨true, true, true⟩, f⟩ pd m pd' m₁ ∧ m₁.freelist.length < s.phys.freelist.length) ∨
      ¬pagesFor pd v ≤ s.phys.freelist.length ∧ ∀ r s', swapInWith kind p v s = .ok (r, s') → r < 0 := by
  cases hfl : s.phys.freelist with
  | nil =>
    refine .inr ⟨by unfold pagesFor; split <;> simp, fun r s' h => ?_⟩
    unfold swapInWith readswap kalloc kallocPage at h
    rw [htake] at h
    simp only [ok_bind, Kernel.setSwap, Kernel.setProc, hfl] at h
    cases h
  | cons f fl =>
    rw [pagesFor_le]
    rcases mappages_page_cases (f * pgSize) ⟨false, true, true⟩ true pd
      ({ s.phys with freelist := fl }.setPage f (diskPage s.disk (kind.start + y * 8))) hv hw with
      ⟨hnil, hmiss, hmap⟩ | ⟨pd', m₁, hmap, hmapped⟩
    · refine .inr ⟨not_not.2 ⟨hnil, hmiss⟩, fun r s' h => ?_⟩
      unfold swapInWith readswap kalloc kallocPage mappagesSwapIn mappagesProc at h
      rw [htake] at h
      simp only [ok_bind, Kernel.setSwap, Kernel.setPgdir, Kernel.setProc, Function.update_self, hpd, deref_some, hfl, pure_ok,
        ne_eq, not_true_eq_false, and_false, if_false, hmap] at h
      cases h
      decide
    · rw [Nat.mul_div_cancel _ (by decide)] at hmapped
      refine .inl ⟨?_, f, pd', _, m₁, swapInWith_eq htake hpd hfl hmap, hmapped, ?_⟩
      · rintro ⟨rfl, hmiss⟩
        have hbal := hmapped.balance
        rw [mappages_page_present hv hw hmap, Finset.card_insert_of_notMem hmiss] at hbal
        simp only [Phys.setPage, List.length_nil] at hbal
        omega
      · obtain ⟨T, hT, -⟩ := hmapped.takes.taken
        have hlen := congrArg List.length hT
        rw [List.length_append] at hlen
        simp only [Phys.setPage] at hlen
        rw [List.length_cons]
        omega

theorem pgfltHandler_listed (hk : pgRoundDown a ≤ kernBase) (hlk : s.swap.lk = false)
    (hL : SwapList s.swap (s.ptable p).swapList L) (hl : Listed p (pgRoundDown a) s) : ∃ kind, pgfltHandler p a s = (do
      let s₁ ← getLru (s.ptable p).pid (pgRoundDown a) s
      let (r, s₂) ← swapInWith kind p (pgRoundDown a) s₁
      if r < 0 then .error (.panic "Swap In not working!") else return s₂) := by
  obtain ⟨i, hi, hv⟩ := hl
  have hsome : (L.find? fun i => (s.swap.frames i).vaddr = pgRoundDown a).isSome :=
    List.find?_isSome.2 ⟨i, hL.mem_iff_reach.2 hi, by simpa using hv⟩
  obtain ⟨y, hy⟩ := Option.isSome_iff_exists.1 hsome
  refine ⟨(s.swap.frames y).swap, ?_⟩
  unfold pgfltHandler
  dsimp only
  rw [if_neg (by omega), swapCheck_eq hL hlk, hy]
  simp only [ok_bind, Option.map_some, swapInFunc_eq]

end Listed

/-! ## Every fault -/

/-- What the handler leaves when it returns: there are fewer free pages, and beyond the faulting page at
most one entry has lost `PTE_P`. -/
structure FaultServed (p : ProcIdx) (v : Nat) (s s' : Kernel) : Prop where
  takes : s'.phys.freelist.length < s.phys.freelist.length
  kernel : ∀ q b, kernBase ≤ b → b < wordSize → ¬(q = p ∧ pdx b = pdx v ∧ ptx b = ptx v) → s'.pte q b = s.pte q b
  pte : ∀ q b, ¬(q = p ∧ pdx b = pdx v ∧ ptx b = ptx v) → s'.pte q b = s.pte q b ∨ s'.pte q b = { s.pte q b with present := false }

section Handler

variable {s s' s₁ : Kernel} {p : ProcIdx} {a v : Nat} {pd pd' : PageDir} {pte : Pte}

/-- The page is mapped in the directory of the process, after an eviction or none. -/
theorem Mapped.pte_other {m m' : Phys} (h : Mapped v pte pd m pd' m') (hpd : (s.ptable p).pgdir = some pd)
    (hpd' : (s'.ptable p).pgdir = some pd') (hother : ∀ q, q ≠ p → s'.ptable q = s.ptable q) (q : ProcIdx) (b : Nat)
    (hb : ¬(q = p ∧ pdx b = pdx v ∧ ptx b = ptx v)) : s'.pte q b = s.pte q b := by
  by_cases hq : q = p
  · subst hq
    rw [Kernel.pte, Kernel.pte, hpd', hpd]
    exact h.other b fun hc => hb ⟨rfl, hc⟩
  · rw [Kernel.pte, Kernel.pte, hother q hq]

theorem pgfltHandler_served (h : Faulting p s) (hw : a < wordSize) (hk : pgRoundDown a ≤ kernBase) :
    Roomy p (pgRoundDown a) s ∧ (∃ s', pgfltHandler p a s = .ok s' ∧ FaultServed p (pgRoundDown a) s s') ∨
      ¬Roomy p (pgRoundDown a) s ∧ ∀ s', pgfltHandler p a s ≠ .ok s' := by
  have hv := pgRoundDown_le a
  obtain ⟨L, hL⟩ := h.list
  obtain ⟨pd, hpd⟩ := h.pgdir
  by_cases hl : Listed p (pgRoundDown a) s
  · obtain ⟨kind, hrun⟩ := pgfltHandler_listed hk h.unlocked.swap hL hl
    rw [hrun]
    rcases getLru_evolves h hl (s.ptable p).pid (pgRoundDown a) with ⟨hring, s₁, hget, hev⟩ | ⟨hring, x, hget⟩
    · rw [hget, ok_bind]
      obtain ⟨y, list, sw, htake⟩ := hev.takeSlot
      obtain ⟨pd₁, hpd₁, hpres⟩ := hev.pgdir p pd hpd
      have hpages : pagesFor pd₁ (pgRoundDown a) = pagesFor pd (pgRoundDown a) := by
        have hiff : pd₁.pte? (pgRoundDown a) = none ↔ pd.pte? (pgRoundDown a) = none := by
          rw [pte?_eq_none, pte?_eq_none, ← not_iff_not, ← Ne, ← Ne, ← mem_present, ← mem_present, hpres]
        unfold pagesFor
        simp only [hiff]
      rcases swapInWith_cases kind (pgRoundDown_mod a) (by omega) htake hpd₁ with
        ⟨hroom, f, pd', m, m₁, hin, hmapped, hlen⟩ | ⟨hroom, hin⟩
      · rw [hpages, hev.phys] at hroom
        rw [hev.phys] at hlen
        refine .inl ⟨⟨fun d hd => ?_, fun _ => hring, fun hn => absurd hl hn⟩, _, by rw [hin]; rfl, hlen, ?_, ?_⟩
        · rw [hpd] at hd
          cases hd
          exact hroom
        · intro q b hb hbw hne
          rw [hmapped.pte_other hpd₁ (by simp) (fun q hq => by simp [hq]) q b hne]
          exact hev.kernel q b hb hbw
        · intro q b hne
          rw [hmapped.pte_other hpd₁ (by simp) (fun q hq => by simp [hq]) q b hne]
          exact hev.pte q b
      · refine .inr ⟨fun hr => hroom ?_, fun s' hs' => ?_⟩
        · rw [hpages, hev.phys]
          exact hr.pages pd hpd
        · obtain ⟨⟨r, s₂⟩, hr, hs'⟩ := bind_eq_ok.1 hs'
          dsimp only at hs'
          rw [if_pos (hin r s₂ hr)] at hs'
          cases hs'
    · refine .inr ⟨fun hr => hring (hr.ring hl), fun s' hs' => ?_⟩
      rw [hget] at hs'
      cases hs'
  · have hno : NoSlot s p a := by
      rw [NoSlot, swapCheck_eq hL h.unlocked.swap, List.find?_eq_none.2]
      · rfl
      · intro i hi
        simp only [decide_eq_true_eq]
        exact fun hc => hl ⟨i, hL.mem_iff_reach.1 hi, hc⟩
    have hiff := unlisted_returns_iff h hw hk hno hpd
    by_cases hr : Roomy p (pgRoundDown a) s
    · obtain ⟨s', hs'⟩ := hiff.2 ⟨hr.pages pd hpd, hr.fill hl pd hpd⟩
      obtain ⟨f, pd', m, m₁, m₂, rfl, hmapped, hlen⟩ := unlisted_ok hw hk hno hpd hs'
      have hpte : ∀ q b, ¬(q = p ∧ pdx b = pdx (pgRoundDown a) ∧ ptx b = ptx (pgRoundDown a)) →
          (s.own p { s.ptable p with pgdir := some pd' } m₂).pte q b = s.pte q b :=
        hmapped.pte_other hpd (by rw [Kernel.own_self]) (fun q hq => by simp [Kernel.own, hq])
      exact .inl ⟨hr, _, hs', hlen, fun q b _ _ hne => hpte q b hne, fun q b hne => .inl (hpte q b hne)⟩
    · refine .inr ⟨hr, fun s' hs' => hr ?_⟩
      obtain ⟨hpages, hfill⟩ := hiff.1 ⟨s', hs'⟩
      refine ⟨fun d hd => ?_, fun hc => absurd hc hl, fun _ d hd => ?_⟩
      all_goals
        rw [hpd] at hd
        cases hd
        assumption

/-- A fault that is served leaves the kernel and the guard page alone when the page is allowed. -/
theorem FaultServed.confined (h : FaultServed p (pgRoundDown a) s s') (hsz : (s.ptable p).sz ≤ kernBase) (ha : a < wordSize)
    (hall : Allowed p (pgRoundDown a) s) : Confined p s s' := by
  obtain ⟨hlt, hguard⟩ := hall
  have hv := pgRoundDown_le a
  have hpage : ∀ b < wordSize, pdx b = pdx (pgRoundDown a) ∧ ptx b = ptx (pgRoundDown a) → pgRoundDown b = pgRoundDown a := by
    intro b hb hidx
    rw [index_eq_iff hb (by omega)] at hidx
    simp only [pgRoundDown, pgSize] at *
    omega
  refine ⟨fun q b hb hw => h.kernel q b hb hw ?_, fun b hb hg hm => ?_, fun q b hw hm => ?_⟩
  · rintro ⟨-, hidx⟩
    have := hpage b hw hidx
    simp only [pgRoundDown, pgSize, kernBase] at *
    omega
  · by_cases hidx : pdx b = pdx (pgRoundDown a) ∧ ptx b = ptx (pgRoundDown a)
    · -- the entry is that of the faulting page
      have hsame : s.pte p b = s.pte p (pgRoundDown a) := by
        unfold Kernel.pte PageDir.pte PageDir.pte?
        rw [hidx.1, hidx.2]
      rw [Guard, hsame] at hg
      exact hguard hg
    · rcases h.pte p b (fun hc => hidx hc.2) with he | he
      · rw [UserMapped, he, hg.2] at hm
        exact absurd hm.2 (by simp)
      · rw [UserMapped, he] at hm
        exact absurd hm.1 (by simp)
  · by_cases hidx : q = p ∧ pdx b = pdx (pgRoundDown a) ∧ ptx b = ptx (pgRoundDown a)
    · exact .inr ⟨hidx.1, by rw [hpage b hw hidx.2]; exact hlt⟩
    · rcases h.pte q b hidx with he | he
      · exact .inl (by rw [UserMapped, ← he]; exact hm)
      · rw [UserMapped, he] at hm
        exact absurd hm.1 (by simp)

end Handler

/-! ## One process -/

theorem smallKernel_faulting : Faulting 0 smallKernel := by
  have habs : smallKernel.lru.abs = [] := lruInit_queue.abs_eq
  have hno : ∀ e, e ∉ smallKernel.lru.abs := by simp [habs]
  refine ⟨⟨rfl, rfl⟩, ⟨[], lruInit_rep⟩, fun e he => absurd he (hno e), ⟨[], rfl⟩, ⟨smallDir, rfl⟩, ?_,
    fun e he => absurd he (hno e), by decide, rfl, le_rfl, by decide⟩
  rintro i ⟨head, hhead, -⟩
  cases hhead

theorem smallKernel_unlisted (v : Nat) : ¬Listed 0 v smallKernel := by
  rintro ⟨i, ⟨head, hhead, -⟩, -⟩
  cases hhead

end DemandPaging
