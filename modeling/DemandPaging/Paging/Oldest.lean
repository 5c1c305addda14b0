/-
The oldest entry of a full ring. Where its page is present `get_lru` moves exactly that page to a slot of
its process and changes nothing else; where it is not, the entry is only dropped if the page table entry
is zero, for `read_vaddr` tests `*pte && PTE_P` and takes every other one for a present page.
-/
import DemandPaging.Lru.Fifo
import DemandPaging.Paging.Eviction
import DemandPaging.Swap.Extents
import DemandPaging.Swap.Lifecycle

namespace DemandPaging

variable {s : Kernel} {e : Int × Nat} {E : List (Int × Nat)} {q : ProcIdx} {pd : PageDir} {pte : Pte} {L : List SlotIdx}
  {f : SlotIdx}

/-! ## A present page -/

/-- The oldest entry belongs to a live process whose page is present, and there is a slot to save it in. -/
structure Evictee (s : Kernel) (e : Int × Nat) (q : ProcIdx) (pd : PageDir) (pte : Pte) (L : List SlotIdx) : Prop where
  owner : getProc e.1 s = some q
  live : Live s q
  pgdir : (s.ptable q).pgdir = some pd
  entry : pd.pte? e.2 = some pte
  present : pte.present = true
  user : e.2 ≤ kernBase
  list : SwapList s.swap (s.ptable q).swapList L
  used : ∀ i ∈ L, s.swap.bitmap i ≠ -1
  unshared : Private s q
  unlocked : s.swap.lk = false
  room : freeSlot? s.swap ≠ none

/-- The page of the entry has gone to slot `f`, at the end of the list of its process, and nothing else has changed. -/
structure MovedOut (s : Kernel) (e : Int × Nat) (q : ProcIdx) (pd : PageDir) (pte : Pte) (L : List SlotIdx) (f : SlotIdx)
    (s' : Kernel) : Prop where
  list : SwapList s'.swap (s'.ptable q).swapList (L ++ [f])
  free : s.swap.bitmap f = -1
  slot : s'.swap.frames f = ⟨e.2, none, .generic, 1⟩ ∧ s'.swap.bitmap f = 1
  blocks : diskPage s'.disk (swap1Start + f * 8) = s.phys.mem pte.frame
  disk : ∀ b, ¬(swap1Start + f * 8 ≤ b ∧ b < swap1Start + f * 8 + 8) → s'.disk b = s.disk b
  page : ∃ pd', (s'.ptable q).pgdir = some pd' ∧ pd'.pte? e.2 = some { pte with present := false } ∧
    ∀ a, ¬(pdx a = pdx e.2 ∧ ptx a = ptx e.2) → pd'.pte? a = pd.pte? a
  others : ∀ r, r ≠ q → s'.ptable r = s.ptable r
  slots : ∀ g, g ≠ f → s'.swap.bitmap g = s.swap.bitmap g ∧
    s'.swap.frames g = if L.getLast? = some g then { s.swap.frames g with next := some f } else s.swap.frames g
  lists : ∀ r L', r ≠ q → Live s r → SwapList s.swap (s.ptable r).swapList L' → (∀ i ∈ L', s.swap.bitmap i ≠ -1) →
    SwapList s'.swap (s'.ptable r).swapList L' ∧ ∀ i ∈ L', s'.swap.frames i = s.swap.frames i
  mem : s'.phys = s.phys

theorem Evictee.victim (h : Evictee s e q pd pte L) : Victim s e q pd pte := by
  refine ⟨h.owner, h.pgdir, h.entry, ?_⟩
  rintro rfl
  cases h.present

theorem Evictee.tables (h : Evictee s e q pd pte L) : pd.tables (pdx e.2) ≠ none := by
  intro hnone
  have hentry := h.entry
  rw [pte?_eq_none.2 hnone] at hentry
  cases hentry

/-- The state that an eviction leaves differs from the one before in what it has to. -/
theorem Evictee.movedOut (h : Evictee s e q pd pte L) (hf : freeSlot? s.swap = some f) (l : Lru) :
    MovedOut s e q pd pte L f (s.evicted e q L f pd pte l) := by
  have hfree := freeSlot?_some hf
  have hfL : f ∉ L := fun hm => h.used f hm hfree
  have hbuf : SwapKind.buffer .generic ((s.setProc q { s.ptable q with writeBuffer := s.phys.mem pte.frame }).ptable q) =
      s.phys.mem pte.frame := by
    rw [Kernel.setProc_same]
    rfl
  constructor
  case list =>
    rw [evicted_self]
    exact h.list.linked hfL
  case free => exact hfree
  case slot =>
    constructor
    · simp [Kernel.evicted, Kernel.swappedOut, Swap.linked]
    · simp [Kernel.evicted, Kernel.swappedOut, Swap.linked]
  case blocks =>
    show diskPage (writeswap _ (swap1Start + f * 8) s.disk) (swap1Start + f * 8) = _
    rw [hbuf]
    exact diskPage_writeswap_self _ _ _
  case disk =>
    intro b hb
    show writeswap _ (swap1Start + f * 8) s.disk b = _
    rw [writeswap, dif_neg hb]
  case page =>
    refine ⟨pd.setPte e.2 { pte with present := false }, by rw [evicted_self], pte?_setPte_same h.tables, ?_⟩
    intro a ha
    exact pte?_setPte_other ha
  case others =>
    intro r hr
    exact evicted_other hr
  case slots =>
    intro g hg
    constructor
    · exact Function.update_of_ne hg ..
    · show (if g = f then _ else _ : DiskFrame) = _
      rw [if_neg hg]
      rfl
  case lists =>
    intro r L' hr hlive hL' hused
    have hfL' : f ∉ L' := fun hm => hused f hm hfree
    -- the end of the list of `q` is not on the list of `r`
    have hlast : ∀ z ∈ L.getLast?, z ∉ L' := by
      intro z hz hz'
      exact h.unshared r hlive hr z (h.list.mem_iff_reach.1 (List.mem_of_getLast? hz)) (hL'.mem_iff_reach.1 hz')
    rw [evicted_other hr]
    refine ⟨hL'.linked_other hfL' hlast, ?_⟩
    intro i hi
    have hif : i ≠ f := by rintro rfl; exact hfL' hi
    have hil : L.getLast? ≠ some i := fun hc => hlast i hc hi
    show (if i = f then _ else if L.getLast? = some i then _ else _ : DiskFrame) = _
    rw [if_neg hif, if_neg hil]
    rfl
  case mem => rfl

/-- `get_lru` appends to a ring that is not full; from a full one it first moves the page of the oldest entry out, where that
page is present and can be saved, and nothing else. -/
theorem getLru_exact (hring : RingOk s.lru) (hlk : s.lru.lk = false) (hnd : s.lru.abs.Nodup) (pid : Int) (vaddr : Nat) :
    (s.lru.abs.length < maxFrameLru →
      ∃ l, getLru pid vaddr s = .ok { s with lru := l } ∧ RingOk l ∧ l.abs = s.lru.abs ++ [(pid, vaddr)]) ∧
    ∀ e E q pd pte L, s.lru.abs = e :: E → s.lru.abs.length = maxFrameLru → Evictee s e q pd pte L →
      ∃ s' f, getLru pid vaddr s = .ok s' ∧ RingOk s'.lru ∧ s'.lru.abs = E ++ [(pid, vaddr)] ∧ MovedOut s e q pd pte L f s' := by
  have hq := hring.queue hlk
  have hok : ∀ {l : Lru} {E : List (Int × Nat)}, Queue l E → RingOk l := fun hl => by
    obtain ⟨L, hrep, -⟩ := hl
    exact ⟨L, hrep⟩
  constructor
  · intro hlen
    obtain ⟨l, hrun, hl⟩ := getLru_insert pid vaddr hq hlen
    exact ⟨l, hrun, hok hl, hl.abs_eq⟩
  · intro e E q pd pte L habs hfull hev
    rw [habs] at hq hnd hfull
    have hlen : E.length + 1 = maxFrameLru := hfull
    obtain ⟨f, hf⟩ := Option.ne_none_iff_exists'.1 hev.room
    obtain ⟨l₁, hevict, hl₁⟩ := evict_victim hq (by simp only [maxFrameLru] at hlen; omega) hev.victim hev.user hev.list hev.unlocked hf
    -- the entry is in the ring once only, so that its second removal finds nothing
    rw [List.erase_of_not_mem (List.nodup_cons.1 hnd).1] at hl₁
    obtain ⟨l₂, hrun, hl₂⟩ := getLru_evict pid vaddr hq hfull hevict hl₁ (by omega)
    exact ⟨_, f, hrun, hok hl₂, hl₂.abs_eq, hev.movedOut hf l₂⟩

/-! ## A crowded machine -/

theorem exists_queue (E : List (Int × Nat)) (hE : E.length ≤ maxFrameLru) : ∃ l, Queue l E := by
  induction E using List.reverseRecOn with
  | nil => exact ⟨lruInit, lruInit_queue⟩
  | append_singleton E x ih =>
    rw [List.length_append, List.length_singleton] at hE
    obtain ⟨l, hl⟩ := ih (by omega)
    obtain ⟨l', -, hl'⟩ := hl.insert (by omega) x.1 x.2
    exact ⟨l', hl'⟩

/-- Entries for the first pages of process 1. -/
def pages (n : Nat) : List (Int × Nat) := (List.range n).map fun i => (1, i * pgSize)

theorem length_pages (n : Nat) : (pages n).length = n := by simp [pages]

theorem nodup_pages (n : Nat) : (pages n).Nodup := by
  refine List.nodup_range.map fun a b hab => ?_
  simpa using hab

theorem pages_succ (n : Nat) : pages (n + 1) = (1, 0) :: (List.range n).map fun i => (1, (i + 1) * pgSize) := by
  rw [pages, List.range_succ_eq_map, List.map_cons, List.map_map, Nat.zero_mul]
  rfl

/-- The small machine with the ring `l` and the entry `pte` for the first page of its process. -/
def crowded (l : Lru) (pte : Pte) : Kernel :=
  { smallKernel.setProc 0 { smallProc with pgdir := some (smallDir.setPte 0 pte) } with lru := l }

theorem crowded_entry (pte : Pte) : (smallDir.setPte 0 pte).pte? 0 = some pte := pte?_setPte_same (by decide)

theorem crowded_owner (l : Lru) (pte : Pte) : getProc 1 (crowded l pte) = some 0 := by
  have hpid : ∀ r, ((crowded l pte).ptable r).pid = (smallKernel.ptable r).pid := by
    intro r
    by_cases hr : r = 0
    · subst hr
      rfl
    · simp [crowded, Kernel.setProc, hr]
  rw [getProc_congr smallKernel (crowded l pte) hpid]
  exact smallKernel_booted.ids.getProc_eq (p := 0) (by decide)

/-- The first page is present, and the ring is full of other pages of the process. -/
theorem getLru_exact_crowded : ∃ l s' f, (crowded l ⟨⟨true, true, true⟩, 1500⟩).lru.abs = pages 1000 ∧
    getLru 1 (1000 * pgSize) (crowded l ⟨⟨true, true, true⟩, 1500⟩) = .ok s' ∧ s'.lru.abs = (pages 1001).tail ∧
    MovedOut (crowded l ⟨⟨true, true, true⟩, 1500⟩) (1, 0) 0 (smallDir.setPte 0 ⟨⟨true, true, true⟩, 1500⟩) ⟨⟨true, true, true⟩, 1500⟩
      [] f s' := by
  obtain ⟨l, hl⟩ := exists_queue (pages 1000) (by rw [length_pages])
  have habs := hl.abs_eq
  obtain ⟨R, hrep, -, hlk⟩ := hl
  have hev : Evictee (crowded l ⟨⟨true, true, true⟩, 1500⟩) (1, 0) 0 (smallDir.setPte 0 ⟨⟨true, true, true⟩, 1500⟩)
      ⟨⟨true, true, true⟩, 1500⟩ [] :=
    { owner := crowded_owner l _
      live := ProcState.noConfusion
      pgdir := rfl
      entry := crowded_entry _
      present := rfl
      user := by decide
      list := rfl
      used := by simp
      unshared := by
        rintro r - - i ⟨head, hhead, -⟩
        cases hhead
      unlocked := rfl
      room := by
        rw [Ne, freeSlot?_none]
        intro hall
        exact hall 0 rfl }
  obtain ⟨-, hfull⟩ := getLru_exact (s := crowded l ⟨⟨true, true, true⟩, 1500⟩) ⟨R, hrep⟩ hlk
    (by show l.abs.Nodup; rw [habs]; exact nodup_pages _) 1 (1000 * pgSize)
  obtain ⟨s', f, hrun, -, hring, hmoved⟩ := hfull (1, 0) _ 0 _ _ [] (habs.trans (pages_succ 999))
    (by show l.abs.length = _; rw [habs, length_pages]) hev
  refine ⟨l, s', f, habs, hrun, ?_, hmoved⟩
  have hrange : List.range 1000 = List.range 999 ++ [999] := List.range_succ
  rw [hring, pages_succ 1000, List.tail_cons, hrange, List.map_append, List.map_singleton]

/-! ## A page that is not present -/

/-- The 32 bits of a page table entry. -/
def Pte.word (pte : Pte) : BitVec 32 :=
  BitVec.ofNat 32 (pte.frame * pgSize + 4 * pte.user.toNat + 2 * pte.write.toNat + pte.present.toNat)

/-- The test that `read_vaddr` makes, `*pte && PTE_P`. -/
def pteTest (w : BitVec 32) : Bool := w != 0 && (1 : BitVec 32) != 0

theorem Pte.word_eq_zero (h : pte.frame < 2 ^ 20) : pte.word = 0 ↔ pte = Pte.zero := by
  obtain ⟨⟨p, w, u⟩, f⟩ := pte
  have hp := Bool.toNat_le p
  have hw := Bool.toNat_le w
  have hu := Bool.toNat_le u
  rw [Pte.word, ← BitVec.toNat_inj, BitVec.toNat_ofNat, BitVec.ofNat_eq_ofNat, BitVec.toNat_zero, Nat.mod_eq_of_lt (by simp only [pgSize] at *; omega)]
  constructor
  · intro hz
    simp only [pgSize] at hz
    obtain rfl : f = 0 := by omega
    have hp0 : p = false := by rw [← Bool.toNat_eq_zero]; omega
    have hw0 : w = false := by rw [← Bool.toNat_eq_zero]; omega
    have hu0 : u = false := by rw [← Bool.toNat_eq_zero]; omega
    rw [hp0, hw0, hu0]
    rfl
  · intro hz
    cases hz
    rfl

/-- An eviction that has saved a page has taken a slot. -/
theorem evict_saves {s' : Kernel} (hE : Queue s.lru (e :: E)) (hne : E ≠ []) (hv : Victim s e q pd pte) (h : evict s = .ok s') :
    s'.swap ≠ s.swap := by
  obtain ⟨l, -, hev⟩ := evict_delete hE hne
  rw [hev, hv.owner] at h
  simp only [readVaddr, hv.pgdir, deref_some, ok_bind, hv.entry, if_neg hv.nonzero, pure_ok, swapOutFunc_eq] at h
  rw [if_neg (by decide)] at h
  obtain ⟨⟨r, s₂⟩, hout, h⟩ := bind_eq_ok.1 h
  obtain ⟨slot, list, sw, hlink, hsw, -, hnone, -⟩ := swapOutWith_ok hout
  obtain ⟨hslot, -, hsome⟩ := linkSlot_ok hlink
  dsimp only at h
  split at h
  · cases h
  next hr =>
  cases h
  cases slot with
  | none => exact absurd (hnone rfl).1 (by omega)
  | some f =>
    intro heq
    have hbit := (hsome f rfl).1
    rw [← hsw, heq] at hbit
    have hfree : s.swap.bitmap f = -1 := freeSlot?_some hslot.symm
    have hone := congrFun hbit f
    rw [Function.update_self, hfree] at hone
    cases hone

/-- The entry of a page that is not present is dropped, and nothing else happens, exactly when its page table entry is zero;
the test of `read_vaddr` refuses no other one. -/
theorem absent_dropped_iff (hring : RingOk s.lru) (hlk : s.lru.lk = false) (habs : s.lru.abs = e :: E)
    (hfull : s.lru.abs.length = maxFrameLru) (hq : getProc e.1 s = some q) (hpd : (s.ptable q).pgdir = some pd)
    (hword : (pd.pte e.2).frame < 2 ^ 20) (_habsent : (pd.pte e.2).present = false) (pid : Int) (vaddr : Nat) :
    ((∃ l, getLru pid vaddr s = .ok { s with lru := l } ∧ l.abs = E ++ [(pid, vaddr)]) ↔ (pd.pte e.2).word = 0) ∧
      ∀ w : BitVec 32, w &&& 1 = 0 → (pteTest w = false ↔ w = 0) := by
  have hE := hring.queue hlk
  rw [habs] at hE hfull
  have hlen : E.length + 1 = maxFrameLru := hfull
  have hne : E ≠ [] := by
    rintro rfl
    cases hlen
  refine ⟨?_, ?_⟩
  · rw [Pte.word_eq_zero hword]
    constructor
    · rintro ⟨l, hrun, -⟩
      by_contra hz
      -- the page is saved although it is not there
      have hv : Victim s e q pd (pd.pte e.2) := by
        refine ⟨hq, hpd, ?_, hz⟩
        rw [PageDir.pte] at hz ⊢
        cases hpte : pd.pte? e.2 with
        | none => rw [hpte] at hz; exact absurd rfl hz
        | some pte => rfl
      rw [getLru, getLruLoop, hE.insert_full hfull] at hrun
      simp only [ok_bind] at hrun
      rw [if_pos (by decide)] at hrun
      obtain ⟨s₁, hev, hrun⟩ := bind_eq_ok.1 hrun
      refine evict_saves hE hne hv hev ?_
      rw [getLruLoop] at hrun
      obtain ⟨⟨r, l₁⟩, -, hrun⟩ := bind_eq_ok.1 hrun
      dsimp only at hrun
      split at hrun
      · obtain ⟨s₂, -, hrun⟩ := bind_eq_ok.1 hrun
        cases hrun
      · injection hrun with hrun
        injection hrun
    · intro hz
      have hvac : pd.pte? e.2 = none ∨ pd.pte? e.2 = some Pte.zero := by
        rw [PageDir.pte] at hz
        cases hpte : pd.pte? e.2 with
        | none => exact .inl rfl
        | some pte =>
          rw [hpte] at hz
          exact .inr (congrArg some hz)
      obtain ⟨l₁, hl₁, hev⟩ := evict_delete hE hne
      have hdrop : evict s = .ok { s with lru := l₁ } := by
        rw [hev, hq]
        simp only [readVaddr, hpd, deref_some, ok_bind]
        rcases hvac with hpte | hpte <;> simp [hpte]
      obtain ⟨l, hrun, hl⟩ := getLru_evict pid vaddr hE hfull hdrop hl₁ (by omega)
      exact ⟨l, hrun, hl.abs_eq⟩
  · intro w _
    simp [pteTest]

/-- A page that no one has mapped. -/
theorem absent_dropped_iff_zero : ∃ l l', l.abs = pages 1000 ∧
    getLru 1 (1000 * pgSize) (crowded l Pte.zero) = .ok { crowded l Pte.zero with lru := l' } := by
  obtain ⟨l, hl⟩ := exists_queue (pages 1000) (by rw [length_pages])
  have habs := hl.abs_eq
  obtain ⟨R, hrep, -, hlk⟩ := hl
  have hpte : (smallDir.setPte 0 Pte.zero).pte 0 = Pte.zero := by rw [PageDir.pte, crowded_entry]; rfl
  have hdir : ((crowded l Pte.zero).ptable 0).pgdir = some (smallDir.setPte 0 Pte.zero) := rfl
  obtain ⟨hiff, -⟩ := absent_dropped_iff (s := crowded l Pte.zero) ⟨R, hrep⟩ hlk (habs.trans (pages_succ 999))
    (by show l.abs.length = _; rw [habs, length_pages]) (crowded_owner l _) hdir
    (by rw [hpte]; decide) (by rw [hpte]; rfl) 1 (1000 * pgSize)
  obtain ⟨l', hrun, -⟩ := hiff.2 (by rw [hpte]; rfl)
  exact ⟨l, l', habs, hrun⟩

/-- A heap page as `growproc` leaves it, not present, with `PTE_W` and `PTE_U`: frame 0 is saved for it. -/
theorem absent_saved : ∃ l s', l.abs = pages 1000 ∧ (smallDir.pte 0).present = false ∧
    getLru 1 (1000 * pgSize) (crowded l ⟨⟨false, true, true⟩, 0⟩) = .ok s' ∧
    ((crowded l ⟨⟨false, true, true⟩, 0⟩).ptable 0).swapList = none ∧ ∃ f, (s'.ptable 0).swapList = some f := by
  obtain ⟨l, hl⟩ := exists_queue (pages 1000) (by rw [length_pages])
  have habs := hl.abs_eq
  rw [pages_succ] at hl
  have hv : Victim (crowded l ⟨⟨false, true, true⟩, 0⟩) (1, 0) 0 (smallDir.setPte 0 ⟨⟨false, true, true⟩, 0⟩) ⟨⟨false, true, true⟩, 0⟩ :=
    ⟨crowded_owner l _, rfl, crowded_entry _, by decide⟩
  have hroom : freeSlot? (crowded l ⟨⟨false, true, true⟩, 0⟩).swap ≠ none := by
    rw [Ne, freeSlot?_none]
    intro hall
    exact hall 0 rfl
  obtain ⟨f, hf⟩ := Option.ne_none_iff_exists'.1 hroom
  obtain ⟨l₁, hevict, hl₁⟩ := evict_victim (s := crowded l ⟨⟨false, true, true⟩, 0⟩) hl (by simp) hv (by decide) (L := []) rfl rfl hf
  have hlt : (((List.range 999).map fun i => ((1 : Int), (i + 1) * pgSize)).erase (1, 0)).length < maxFrameLru := by
    refine (List.length_erase_le ..).trans_lt ?_
    simp
  obtain ⟨l₂, hrun, -⟩ := getLru_evict 1 (1000 * pgSize) (s := crowded l ⟨⟨false, true, true⟩, 0⟩) hl (by simp) hevict hl₁ hlt
  refine ⟨l, _, habs, by decide, hrun, rfl, f, ?_⟩
  show (((crowded l ⟨⟨false, true, true⟩, 0⟩).evicted (1, 0) 0 [] f _ _ l₂).ptable 0).swapList = _
  rw [evicted_self]
  rfl

end DemandPaging
