/-
`get_lru` when the ring is full. The oldest entry leaves the ring: its page goes to a free slot of its
process, or, when the process or the page is no longer there, nothing else happens; and then the new
entry goes in.
-/
import DemandPaging.Paging.Evict
import DemandPaging.Paging.Swapping

namespace DemandPaging

/-- The page of an LRU entry is there to be saved. -/
structure Victim (s : Kernel) (e : Int × Nat) (q : ProcIdx) (pd : PageDir) (pte : Pte) : Prop where
  owner : getProc e.1 s = some q
  pgdir : (s.ptable q).pgdir = some pd
  entry : pd.pte? e.2 = some pte
  nonzero : pte ≠ Pte.zero

/-- The page of the entry has gone to slot `f`, behind the slots `L` of its process. -/
def Kernel.evicted (s : Kernel) (e : Int × Nat) (q : ProcIdx) (L : List SlotIdx) (f : SlotIdx) (pd : PageDir) (pte : Pte)
    (l : Lru) : Kernel :=
  { (s.setProc q { s.ptable q with writeBuffer := s.phys.mem pte.frame }).swappedOut .generic q e.2 L f pd pte with lru := l }

theorem evicted_self {s : Kernel} {e : Int × Nat} {q : ProcIdx} {L : List SlotIdx} {f : SlotIdx} {pd : PageDir} {pte : Pte}
    {l : Lru} : (s.evicted e q L f pd pte l).ptable q = { s.ptable q with
      writeBuffer := s.phys.mem pte.frame
      swapList := (s.ptable q).swapList.or (some f)
      pgdir := some (pd.setPte e.2 { pte with present := false }) } := by
  simp [Kernel.evicted, Kernel.swappedOut]

theorem evicted_other {s : Kernel} {e : Int × Nat} {q r : ProcIdx} {L : List SlotIdx} {f : SlotIdx} {pd : PageDir}
    {pte : Pte} {l : Lru} (hr : r ≠ q) : (s.evicted e q L f pd pte l).ptable r = s.ptable r := by
  simp [Kernel.evicted, Kernel.swappedOut, Kernel.setProc, hr]

/-- The owner of the entry is gone, or has no such page. -/
def Vacant (s : Kernel) (e : Int × Nat) : Prop :=
  getProc e.1 s = none ∨ ∃ q pd, getProc e.1 s = some q ∧ (s.ptable q).pgdir = some pd ∧
    (pd.pte? e.2 = none ∨ pd.pte? e.2 = some Pte.zero)

theorem getProc_pid {s : Kernel} {pid : Int} {q : ProcIdx} (h : getProc pid s = some q) : (s.ptable q).pid = pid := by
  unfold getProc at h
  simpa using Fin.eq_true_of_find?_eq_some h

section Evict

variable {s : Kernel} {e : Int × Nat} {E : List (Int × Nat)} {q : ProcIdx} {pd : PageDir} {pte : Pte}

/-- `lru_free_frame` in a ring of at least two entries. -/
theorem Queue.freeFrame_erase {l : Lru} {pid : Int} {vaddr : Nat} (h : Queue l E) (hlen : 2 ≤ E.length) :
    ∃ l', lruFreeFrame pid vaddr l = .ok l' ∧ Queue l' (E.erase (pid, vaddr)) := by
  by_cases hm : (pid, vaddr) ∈ E
  · obtain ⟨A, B, rfl, hA⟩ := List.eq_append_cons_of_mem hm
    rw [List.erase_append_right _ hA, List.erase_cons_head]
    refine h.freeFrame_found hA fun hnil => ?_
    obtain ⟨rfl, rfl⟩ := List.append_eq_nil_iff.1 hnil
    simp at hlen
  · exact ⟨l, h.freeFrame_missing hm, by rw [List.erase_of_not_mem hm]; exact h⟩

/-- `lru_free` in a ring of at least two entries: the entries of others stay. -/
theorem Queue.free_others {l : Lru} (pid : Int) (h : Queue l E) (hlen : 2 ≤ E.length) :
    ∃ l' E', lruFree pid l = .ok l' ∧ Queue l' E' ∧ E'.Sublist E ∧ ∀ x, x.1 ≠ pid → E.count x ≤ E'.count x := by
  obtain ⟨L, hL, rfl, hlk⟩ := h
  rw [List.length_map] at hlen
  obtain ⟨l', L', hfree, hL', hlk', hent, hres⟩ := lruFree_rep pid hL hlk (by rintro x rfl; simp at hlen)
  have hstay : ∀ x : Int × Nat, x.1 ≠ pid → (L.map l.entry).count x = ((L.filter fun i => (l.entry i).1 ≠ pid).map l.entry).count x := by
    intro x hx
    rw [show (L.filter fun i => (l.entry i).1 ≠ pid).map l.entry = (L.map l.entry).filter fun y => y.1 ≠ pid by
      rw [List.filter_map]; rfl, List.count_filter (by simpa using hx)]
  refine ⟨l', L'.map l'.entry, hfree, ⟨L', hL', rfl, hlk'⟩, ?_, fun x hx => ?_⟩
  · rw [hent]
    rcases hres with rfl | ⟨-, -, x, hx, rfl⟩
    · exact List.filter_sublist.map _
    · exact (List.singleton_sublist.2 hx).map _
  · rw [hent, hstay x hx]
    rcases hres with rfl | ⟨hnil, -⟩
    · exact le_rfl
    · rw [hnil]
      exact Nat.zero_le _

/-- The first steps of an eviction take the oldest entry off the ring. -/
theorem evict_delete (hE : Queue s.lru (e :: E)) (hne : E ≠ []) : ∃ l, Queue l E ∧ evict s =
    match getProc e.1 s with
    | none => do swapFree e.1 { s with lru := ← lruFree e.1 l }
    | some pr => do
      let (r, s) ← readVaddr pr e.2 { s with lru := l }
      if r < 0 then return s
      else
        let (r, s) ← swapOutFunc .generic pr e.2 s
        if r < 0 then .error (.panic "Swap Space is Full") else return s := by
  obtain ⟨i, l₁, l₂, hdel, hpid, hva, hrel, hq⟩ := hE.delete hne
  refine ⟨l₂, hq, ?_⟩
  unfold evict
  simp only [hdel, hpid, hva, hrel, ok_bind]
  generalize hg : getProc e.1 { s with lru := l₂ } = pr
  obtain rfl : pr = getProc e.1 s := hg.symm.trans (getProc_congr s { s with lru := l₂ } (fun _ => rfl) e.1)
  cases getProc e.1 s <;> rfl

/-- The page of the oldest entry goes to the first free slot. -/
theorem evict_victim (hE : Queue s.lru (e :: E)) (hlen : 2 ≤ E.length) (hv : Victim s e q pd pte) (hk : e.2 ≤ kernBase)
    {L : List SlotIdx} {f : SlotIdx} (hL : SwapList s.swap (s.ptable q).swapList L) (hlk : s.swap.lk = false)
    (hf : freeSlot? s.swap = some f) :
    ∃ l, evict s = .ok (s.evicted e q L f pd pte l) ∧ Queue l (E.erase e) := by
  obtain ⟨l₁, hl₁, hev⟩ := evict_delete hE (by rintro rfl; simp at hlen)
  obtain ⟨l₂, hfree, hl₂⟩ : ∃ l₂, lruFreeFrame (s.ptable q).pid e.2 l₁ = .ok l₂ ∧ Queue l₂ (E.erase e) := by
    rw [getProc_pid hv.owner]
    exact hl₁.freeFrame_erase hlen
  refine ⟨l₂, ?_, hl₂⟩
  have hread : readVaddr q e.2 { s with lru := l₁ } =
      .ok (0, { s.setProc q { s.ptable q with writeBuffer := s.phys.mem pte.frame } with lru := l₁ }) := by
    unfold readVaddr
    simp only [hv.pgdir, deref_some, ok_bind, hv.entry, if_neg hv.nonzero]
    rfl
  have hout : swapOutWith .generic q e.2 { s.setProc q { s.ptable q with writeBuffer := s.phys.mem pte.frame } with lru := l₁ } =
      .ok (1, s.evicted e q L f pd pte l₂) :=
    swapOutWith_free (by simpa using hL) hlk hf (by simpa using hv.pgdir) hv.entry (by simpa using hfree) hk
  rw [hev, hv.owner]
  simp only [hread, ok_bind, swapOutFunc_eq, hout]
  rfl

/-- An entry without a page leaves the ring, with the other entries of a process that is gone. -/
theorem evict_vacant (hE : Queue s.lru (e :: E)) (hlen : 2 ≤ E.length) (hv : Vacant s e) :
    ∃ l E', evict s = .ok { s with lru := l } ∧ Queue l E' ∧ E'.Sublist E := by
  obtain ⟨l₁, hl₁, hev⟩ := evict_delete hE (by rintro rfl; simp at hlen)
  rcases hv with hnone | ⟨q, pd, hq, hpd, hpte⟩
  · obtain ⟨l₂, E', hfree, hl₂, hsub, -⟩ := hl₁.free_others e.1 hlen
    refine ⟨l₂, E', ?_, hl₂, hsub⟩
    rw [hev, hnone]
    simp only [hfree, ok_bind]
    unfold swapFree
    rw [getProc_congr s { s with lru := l₂ } (fun _ => rfl), hnone]
  · refine ⟨l₁, E, ?_, hl₁, List.Sublist.refl E⟩
    rw [hev, hq]
    simp only [readVaddr, hpd, deref_some, ok_bind]
    rcases hpte with hpte | hpte
    · simp [hpte]
    · simp [hpte]

/-- The ways an eviction can go: the owner of the oldest entry is gone, it has no such page, or the page
goes to a slot. -/
theorem evict_cases {s' : Kernel} (hE : Queue s.lru (e :: E)) (hlen : 2 ≤ E.length) (hk : e.2 ≤ kernBase) (h : evict s = .ok s') :
    (getProc e.1 s = none ∧ ∃ l E', s' = { s with lru := l } ∧ Queue l E' ∧ E'.Sublist E ∧
      ∀ x, x.1 ≠ e.1 → E.count x ≤ E'.count x) ∨
    ∃ q pd, getProc e.1 s = some q ∧ (s.ptable q).pgdir = some pd ∧ ((pd.pte e.2 = Pte.zero ∧ ∃ l, s' = { s with lru := l } ∧ Queue l E) ∨
      ∃ pte f list sw disk pg l, pd.pte? e.2 = some pte ∧ linkSlot .generic e.2 (s.ptable q).swapList s.swap = .ok (some f, list, sw) ∧
        Queue l (E.erase e) ∧ s' = { s with
          swap := sw
          lru := l
          disk := disk
          ptable := Function.update s.ptable q { s.ptable q with
            writeBuffer := pg, swapList := list, pgdir := some (pd.setPte e.2 { pte with present := false }) } }) := by
  obtain ⟨l₁, hl₁, hev⟩ := evict_delete hE (by rintro rfl; simp at hlen)
  rw [hev] at h
  cases hq : getProc e.1 s with
  | none =>
    obtain ⟨l₂, E', hfree, hl₂, hsub, hstay⟩ := hl₁.free_others e.1 hlen
    rw [hq] at h
    simp only [hfree, ok_bind] at h
    unfold swapFree at h
    rw [getProc_congr s { s with lru := l₂ } (fun _ => rfl), hq] at h
    cases h
    exact .inl ⟨rfl, l₂, E', rfl, hl₂, hsub, hstay⟩
  | some q =>
    rw [hq] at h
    dsimp only at h
    obtain ⟨⟨r, s₁⟩, hread, h⟩ := bind_eq_ok.1 h
    unfold readVaddr at hread
    obtain ⟨pd, hpd, hread⟩ := bind_eq_ok.1 hread
    rw [deref_eq_ok] at hpd
    refine .inr ⟨q, pd, rfl, hpd, ?_⟩
    cases hpte : pd.pte? e.2 with
    | none =>
      rw [hpte] at hread
      cases hread
      cases h
      exact .inl ⟨by rw [PageDir.pte, hpte]; rfl, l₁, rfl, hl₁⟩
    | some pte =>
      rw [hpte] at hread
      dsimp only at hread
      by_cases hz : pte = Pte.zero
      · rw [if_pos hz] at hread
        cases hread
        cases h
        exact .inl ⟨by rw [PageDir.pte, hpte]; exact hz, l₁, rfl, hl₁⟩
      · rw [if_neg hz] at hread
        cases hread
        dsimp only at h
        rw [if_neg (by decide)] at h
        obtain ⟨⟨r, s₂⟩, hout, h⟩ := bind_eq_ok.1 h
        dsimp only at h
        split at h
        · cases h
        next hr =>
        cases h
        rw [swapOutFunc_eq] at hout
        obtain ⟨f, list, sw, pd', pte', l, hlink, hpd', hpte', hl, rfl⟩ := swapOutWith_user hout (by omega) hk
        simp only [Kernel.setProc_same] at hlink hpd' hl
        obtain rfl : pd' = pd := Option.some.inj (hpd'.symm.trans hpd)
        obtain rfl : pte' = pte := Option.some.inj (hpte'.symm.trans hpte)
        rw [getProc_pid hq] at hl
        obtain ⟨l', hl', hq'⟩ : ∃ l', lruFreeFrame e.1 e.2 l₁ = .ok l' ∧ Queue l' (E.erase e) := hl₁.freeFrame_erase hlen
        obtain rfl := Except.ok.inj (hl'.symm.trans hl)
        refine .inr ⟨pte', f, list, sw, writeswap (s.phys.mem pte'.frame) (swap1Start + f * 8) s.disk, s.phys.mem pte'.frame, l',
          rfl, hlink, hq', ?_⟩
        simp only [Kernel.setProc, Function.update_self, Function.update_idem]
        rfl

/-- Without a free slot the page cannot be saved. -/
theorem evict_stuck (hE : Queue s.lru (e :: E)) (hne : E ≠ []) (hv : Victim s e q pd pte) {L : List SlotIdx}
    (hL : SwapList s.swap (s.ptable q).swapList L) (hlk : s.swap.lk = false) (hf : freeSlot? s.swap = none) :
    evict s = .error (.panic "Swap Space is Full") := by
  obtain ⟨l₁, -, hev⟩ := evict_delete hE hne
  have hlink : linkSlot .generic e.2 (s.ptable q).swapList s.swap = .ok (none, (s.ptable q).swapList, { s.swap with lk := true }) :=
    linkSlot_full hL hlk hf
  rw [hev, hv.owner]
  simp only [readVaddr, hv.pgdir, deref_some, ok_bind, hv.entry, if_neg hv.nonzero, pure_ok, swapOutFunc_eq, swapOutWith,
    Kernel.setProc_same, Kernel.setProc_swap, hlink]
  rfl

/-! ## The insertion -/

variable (pid : Int) (vaddr : Nat)

theorem getLru_insert (hE : Queue s.lru E) (hlen : E.length < maxFrameLru) :
    ∃ l, getLru pid vaddr s = .ok { s with lru := l } ∧ Queue l (E ++ [(pid, vaddr)]) := by
  obtain ⟨l, hins, hl⟩ := hE.insert hlen pid vaddr
  refine ⟨l, ?_, hl⟩
  rw [getLru, getLruLoop, hins]
  rfl

/-- A full ring: the eviction, and the insertion into what it leaves. -/
theorem getLru_evict {s₁ : Kernel} {E₁ : List (Int × Nat)} (hE : Queue s.lru E) (hlen : E.length = maxFrameLru)
    (hev : evict s = .ok s₁) (hE₁ : Queue s₁.lru E₁) (hlt : E₁.length < maxFrameLru) :
    ∃ l, getLru pid vaddr s = .ok { s₁ with lru := l } ∧ Queue l (E₁ ++ [(pid, vaddr)]) := by
  obtain ⟨l, hins, hl⟩ := hE₁.insert hlt pid vaddr
  refine ⟨l, ?_, hl⟩
  rw [getLru, getLruLoop, hE.insert_full hlen]
  simp only [ok_bind]
  rw [if_pos (by decide), hev, ok_bind, getLruLoop, hins]
  rfl

theorem getLru_stuck {x : Stuck} (hE : Queue s.lru E) (hlen : E.length = maxFrameLru) (hev : evict s = .error x) :
    getLru pid vaddr s = .error x := by
  rw [getLru, getLruLoop, hE.insert_full hlen]
  simp only [ok_bind]
  rw [if_pos (by decide), hev]
  rfl

end Evict

end DemandPaging
