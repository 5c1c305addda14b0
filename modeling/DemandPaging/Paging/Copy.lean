/-
`fork` and the copy of the address space: the ways a call can go, and when it succeeds. With a free
process entry, room in the ring and enough free pages, `copyuvm` goes through every page and the
child is made.
-/
import DemandPaging.Paging.Evict

namespace DemandPaging

section Fork

variable {s s' : Kernel} {p : ProcIdx}

/-! ## What a fork does -/

theorem allocproc_none {s₁ : Kernel} (h : allocproc s = (none, s₁)) :
    s₁ = s ∨ ∃ np, (s.ptable np).state = .unused ∧ s₁ = { s with
      ptable := Function.update s.ptable np { s.ptable np with state := .unused, pid := s.nextpid, kstack := none }
      nextpid := s.nextpid + 1 } := by
  unfold allocproc at h
  split at h
  · cases h; exact Or.inl rfl
  · next np hnp =>
    have hun : (s.ptable np).state = .unused := by simpa using Fin.eq_true_of_find?_eq_some hnp
    dsimp only at h
    split at h
    · cases h
      refine Or.inr ⟨np, hun, ?_⟩
      simp [Kernel.setProc]
    · cases h

theorem allocproc_some {s₁ : Kernel} {np : ProcIdx} (h : allocproc s = (some np, s₁)) :
    Fin.find? (fun i => (s.ptable i).state = .unused) = some np ∧ ∃ f fl, s.phys.freelist = f :: fl ∧
      s₁ = { s with
        ptable := Function.update s.ptable np { s.ptable np with state := .embryo, pid := s.nextpid, kstack := some f }
        nextpid := s.nextpid + 1
        phys := { s.phys with freelist := fl } } := by
  unfold allocproc at h
  split at h
  · cases h
  · next np' hnp =>
    dsimp only at h
    unfold kallocPage at h
    split at h
    · cases h
    · next f m hk =>
      cases h
      split at hk
      · cases hk
      · next fl hfl =>
        cases hk
        exact ⟨hnp, f, fl, hfl, by simp [Kernel.setProc]⟩

theorem forkCommit_eq {np : ProcIdx} {d : PageDir} (hne : np ≠ p) (h : forkCommit p np d s = .ok s') :
    ∃ sw, swapFork (s.ptable p).swapList s.swap = .ok sw ∧ s' = { s with
      ptable := Function.update (Function.update s.ptable p { s.ptable p with forked := true }) np { s.ptable np with
        pgdir := some d, sz := (s.ptable p).sz, state := .runnable, parent := some p, name := (s.ptable p).name.take 15
        swapList := (s.ptable p).swapList, forked := false, eip := (s.ptable p).eip, esp := (s.ptable p).esp }
      swap := sw } := by
  unfold forkCommit at h
  obtain ⟨sw, hsw, h⟩ := bind_eq_ok.1 h
  simp only [Kernel.setProc_ptable, Kernel.setProc_swap, hne, hne.symm, if_true, if_false] at hsw
  cases h
  refine ⟨sw, hsw, ?_⟩
  simp only [Kernel.setProc, Function.update_self, Function.update_of_ne hne.symm, Function.update_comm hne,
    Function.update_idem]

/-- The ways `fork` can go: no entry or kernel stack, no memory for the copy, or a child. -/
theorem fork_ok {r : Int} (h : fork p s = .ok (r, s')) :
    (r = -1 ∧ allocproc s = (none, s')) ∨
    ∃ np s₁ s₂, allocproc s = (some np, s₁) ∧
      ((r = -1 ∧ copyuvm p np s₁ = .ok (none, s₂) ∧ ∃ k m, (s₂.ptable np).kstack = some k ∧ kfree k s₂.phys = .ok m ∧
          s' = { s₂.setProc np { s₂.ptable np with pgdir := none, kstack := none, state := .unused } with phys := m }) ∨
        ∃ d, copyuvm p np s₁ = .ok (some d, s₂) ∧ forkCommit p np d s₂ = .ok s' ∧ r = (s'.ptable np).pid) := by
  unfold fork at h
  cases hal : allocproc s with
  | mk np s₁ =>
    rw [hal] at h
    cases np with
    | none => cases h; exact Or.inl ⟨rfl, rfl⟩
    | some np =>
      obtain ⟨⟨d, s₂⟩, hcopy, h⟩ := bind_eq_ok.1 h
      refine Or.inr ⟨np, s₁, s₂, rfl, ?_⟩
      cases d with
      | none =>
        obtain ⟨k, hk, h⟩ := bind_eq_ok.1 h
        obtain ⟨m, hm, h⟩ := bind_eq_ok.1 h
        cases h
        exact Or.inl ⟨rfl, hcopy, k, m, deref_eq_ok.1 hk, hm, rfl⟩
      | some d =>
        obtain ⟨s₃, hcommit, h⟩ := bind_eq_ok.1 h
        cases h
        exact Or.inr ⟨d, hcopy, hcommit, rfl⟩

end Fork

/-! ## Enough of everything -/

section Progress

variable {s : Kernel} {p : ProcIdx} {E : List (Int × Nat)} {pid : Int}

/-- While the ring has a free frame an entry is appended. -/
theorem getLru_append (h : Queue s.lru E) (hlen : E.length < maxFrameLru) (pid : Int) (vaddr : Nat) :
    ∃ l, getLru pid vaddr s = .ok { s with lru := l } ∧ Queue l (E ++ [(pid, vaddr)]) := by
  obtain ⟨l, hins, hq⟩ := h.insert hlen pid vaddr
  refine ⟨l, ?_, hq⟩
  rw [getLru, getLruLoop, hins]
  rfl

theorem kalloc_append (h : Queue s.lru E) (hlen : E.length < maxFrameLru) {f : Nat} {fl : List Nat}
    (hfl : s.phys.freelist = f :: fl) (pid lru : Int) :
    ∃ l E', kalloc pid lru s = .ok (some f, { s with lru := l, phys := { s.phys with freelist := fl } }) ∧
      Queue l (E ++ E') ∧ E'.length ≤ 1 ∧ ∀ e ∈ E', e.1 = pid := by
  unfold kalloc kallocPage
  rw [hfl]
  by_cases hc : pid ≠ -1 ∧ lru ≠ -1
  · obtain ⟨l, hget, hq⟩ := getLru_append (s := { s with phys := { s.phys with freelist := fl } }) h hlen pid lru.toNat
    refine ⟨l, [(pid, lru.toNat)], ?_, hq, le_rfl, by simp⟩
    simp only [if_pos hc, hget]
    rfl
  · refine ⟨s.lru, [], ?_, by simpa using h, by simp, by simp⟩
    simp only [if_neg hc]
    rfl

/-- `copyuvm` gets through the pages of the parent when every one has an entry, the ring has room for
them, and there are two free pages for each. What it appends to the ring belongs to the child. -/
theorem copyuvmLoop_progress (old new : ProcIdx) {pd : PageDir} : ∀ (n i : Nat) (mem : Option Nat) (d : PageDir) {s : Kernel}
    {E : List (Int × Nat)}, Queue s.lru E → E.length + n ≤ maxFrameLru → (s.ptable old).pgdir = some pd →
    (∀ k < n, pd.pte? (i + k * pgSize) ≠ none) → i % pgSize = 0 → i + n * pgSize ≤ wordSize →
    2 * n ≤ s.phys.freelist.length →
    ∃ d' s' E', copyuvmLoop old new n i mem d s = .ok (true, d', s') ∧ Queue s'.lru (E ++ E') ∧ E'.length ≤ n ∧
      (∀ e ∈ E', e.1 = (s.ptable new).pid) ∧ s.phys.freelist.length ≤ s'.phys.freelist.length + 2 * n
  | 0, _, _, d, s, E, hE, _, _, _, _, _, _ => ⟨d, s, [], rfl, by simpa using hE, le_rfl, by simp, by omega⟩
  | n + 1, i, mem, d, s, E, hE, hlen, hpd, hpte, hi, hw, hfree => by
    have hi' : (i + pgSize) % pgSize = 0 := by simp only [pgSize] at *; omega
    have hw' : i + pgSize + n * pgSize ≤ wordSize := by simp only [pgSize] at *; omega
    have hlt : i < wordSize := by simp only [pgSize, wordSize] at *; omega
    have hpte' : ∀ k < n, pd.pte? (i + pgSize + k * pgSize) ≠ none := by
      intro k hk
      have := hpte (k + 1) (by omega)
      rwa [show i + (k + 1) * pgSize = i + pgSize + k * pgSize by ring] at this
    cases hp : pd.pte? i with
    | none => exact absurd hp (by simpa using hpte 0 (by omega))
    | some pte =>
      rw [copyuvmLoop, hpd]
      simp only [deref_some, ok_bind, hp]
      by_cases hpres : pte.present = false
      · -- not present: an entry only
        rw [if_pos hpres]
        rcases mappages_page_cases (mem.elim kernBase (· * pgSize)) ⟨false, true, true⟩ false d s.phys hi hlt with
          ⟨hnil, -⟩ | ⟨d₁, m₁, hmap, hmapped⟩
        · simp [hnil] at hfree
        · have hlen₁ := hmapped.length
          rw [hmap]
          obtain ⟨d', s', E', hloop, hq, hlenE, hpid, hlen'⟩ := copyuvmLoop_progress old new n (i + pgSize) mem d₁
            (s := { s with phys := m₁ }) hE (by omega) hpd hpte' hi' hw' (by simp only; omega)
          exact ⟨d', s', E', hloop, hq, by omega, hpid, by simp only at hlen'; omega⟩
      · -- present: a page, and an entry
        rw [if_neg hpres]
        cases hfl : s.phys.freelist with
        | nil => simp [hfl] at hfree
        | cons f fl =>
          generalize (if (s.ptable old).cdbSize < i then (i : Int) else -1) = lru
          obtain ⟨l, E₁, hk, hq, hlen₁, hpid₁⟩ := kalloc_append hE (by omega) hfl (s.ptable new).pid lru
          rw [hk]
          simp only [ok_bind, hpd, deref_some, hp]
          rw [hfl, List.length_cons] at hfree
          rcases mappages_page_cases (f * pgSize) pte.toFlags true d
            ({ s.phys with freelist := fl }.setPage f (s.phys.mem pte.frame)) hi hlt with ⟨hnil, -⟩ | ⟨d₁, m₁, hmap, hmapped⟩
          · have hnil : fl = [] := hnil
            simp [hnil] at hfree
            omega
          · have hlenm : fl.length ≤ m₁.freelist.length + 1 := hmapped.length
            rw [hmap]
            obtain ⟨d', s', E', hloop, hq', hlenE, hpid, hlen'⟩ := copyuvmLoop_progress old new n (i + pgSize) (some f) d₁
              (s := { s with lru := l, phys := m₁ }) hq (by rw [List.length_append]; omega) hpd hpte' hi' hw'
              (by simp only; omega)
            refine ⟨d', s', E₁ ++ E', hloop, by rw [← List.append_assoc]; exact hq', ?_, ?_, ?_⟩
            · rw [List.length_append]; omega
            · intro e he
              rcases List.mem_append.1 he with he | he
              · exact hpid₁ e he
              · exact hpid e he
            · simp only [List.length_cons] at hlen' ⊢; omega

/-- The number of pages `copyuvm` goes over. -/
def userPages (pr : Proc) : Nat := (pr.sz + pgSize - 1) / pgSize

theorem forkCommit_progress {np : ProcIdx} {L : List SlotIdx} (hne : np ≠ p) (hL : SwapList s.swap (s.ptable p).swapList L)
    (d : PageDir) : ∃ s', forkCommit p np d s = .ok s' := by
  unfold forkCommit
  simp only [Kernel.setProc_ptable, Kernel.setProc_swap, hne, hne.symm, if_true, if_false]
  rw [swapFork_eq hL]
  exact ⟨_, rfl⟩

/-- `fork` makes a child when the process table has a free entry, every page of the parent has an
entry of its own, the ring has room for them, and there are pages enough. -/
theorem fork_progress {np : ProcIdx} {pd : PageDir} {L : List SlotIdx}
    (hfind : Fin.find? (fun i => (s.ptable i).state = .unused) = some np) (hne : np ≠ p)
    (hpd : (s.ptable p).pgdir = some pd) (hsz : (s.ptable p).sz ≤ kernBase) (hpte : ∀ a < (s.ptable p).sz, pd.pte? a ≠ none)
    (hE : Queue s.lru E) (hroom : E.length + userPages (s.ptable p) ≤ maxFrameLru)
    (hfree : 66 + 2 * userPages (s.ptable p) ≤ s.phys.freelist.length)
    (hL : SwapList s.swap (s.ptable p).swapList L) :
    ∃ s' E', fork p s = .ok (s.nextpid, s') ∧ Queue s'.lru (E ++ E') ∧ E'.length ≤ userPages (s.ptable p) ∧
      (∀ e ∈ E', e.1 = s.nextpid) ∧ s.phys.freelist.length ≤ s'.phys.freelist.length + 66 + 2 * userPages (s.ptable p) := by
  obtain ⟨s₁, hal⟩ : ∃ s₁, allocproc s = (some np, s₁) := by
    unfold allocproc kallocPage
    rw [hfind]
    cases hfl : s.phys.freelist with
    | nil => simp [hfl] at hfree
    | cons f fl => simp [hfl]
  obtain ⟨-, f, fl, hfl, hs₁⟩ := allocproc_some hal
  rw [hfl, List.length_cons] at hfree
  have hp₁ : s₁.ptable p = s.ptable p := by rw [hs₁]; simp [hne.symm]
  have hpid₁ : (s₁.ptable np).pid = s.nextpid := by rw [hs₁]; simp
  have hsw : s₁.swap = s.swap := by rw [hs₁]
  have hlru : s₁.lru = s.lru := by rw [hs₁]
  have hlen : s₁.phys.freelist = fl := by rw [hs₁]
  rcases setupkvm_cases (m := s₁.phys) with ⟨hlt, -⟩ | ⟨d, m, -, hset, hdir⟩
  · rw [hlen] at hlt
    omega
  have hpages : ∀ k < userPages (s.ptable p), pd.pte? (0 + k * pgSize) ≠ none := by
    intro k hk
    apply hpte
    simp only [userPages, pgSize] at hk ⊢
    omega
  have hlen₁ : m.freelist.length + 65 = fl.length := by rw [← hlen]; exact hdir.length
  obtain ⟨d', s₂, E', hloop, hq, hlenE, hpidE, hlen₂⟩ := copyuvmLoop_progress p np _ 0 none d (s := { s₁ with phys := m })
    (by rw [hlru]; exact hE) hroom (by rw [hp₁]; exact hpd) hpages (by decide)
    (by simp only [userPages, pgSize, wordSize, kernBase] at *; omega) (by simp only; omega)
  have hcopy : copyuvm p np s₁ = .ok (some d', s₂) := by
    unfold copyuvm
    rw [hset]
    simp only [ok_bind, hp₁]
    rw [show ((s.ptable p).sz + pgSize - 1) / pgSize = userPages (s.ptable p) from rfl, hloop]
    rfl
  obtain ⟨l, m', rfl⟩ := copyuvmLoop_room (s := { s₁ with phys := m })
    (by have := hE.freeEntries_eq; rw [hlru]; omega) hloop
  obtain ⟨s₃, hcommit⟩ := forkCommit_progress (s := { s₁ with lru := l, phys := m' }) hne
    (by simp only [hsw, hp₁]; exact hL) d'
  obtain ⟨sw, -, hs₃⟩ := forkCommit_eq hne hcommit
  have hpid : (s₃.ptable np).pid = s.nextpid := by rw [hs₃]; simp [hpid₁]
  have hfork : fork p s = .ok (s.nextpid, s₃) := by
    unfold fork
    rw [hal]
    simp only [hcopy, ok_bind]
    rw [hcommit, ok_bind, hpid]
    rfl
  refine ⟨s₃, E', hfork, by rw [hs₃]; exact hq, hlenE, fun e he => (hpidE e he).trans hpid₁, ?_⟩
  rw [hs₃, hfl]
  simp only [List.length_cons] at hlen₂ ⊢
  omega

end Progress

/-! ## The state after a fork -/

/-- Parent and child after a fork that evicted nothing; `L` is the list they share now. -/
structure Forked (p np : ProcIdx) (L : List SlotIdx) (s s' : Kernel) : Prop where
  parent : s'.ptable p = { s.ptable p with forked := true }
  child : ∃ d f, s'.ptable np = { s.ptable np with
    pgdir := some d, sz := (s.ptable p).sz, kstack := some f, state := .runnable, pid := s.nextpid, parent := some p,
    name := (s.ptable p).name.take 15, swapList := (s.ptable p).swapList, forked := false,
    eip := (s.ptable p).eip, esp := (s.ptable p).esp }
  other : ∀ q, q ≠ p → q ≠ np → s'.ptable q = s.ptable q
  swap : s'.swap = s.swap.counted L
  disk : s'.disk = s.disk
  fs : s'.fs = s.fs
  nextpid : s'.nextpid = s.nextpid + 1

theorem fork_forked {s s' : Kernel} {p : ProcIdx} {r : Int} {L : List SlotIdx} (h : fork p s = .ok (r, s')) (hr : r ≠ -1)
    (hp : (s.ptable p).state ≠ .unused) (hroom : userPages (s.ptable p) ≤ freeEntries s.lru)
    (hL : SwapList s.swap (s.ptable p).swapList L) :
    ∃ np, Fin.find? (fun i => (s.ptable i).state = .unused) = some np ∧ Forked p np L s s' := by
  rcases fork_ok h with ⟨hr', -⟩ | ⟨np, s₁, s₂, hal, ⟨hr', -⟩ | ⟨d, hcopy, hcommit, -⟩⟩
  · exact absurd hr' hr
  · exact absurd hr' hr
  obtain ⟨hfind, f, fl, -, hs₁⟩ := allocproc_some hal
  have hne : np ≠ p := by
    rintro rfl
    exact hp (by simpa using Fin.eq_true_of_find?_eq_some hfind)
  have hp₁ : s₁.ptable p = s.ptable p := by rw [hs₁]; simp [hne.symm]
  have hs₂ : ∃ l m, s₂ = { s₁ with lru := l, phys := m } := by
    unfold copyuvm at hcopy
    obtain ⟨⟨d₀, m⟩, -, hcopy⟩ := bind_eq_ok.1 hcopy
    cases d₀ with
    | none => cases hcopy
    | some d₀ =>
      obtain ⟨⟨done, d₁, s₃⟩, hloop, hcopy⟩ := bind_eq_ok.1 hcopy
      obtain ⟨l, m', rfl⟩ := copyuvmLoop_room (s := { s₁ with phys := m })
        (by rw [hp₁, show s₁.lru = s.lru by rw [hs₁]]; exact hroom) hloop
      dsimp only at hcopy
      split at hcopy
      · cases hcopy; exact ⟨l, m', rfl⟩
      · obtain ⟨l, -, hcopy⟩ := bind_eq_ok.1 hcopy
        obtain ⟨s₄, -, hcopy⟩ := bind_eq_ok.1 hcopy
        obtain ⟨m', -, hcopy⟩ := bind_eq_ok.1 hcopy
        cases hcopy
  obtain ⟨l, m, hs₂⟩ := hs₂
  obtain ⟨sw, hswf, hs'⟩ := forkCommit_eq hne hcommit
  have htab : s₂.ptable = s₁.ptable := by rw [hs₂]
  have hsw : sw = s.swap.counted L := by
    rw [htab, hp₁, show s₂.swap = s.swap by rw [hs₂, hs₁], swapFork_eq hL] at hswf
    exact (Except.ok.inj hswf).symm
  refine ⟨np, hfind, ?_, ⟨d, f, ?_⟩, fun q hqp hqn => ?_, ?_, ?_, ?_, ?_⟩
  · rw [hs', htab]
    simp [hne.symm, hp₁]
  · rw [hs', htab, hp₁, hs₁]
    simp
  · rw [hs', htab, hs₁]
    simp [hqp, hqn]
  · rw [hs', hsw]
  · rw [hs', hs₂, hs₁]
  · rw [hs', hs₂, hs₁]
  · rw [hs', hs₂, hs₁]

end DemandPaging
