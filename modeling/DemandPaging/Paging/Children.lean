/-
A child that comes and goes: what `fork` gives to the child of a process none of whose pages is
present, and what `exit` and `wait` leave when nothing is in their way.
-/
import DemandPaging.Paging.Conservation

namespace DemandPaging

/-! ## Forking a process without pages -/

section Blank

variable {s s' : Kernel} {p np : ProcIdx}

/-- A directory in which nothing below `KERNBASE` is present. -/
def PageDir.Blank (pd : PageDir) : Prop := ∀ b < kernBase, (pd.pte b).present = false

/-- A copy without pages to copy makes entries only. -/
theorem copyuvmLoop_blank {old new : ProcIdx} {pd : PageDir} (hpd : pd.Blank) : ∀ {n i : Nat} {mem : Option Nat} {d d' : PageDir}
    {s s' : Kernel}, i % pgSize = 0 → i + n * pgSize ≤ kernBase → (s.ptable old).pgdir = some pd → d.Blank →
    copyuvmLoop old new n i mem d s = .ok (true, d', s') →
    (∃ m, s' = { s with phys := m }) ∧ d'.Blank ∧ d.present ⊆ d'.present ∧ ∀ b, i ≤ b → b < i + n * pgSize → pdx b ∈ d'.present
  | 0, i, _, d, _, s, _, _, _, _, hd, h => by
    cases h
    exact ⟨⟨s.phys, rfl⟩, hd, subset_rfl, fun b h1 h2 => by omega⟩
  | n + 1, i, mem, d, d', s, s', hal, hi, hs, hd, h => by
    have hal' : (i + pgSize) % pgSize = 0 := by simp only [pgSize] at *; omega
    have hi' : i + pgSize + n * pgSize ≤ kernBase := by simp only [pgSize] at *; omega
    have hlt : i < kernBase := by simp only [pgSize, kernBase] at *; omega
    have hw : i < wordSize := by simp only [wordSize, kernBase] at *; omega
    rw [copyuvmLoop, hs, deref_some, ok_bind] at h
    split at h
    · cases h
    next pte hpte =>
    have hnp : pte.present = false := by
      have := hpd i hlt
      rw [PageDir.pte, hpte] at this
      exact this
    rw [if_pos hnp] at h
    rcases hmap : mappages d i pgSize (mem.elim kernBase (· * pgSize)) ⟨false, true, true⟩ false s.phys with ⟨r, d₁, m₁⟩
    rw [hmap] at h
    obtain ⟨-, hsame⟩ := mappages_blank hal hlt (hd i hlt) hmap
    dsimp only at h
    split at h
    · cases h
    obtain ⟨⟨m, rfl⟩, hblank, hsub, htab⟩ := copyuvmLoop_blank hpd (s := { s with phys := m₁ }) hal' hi' hs
      (fun b hb => by rw [hsame b hb]; exact hd b hb) h
    rcases mappages_page_cases (mem.elim kernBase (· * pgSize)) ⟨false, true, true⟩ false d s.phys hal hw with
      ⟨-, -, hno⟩ | ⟨d₂, m₂, hmap', hmapped⟩
    · cases hno.symm.trans hmap
      exact absurd (by decide) ‹¬(-1 : Int) < 0›
    cases hmap'.symm.trans hmap
    refine ⟨⟨m, rfl⟩, hblank, hmapped.grows.trans hsub, fun b h1 h2 => ?_⟩
    by_cases hb : i + pgSize ≤ b
    · exact htab b hb (by simp only [pgSize] at *; omega)
    · have hpage : pdx b = pdx i := by
        apply Fin.ext
        simp only [pdx, pgSize] at *
        omega
      rw [hpage]
      refine hsub (mem_present.2 fun hn => ?_)
      rw [← pte?_eq_none, hmapped.entry] at hn
      cases hn

/-- The child of a process without pages. -/
theorem fork_blank {r : Int} {pd : PageDir} (hpd : (s.ptable p).pgdir = some pd) (hblank : pd.Blank) (hp : Live s p)
    (hsz : (s.ptable p).sz ≤ kernBase) (hfind : Fin.find? (fun i => (s.ptable i).state = .unused) = some np)
    (h : fork p s = .ok (r, s')) (hr : r ≠ -1) : s'.lru = s.lru ∧ s'.initproc = s.initproc ∧ ∃ d, (s'.ptable np).pgdir = some d ∧ d.Blank ∧
      ∀ a < (s.ptable p).sz, pdx a ∈ d.present := by
  rcases fork_ok h with ⟨hr', -⟩ | ⟨np', s₁, s₂, hal, ⟨hr', -⟩ | ⟨d, hcopy, hcommit, -⟩⟩
  · exact absurd hr' hr
  · exact absurd hr' hr
  obtain ⟨hfind', k, fl, -, hs₁⟩ := allocproc_some hal
  cases hfind.symm.trans hfind'
  have hne : np ≠ p := by
    rintro rfl
    exact hp (by simpa using Fin.eq_true_of_find?_eq_some hfind)
  have hp₁ : s₁.ptable p = s.ptable p := by rw [hs₁]; simp [hne.symm]
  unfold copyuvm at hcopy
  obtain ⟨⟨d₀, m⟩, hset, hcopy⟩ := bind_eq_ok.1 hcopy
  rcases setupkvm_cases (m := s₁.phys) with ⟨-, hno⟩ | ⟨d₁, m₁, -, hset', hkd⟩
  · cases hno _ _ hset
    cases hcopy
  cases hset'.symm.trans hset
  obtain ⟨⟨done, d₂, s₃⟩, hloop, hcopy⟩ := bind_eq_ok.1 hcopy
  dsimp only at hcopy hloop
  cases done with
  | false =>
    obtain ⟨_, -, hcopy⟩ := bind_eq_ok.1 hcopy
    obtain ⟨_, -, hcopy⟩ := bind_eq_ok.1 hcopy
    obtain ⟨_, -, hcopy⟩ := bind_eq_ok.1 hcopy
    cases hcopy
  | true =>
    cases hcopy
    rw [hp₁] at hloop
    obtain ⟨⟨m', rfl⟩, hd, -, htab⟩ := copyuvmLoop_blank (s := { s₁ with phys := m }) hblank (by decide)
      (by simp only [pgSize, kernBase] at *; omega) (by rw [hp₁]; exact hpd) (fun b hb => by rw [hkd.pte_user hb]; rfl) hloop
    obtain ⟨sw, -, rfl⟩ := forkCommit_eq hne hcommit
    refine ⟨by rw [hs₁], by rw [hs₁], d, by simp, hd, fun a ha => htab a (Nat.zero_le _) ?_⟩
    simp only [pgSize] at *
    omega

end Blank

/-! ## Exit and wait -/

section Exit

variable {s : Kernel} {p c : ProcIdx}

/-- The state after an exit. -/
def Kernel.exited (s : Kernel) (p : ProcIdx) : Kernel :=
  { s with ptable := fun q => { s.ptable q with
      parent := if (s.ptable q).parent = some p then s.initproc else (s.ptable q).parent
      state := if q = p then .zombie else (s.ptable q).state } }

theorem exit_eq (h : s.initproc ≠ some p) : exit p s = .ok (s.exited p) := by
  unfold exit
  rw [if_neg h]
  rfl

/-- The state after an exited child has been freed; `L` is its swap list. -/
def Kernel.reaped (s : Kernel) (c : ProcIdx) (l : Lru) (m : Phys) (L : List SlotIdx) : Kernel :=
  let pr := s.ptable c
  { s with
    lru := l
    phys := m
    swap := if pr.forked then s.swap else s.swap.cleared L
    ptable := Function.update s.ptable c { pr with
      kstack := none, pgdir := none, pid := 0, parent := none, name := [], killed := false, state := .unused
      swapList := if pr.forked then none else if L.length = 1 then pr.swapList else none } }

/-- `wait` frees the child when its pages are the allocator's and its list is well-formed. -/
theorem reap_eq {k : Nat} {pd : PageDir} {l : Lru} {L : List SlotIdx} (hkept : Kept s) (hk : (s.ptable c).kstack = some k)
    (hpd : (s.ptable c).pgdir = some pd) (hpid : getProc (s.ptable c).pid s = some c) (hl : lruFree (s.ptable c).pid s.lru = .ok l)
    (hL : SwapList s.swap (s.ptable c).swapList L) (hlk : s.swap.lk = false) :
    ∃ m, reap c s = .ok ((s.ptable c).pid, s.reaped c l m L) := by
  have huses : ∀ f, 0 < (s.ptable c).uses f → s.phys.layout.Holds f := fun f hf => hkept.holds f (by
    rw [Kernel.uses]
    have := le_tally (g := fun q => (s.ptable q).uses f) c
    omega)
  obtain ⟨m₁, hm₁⟩ := kfree_holds.2 (huses k (by rw [Proc.uses, hk, Option.elim_some, one, if_pos rfl]; omega))
  have hdir : ∀ f, 0 < pd.uses f → m₁.layout.Holds f := fun f hf => by
    rw [(kfree_uses hm₁ 0).1]
    exact huses f (by rw [Proc.uses, hpd, Option.elim_some]; omega)
  obtain ⟨m₂, hm₂⟩ := freevm_progress hdir
  refine ⟨m₂, ?_⟩
  unfold reap
  rw [hk]
  dsimp only
  rw [hm₁, ok_bind, Kernel.setProc_lru, hl, ok_bind]
  generalize ht : ({ ({ s with phys := m₁ } : Kernel).setProc c { s.ptable c with kstack := none } with lru := l } : Kernel) = t
  have htc : t.ptable c = { s.ptable c with kstack := none } := by rw [← ht]; simp
  have hts : t.swap = s.swap := by rw [← ht]; rfl
  have htpid : getProc (s.ptable c).pid t = some c := by
    rw [getProc_congr s t fun q => ?_, hpid]
    rw [← ht]
    simp only [Kernel.setProc_ptable]
    split
    · next hq => subst hq; rfl
    · rfl
  generalize hlist : (if (s.ptable c).forked then none else if L.length = 1 then (s.ptable c).swapList else none) = list
  generalize hsw : (if (s.ptable c).forked then s.swap else s.swap.cleared L) = sw
  have hfree : swapFree (s.ptable c).pid t = .ok (t.setSwap c list sw) := by
    unfold swapFree
    rw [htpid]
    simp only [htc, hts]
    by_cases hf : (s.ptable c).forked = true
    · simp [← hlist, ← hsw, hf]
    · rw [if_neg hf, freeSlots_eq hL hlk, ok_bind]
      simp [← hlist, ← hsw, hf]
  have hpd' : ((t.setSwap c list sw).ptable c).pgdir = some pd := by
    rw [Kernel.setSwap_ptable, if_pos rfl, htc]
    exact hpd
  have hphys : (t.setSwap c list sw).phys = m₁ := by rw [← ht]; rfl
  rw [hfree, ok_bind, hpd']
  dsimp only
  rw [hphys, hm₂, ok_bind, pure_ok]
  simp only [Kernel.reaped, hlist, hsw]
  simp only [← ht, Kernel.setSwap, Kernel.setProc, Function.update_idem, Function.update_self]

theorem wait_eq {r : Int} {s' : Kernel}
    (hfind : Fin.find? (fun q => (s.ptable q).parent = some p ∧ (s.ptable q).state = .zombie) = some c)
    (h : reap c s = .ok (r, s')) : wait p s = .ok (some r, s') := by
  unfold wait
  rw [hfind]
  simp [h]

end Exit

/-! ## Growing by a page -/

/-- A page that is added where there is a table. -/
def newPte : Pte := ⟨⟨false, true, true⟩, 0⟩

theorem growproc_table {s : Kernel} {p : ProcIdx} {pd : PageDir} {k : Nat} {L : List SlotIdx} {f : SlotIdx} {E : List (Int × Nat)}
    (hal : (s.ptable p).sz % pgSize = 0) (hlt : (s.ptable p).sz + pgSize < kernBase) (hpd : (s.ptable p).pgdir = some pd)
    (htab : pdx (s.ptable p).sz ∈ pd.present) (hk : (s.ptable p).kstack = some k)
    (hL : SwapList s.swap (s.ptable p).swapList L) (hlk : s.swap.lk = false) (hf : freeSlot? s.swap = some f)
    (hE : Queue s.lru E) (hm : ((s.ptable p).pid, (s.ptable p).sz) ∉ E) :
    growproc p pgSize s =
      .ok (0, s.grown p s.phys L f (pd.setPte (s.ptable p).sz newPte) newPte ((s.ptable p).sz + pgSize)) := by
  have hup := pgRoundUp_aligned hal (by omega)
  have hnext : ((s.ptable p).sz + pgSize) % pgSize = 0 := by rw [Nat.add_mod_right]; exact hal
  have hw : (s.ptable p).sz < wordSize := by
    simp only [wordSize, kernBase] at *
    omega
  refine growproc_page (by decide) ?_ hlt (Nat.le_add_right _ _) ?_ hpd hk ?_ hL hlk hf ?_ hE hm
  · simp only [pgSize, wordSize, kernBase] at *
    omega
  · rw [hup, pgRoundUp_aligned hnext hlt.le]
  · rw [hup, mappages_table 0 ⟨false, true, true⟩ false pd s.phys hal hw htab]
    rfl
  · exact pte?_setPte_same (mem_present.1 htab)

/-! ## A child that grows, exits and is waited for -/

section Child

variable {s : Kernel} {p c : ProcIdx} {k : Nat} {d : PageDir} {f : SlotIdx}

/-- A child of `p` with tables and no pages, and nothing in swap. -/
structure Child (s : Kernel) (p c : ProcIdx) (k : Nat) (d : PageDir) : Prop where
  parent : (s.ptable c).parent = some p
  live : Live s c
  kstack : (s.ptable c).kstack = some k
  pgdir : (s.ptable c).pgdir = some d
  size : (s.ptable c).sz % pgSize = 0 ∧ (s.ptable c).sz + pgSize < kernBase
  list : (s.ptable c).swapList = none
  blank : d.Blank
  table : pdx (s.ptable c).sz ∈ d.present
  pid : ∀ q, (s.ptable q).pid = (s.ptable c).pid → q = c
  init : s.initproc ≠ some c
  ne : p ≠ c

/-- The child has taken slot `f` for a page, and is gone. -/
structure Gone (s : Kernel) (c : ProcIdx) (f : SlotIdx) (s' : Kernel) : Prop where
  other : ∀ q, q ≠ c → ∃ o, s'.ptable q = { s.ptable q with parent := o }
  state : (s'.ptable c).state = .unused
  pid : (s'.ptable c).pid = 0
  list : (s'.ptable c).swapList = if (s.ptable c).forked then none else some f
  forked : (s'.ptable c).forked = (s.ptable c).forked
  swap : s'.swap = if (s.ptable c).forked then s.swap.linked [] .heap (s.ptable c).sz f
    else (s.swap.linked [] .heap (s.ptable c).sz f).cleared [f]
  lru : s'.lru = s.lru
  nextpid : s'.nextpid = s.nextpid
  uses : ∀ g, s'.uses g = s.uses g
  kept : Kept s'

theorem grown_other {m : Phys} {L : List SlotIdx} {pte : Pte} {sz : Nat} {q : ProcIdx} (hq : q ≠ p) :
    (s.grown p m L f d pte sz).ptable q = s.ptable q := by
  simp [Kernel.grown, Kernel.setProc, Kernel.swappedOut, hq]

theorem grown_self {m : Phys} {L : List SlotIdx} {pte : Pte} {sz : Nat} : (s.grown p m L f d pte sz).ptable p =
    { s.ptable p with
      pgdir := some (d.setPte (s.ptable p).sz { pte with present := false }), heapBuffer := zeroPage
      swapList := (s.ptable p).swapList.or (some f), sz := sz } := by
  simp [Kernel.grown, Kernel.setProc, Kernel.swappedOut]

theorem exited_other {q : ProcIdx} (hq : q ≠ p) : ∃ o, (s.exited p).ptable q = { s.ptable q with parent := o } := by
  refine ⟨if (s.ptable q).parent = some p then s.initproc else (s.ptable q).parent, ?_⟩
  simp [Kernel.exited, hq]

/-- The child has exited, with the slot on its list, and is the one that `wait` finds. -/
structure ZombieChild (s : Kernel) (p c : ProcIdx) (f : SlotIdx) (s₂ : Kernel) : Prop where
  find : Fin.find? (fun q => (s₂.ptable q).parent = some p ∧ (s₂.ptable q).state = .zombie) = some c
  lists : Lists s₂ c f
  forked : (s₂.ptable c).forked = (s.ptable c).forked

theorem child_gone (h : Child s p c k d) (hkept : Kept s) (hz : ∀ q, (s.ptable q).state ≠ .zombie) (hE : Queue s.lru [])
    (hl : lruFree (s.ptable c).pid s.lru = .ok s.lru) (hlk : s.swap.lk = false) (hf : freeSlot? s.swap = some f) :
    ∃ s₁ s₂ s', growproc c pgSize s = .ok (0, s₁) ∧ exit c s₁ = .ok s₂ ∧ wait p s₂ = .ok (some (s.ptable c).pid, s') ∧
      Live s₁ c ∧ (Live s p → Live s₂ p) ∧ ZombieChild s p c f s₂ ∧ Gone s c f s' := by
  have hgrow := growproc_table (L := []) h.size.1 h.size.2 h.pgdir h.table h.kstack (show SwapList _ _ [] from h.list) hlk hf hE (by simp)
  obtain ⟨hmoves₁, hkept₁⟩ := growproc_pages hkept h.live (fun _ => .inr fun b _ _ hb => by
    rw [Kernel.pte, h.pgdir]
    exact h.blank b hb) hgrow
  generalize hs₁ : s.grown c s.phys [] f (d.setPte (s.ptable c).sz newPte) newPte ((s.ptable c).sz + pgSize) = s₁ at hgrow hmoves₁ hkept₁
  have hself₁ : s₁.ptable c = { s.ptable c with
      pgdir := (s₁.ptable c).pgdir, heapBuffer := zeroPage, swapList := some f, sz := (s.ptable c).sz + pgSize } := by
    rw [← hs₁, grown_self, h.list]
    rfl
  obtain ⟨d₁, hd₁⟩ : ∃ d₁, (s₁.ptable c).pgdir = some d₁ := by
    rw [← hs₁, grown_self]
    exact ⟨_, rfl⟩
  have hother₁ : ∀ q, q ≠ c → s₁.ptable q = s.ptable q := fun q hq => by rw [← hs₁, grown_other hq]
  have hsw₁ : s₁.swap = s.swap.linked [] .heap (s.ptable c).sz f ∧ s₁.lru = s.lru ∧ s₁.initproc = s.initproc ∧
      s₁.nextpid = s.nextpid := by
    rw [← hs₁]
    exact ⟨rfl, rfl, rfl, rfl⟩
  clear hs₁
  have hexit : exit c s₁ = .ok (s₁.exited c) := exit_eq (by rw [hsw₁.2.2.1]; exact h.init)
  obtain ⟨hmoves₂, hkept₂⟩ := exit_pages hkept₁ hexit
  have hself₂ : (s₁.exited c).ptable c = { s₁.ptable c with parent := some p, state := .zombie } := by
    have hpar : (s₁.ptable c).parent = some p := by rw [hself₁]; exact h.parent
    simp only [Kernel.exited, hpar, if_true, Option.some.injEq, h.ne, if_false]
  have hother₂ : ∀ q, q ≠ c → ∃ o, (s₁.exited c).ptable q = { s.ptable q with parent := o } := fun q hq => by
    obtain ⟨o, ho⟩ := exited_other (s := s₁) hq
    exact ⟨o, by rw [ho, hother₁ q hq]⟩
  have hsw₂ : (s₁.exited c).swap = s₁.swap ∧ (s₁.exited c).lru = s₁.lru ∧ (s₁.exited c).nextpid = s₁.nextpid := ⟨rfl, rfl, rfl⟩
  generalize s₁.exited c = s₂ at *
  have hpid₂ : (s₂.ptable c).pid = (s.ptable c).pid := by rw [hself₂, hself₁]
  have hlist₂ : (s₂.ptable c).swapList = some f ∧ (s₂.ptable c).forked = (s.ptable c).forked := by
    rw [hself₂, hself₁]
    exact ⟨rfl, rfl⟩
  have hget : getProc (s₂.ptable c).pid s₂ = some c := getProc_eq fun q hq => by
    by_contra hqc
    obtain ⟨o, ho⟩ := hother₂ q hqc
    rw [ho, hpid₂] at hq
    exact hqc (h.pid q hq)
  have hslots : SwapList s₂.swap (s₂.ptable c).swapList [f] := by
    rw [hlist₂.1, hsw₂.1, hsw₁.1]
    exact ⟨rfl, by simp [Swap.linked]⟩
  have hd₂ : (s₂.ptable c).pgdir = some d₁ := by rw [hself₂]; exact hd₁
  obtain ⟨m, hreap⟩ := reap_eq (k := k) (l := s.lru) (L := [f]) hkept₂ (by rw [hself₂, hself₁]; exact h.kstack) hd₂ hget (by rw [hpid₂, hsw₂.2.1, hsw₁.2.1]; exact hl) hslots (by rw [hsw₂.1, hsw₁.1]; rfl)
  obtain ⟨hmoves₃, hkept₃⟩ := reap_pages hkept₂ hreap
  have hfind : Fin.find? (fun q => (s₂.ptable q).parent = some p ∧ (s₂.ptable q).state = .zombie) = some c := by
    rw [Fin.find?_eq_some_iff]
    refine ⟨by simp [hself₂], fun q hq => ?_⟩
    obtain ⟨o, ho⟩ := hother₂ q (Fin.ne_of_lt hq)
    simp [ho, hz q]
  have hwait := wait_eq hfind hreap
  rw [hpid₂] at hwait
  refine ⟨s₁, s₂, _, hgrow, hexit, hwait, ?_, fun hp => ?_, ⟨hfind, ⟨f, hlist₂.1, .refl⟩, hlist₂.2⟩, ?_⟩
  · rw [Live, hself₁]
    exact h.live
  · obtain ⟨o, ho⟩ := hother₂ p h.ne
    rw [Live, ho]
    exact hp
  have hfk : (if (s₂.ptable c).forked = true then s₂.swap else s₂.swap.cleared [f]) = if (s.ptable c).forked = true then
      s.swap.linked [] .heap (s.ptable c).sz f else (s.swap.linked [] .heap (s.ptable c).sz f).cleared [f] := by
    rw [hlist₂.2, hsw₂.1, hsw₁.1]
  refine ⟨fun q hq => ?_, ?_, ?_, ?_, ?_, hfk, rfl, ?_, fun g => ?_, hkept₃⟩
  · obtain ⟨o, ho⟩ := hother₂ q hq
    exact ⟨o, by simp only [Kernel.reaped, Function.update_of_ne hq, ho]⟩
  · simp [Kernel.reaped]
  · simp [Kernel.reaped]
  · simp [Kernel.reaped, hlist₂]
  · simp [Kernel.reaped, hlist₂]
  · exact hsw₂.2.2.trans hsw₁.2.2.2
  · rw [hmoves₃.uses_eq, hmoves₂.uses_eq, hmoves₁.uses_eq]

end Child

/-! ## A machine with little memory -/

/-- One process with one page, which is not present, and `n` free pages. -/
def lowKernel (n : Nat) : Kernel :=
  { smallKernel.setProc 0 { smallProc with sz := pgSize } with phys := ⟨smallLayout, List.range' 1000 n, fun _ => zeroPage⟩ }

section Low

variable {n : Nat}

theorem lowKernel_self : (lowKernel n).ptable 0 = { smallProc with sz := pgSize } := by simp [lowKernel]

theorem lowKernel_other {q : ProcIdx} (hq : q ≠ 0) : (lowKernel n).ptable q = smallKernel.ptable q := by
  simp [lowKernel, Kernel.setProc, hq]

theorem lowKernel_live {q : ProcIdx} : Live (lowKernel n) q ↔ q = 0 := by
  refine ⟨fun hq => ?_, ?_⟩
  · by_contra hq0
    rw [Live, lowKernel_other hq0] at hq
    simp [smallKernel, hq0] at hq
  · rintro rfl
    rw [Live, lowKernel_self]
    simp [smallProc]

theorem lowKernel_find : Fin.find? (fun i => ((lowKernel n).ptable i).state = .unused) = some 1 := by
  rw [Fin.find?_eq_some_iff]
  refine ⟨?_, fun j hj => ?_⟩
  · rw [lowKernel_other (by decide)]
    decide
  · obtain rfl : j = 0 := Fin.ext (Nat.lt_one_iff.1 hj)
    rw [lowKernel_self]
    decide

theorem lowKernel_ids : IdsOk (lowKernel n) := by
  have hsmall := smallKernel_booted.ids
  have hpid : ∀ q, ((lowKernel n).ptable q).pid = (smallKernel.ptable q).pid := fun q => by
    by_cases hq : q = 0
    · subst hq
      rw [lowKernel_self]
      rfl
    · rw [lowKernel_other hq]
  have hlive : ∀ q, Live (lowKernel n) q ↔ Live smallKernel q := fun q => by
    by_cases hq : q = 0
    · subst hq
      rw [Live, lowKernel_self]
      rfl
    · rw [Live, lowKernel_other hq, Live]
  refine ⟨fun q r => ?_, fun q hq => ?_, fun q => ?_, hsmall.next, fun q hq => ?_⟩
  · rw [hpid, hpid]; exact hsmall.unique q r
  · rw [hpid]; exact hsmall.pos q ((hlive q).1 hq)
  · rw [hpid]; exact hsmall.lt q
  · rw [lowKernel_other fun h0 => hq (lowKernel_live.2 h0)]
    exact hsmall.dir q fun hc => hq ((hlive q).2 hc)

theorem smallDir_blank : smallDir.Blank := by
  intro b _
  rw [PageDir.pte, PageDir.pte?, smallDir]
  dsimp only
  split <;> rfl

theorem smallLayout_holds {f : Nat} (h1 : 300 ≤ f) (h2 : f < 2000) : smallLayout.Holds f := by
  show kernLink + 2 * pgSize ≤ _ ∧ _
  simp only [kernLink, extMem, kernBase, pgSize, physTop]
  omega

/-- What the process uses. -/
theorem smallProc_uses {pr : Proc} {f : Nat} (hk : pr.kstack = some 997) (hpd : pr.pgdir = some smallDir) (hf : 0 < pr.uses f) :
    997 ≤ f ∧ f ≤ 999 := by
  rw [Proc.uses, hk, hpd, Option.elim_some, Option.elim_some, uses_of_blank smallDir_blank] at hf
  have h1 := tally_exchange (g := fun i => (smallDir.tables i).elim 0 fun t => one t.frame f) (h := fun _ => 0) (0 : Fin 1024)
    fun i hi => by simp [smallDir, hi]
  rw [tally_zero fun _ => rfl] at h1
  generalize tally (fun i => (smallDir.tables i).elim 0 fun t => one t.frame f) = x at h1 hf
  simp only [smallDir, if_true, Option.elim_some, one] at h1 hf
  by_cases h997 : 997 = f
  · omega
  by_cases h998 : 998 = f
  · omega
  by_cases h999 : 999 = f
  · omega
  simp [h997, h998, h999] at h1 hf
  omega

theorem lowKernel_kept (hn : n ≤ 200) : Kept (lowKernel n) := by
  refine ⟨fun q hq => ?_, fun q => ?_, fun f hf => ?_⟩
  · have hq0 : q ≠ 0 := fun h => hq (lowKernel_live.2 h)
    rw [lowKernel_other hq0]
    simp [smallKernel, hq0]
  · by_cases hq : q = 0
    · subst hq
      rw [lowKernel_self]
      show pgSize ≤ kernBase
      decide
    · rw [lowKernel_other hq]
      simp [smallKernel, hq]
  · have hother : ∀ q, q ≠ 0 → ((lowKernel n).ptable q).uses f = 0 := fun q hq => by
      rw [lowKernel_other hq]
      simp [smallKernel, hq, Proc.uses]
    have h1 := tally_exchange (g := fun q => ((lowKernel n).ptable q).uses f) (h := fun _ => 0) (0 : ProcIdx) hother
    rw [tally_zero fun _ => rfl] at h1
    rw [Kernel.uses] at hf
    have hrange : 300 ≤ f ∧ f < 2000 := by
      by_cases hfree : 0 < (lowKernel n).phys.free f
      · rw [Phys.free, List.count_pos_iff] at hfree
        have := List.mem_range'_1.1 hfree
        omega
      · have hpos : 0 < ((lowKernel n).ptable 0).uses f := by omega
        have := smallProc_uses (by rw [lowKernel_self]; rfl) (by rw [lowKernel_self]; rfl) hpos
        omega
    exact smallLayout_holds hrange.1 hrange.2

/-- The process has forked. -/
structure Forking (n : Nat) (s : Kernel) (k : Nat) (d : PageDir) : Prop where
  parent : s.ptable 0 = { smallProc with sz := pgSize, forked := true }
  child : Child s 0 1 k d
  first : (s.ptable 1).sz = pgSize ∧ (s.ptable 1).pid = 2 ∧ (s.ptable 1).forked = false ∧ (s.ptable 1).state = .runnable
  other : ∀ q, q ≠ 0 → q ≠ 1 → s.ptable q = smallKernel.ptable q
  lru : s.lru = lruInit
  swap : s.swap = swapInit
  nextpid : s.nextpid = 3
  free : n ≤ s.phys.freelist.length + 68
  uses : ∀ f, s.uses f = (lowKernel n).uses f
  kept : Kept s

theorem Forking.zombie {s : Kernel} {k : Nat} {d : PageDir} (h : Forking n s k d) (q : ProcIdx) : (s.ptable q).state ≠ .zombie := by
  by_cases h0 : q = 0
  · subst h0
    rw [h.parent]
    simp [smallProc]
  by_cases h1 : q = 1
  · subst h1
    rw [h.first.2.2.2]
    simp
  rw [h.other q h0 h1]
  simp [smallKernel, h0]

theorem lowKernel_fork (hn : 68 ≤ n) (hle : n ≤ 200) : ∃ s' k d, fork 0 (lowKernel n) = .ok (2, s') ∧ Forking n s' k d := by
  have hself := lowKernel_self (n := n)
  have hpd : ((lowKernel n).ptable 0).pgdir = some smallDir := by rw [hself]; rfl
  have hpages : userPages ((lowKernel n).ptable 0) = 1 := by rw [hself]; decide
  have hlen : (lowKernel n).phys.freelist.length = n := List.length_range'
  have hsz : ((lowKernel n).ptable 0).sz = pgSize := by rw [hself]
  have hlist : SwapList (lowKernel n).swap ((lowKernel n).ptable 0).swapList [] := by rw [hself]; rfl
  have hpte : ∀ a < ((lowKernel n).ptable 0).sz, smallDir.pte? a ≠ none := by
    intro a ha hno
    rw [hsz] at ha
    have hidx : pdx a = 0 := by
      apply Fin.ext
      simp only [pdx, pgSize] at ha ⊢
      show a / 2 ^ 22 % 1024 = 0
      omega
    rw [pte?_eq_none, hidx] at hno
    cases hno
  obtain ⟨s', E, hfork, -, -, -, hfree⟩ := fork_progress (E := []) (lowKernel_find (n := n)) (by decide) hpd (by rw [hsz]; decide) hpte
    lruInit_queue (by rw [hpages]; decide) (by rw [hpages, hlen]; omega) hlist
  have hpid : (lowKernel n).nextpid = 2 := rfl
  rw [hpid] at hfork
  have hroom : userPages ((lowKernel n).ptable 0) ≤ freeEntries (lowKernel n).lru := by
    have hfree := lruInit_queue.freeEntries_eq
    rw [List.length_nil, Nat.add_zero] at hfree
    rw [hpages, show (lowKernel n).lru = lruInit from rfl, hfree]
    decide
  have hlive : Live (lowKernel n) 0 := lowKernel_live.2 rfl
  obtain ⟨np, hnp, hforked⟩ := fork_forked hfork (by decide) hlive hroom hlist
  cases lowKernel_find.symm.trans hnp
  obtain ⟨hlru, hinit, d, hd, hblank, htab⟩ := fork_blank hpd smallDir_blank hlive (by rw [hsz]; decide) lowKernel_find hfork (by decide)
  rw [hsz] at htab
  rw [hpages, hlen] at hfree
  obtain ⟨huses, hkept, -⟩ := fork_pages (lowKernel_kept hle) (by rw [hself]; exact Nat.zero_le _) hlive hfork
  obtain ⟨d', k, hchild⟩ := hforked.child
  have hparent := hforked.parent
  rw [hself] at hchild hparent
  obtain rfl : d' = d := by
    rw [hchild] at hd
    exact Option.some.inj hd
  have hother : ∀ q, q ≠ 0 → q ≠ 1 → s'.ptable q = smallKernel.ptable q := fun q h0 h1 => by
    rw [hforked.other q h0 h1, lowKernel_other h0]
  have hpid₁ : (s'.ptable 1).pid = 2 := by rw [hchild]; exact hpid
  have hpid' : ∀ q, (s'.ptable q).pid = (s'.ptable 1).pid → q = 1 := fun q hq => by
    by_contra h1
    rw [hpid₁] at hq
    by_cases h0 : q = 0
    · subst h0
      rw [hparent] at hq
      cases hq
    · rw [hother q h0 h1] at hq
      simp [smallKernel, h0] at hq
  have hsz₁ : (s'.ptable 1).sz = pgSize := by rw [hchild]
  have hsw : s'.swap = swapInit := by
    rw [hforked.swap]
    simp [Swap.counted, lowKernel, smallKernel]
  refine ⟨s', k, d', hfork, hparent, ⟨?_, ?_, ?_, hd, ?_, ?_, hblank, ?_, hpid', ?_, by decide⟩, ⟨hsz₁, hpid₁, ?_, ?_⟩, hother, hlru, hsw,
    hforked.nextpid, by omega, huses, hkept⟩
  · rw [hchild]
  · rw [Live, hchild]; simp
  · rw [hchild]
  · rw [hsz₁]; decide
  · rw [hchild]; rfl
  · rw [hsz₁]; exact htab 0 (by decide)
  · rw [hinit]
    show some (0 : ProcIdx) ≠ some 1
    decide
  · rw [hchild]
  · rw [hchild]

end Low

end DemandPaging
