/-
Physical pages over whole runs of the machine: from `main` on, every page that `freerange` handed to
the allocator has one role, as long as no page that is present is swapped out or mapped over.
-/
import DemandPaging.Paging.Pages

namespace DemandPaging

/-! ## Page faults -/

section Fault

variable {s s' : Kernel} {p : ProcIdx} {v : Nat} {r : Int}

/-- A page that has been taken off the free list is mapped into the process. -/
theorem mappagesProc_pages {t : Kernel} {g : Nat} {perm : Flags}
    (h : mappagesProc p v pgSize (g * pgSize) perm true t = .ok (r, s')) (hr : ¬r < 0) (hal : v % pgSize = 0) (hk : v < kernBase)
    (hnp : (s.pte p v).present = false) (hproc : ∀ q, SameProc (s.ptable q) (t.ptable q)) (hlay : t.phys.layout = s.phys.layout)
    (hfree : ∀ f, s.phys.free f = t.phys.free f + one g f) : Steady p s s' := by
  unfold mappagesProc at h
  obtain ⟨pd, hpd, h⟩ := bind_eq_ok.1 h
  rw [deref_eq_ok, (hproc p).pgdir] at hpd
  rw [Kernel.pte, hpd] at hnp
  rcases hmap : mappages pd v pgSize (g * pgSize) perm true t.phys with ⟨r', pd', m'⟩
  simp only [hmap] at h
  cases h
  rcases mappages_builds hal hk hnp hlay hfree hmap with ⟨-, hb⟩ | ⟨rfl, -, -⟩
  · exact hb.steady hpd hproc
  · exact absurd (by decide) hr

theorem swapIn_pages {kind : SwapKind} (hal : v % pgSize = 0) (hk : v < kernBase) (hnp : (s.pte p v).present = false)
    (h : swapInFunc kind p v s = .ok (r, s')) (hr : ¬r < 0) : Steady p s s' := by
  rw [swapInFunc_eq] at h
  unfold swapInWith at h
  obtain ⟨⟨slot, list, sw⟩, -, h⟩ := bind_eq_ok.1 h
  have hsame := setSwap_pages s p list sw
  cases slot with
  | none =>
    cases h
    exact absurd (by decide) hr
  | some y =>
    obtain ⟨⟨g, s₂⟩, hread, h⟩ := bind_eq_ok.1 h
    unfold readswap at hread
    obtain ⟨⟨x, s₃⟩, hkal, hread⟩ := bind_eq_ok.1 hread
    rcases kalloc_pages (fun hne => absurd rfl hne) hkal with ⟨rfl, rfl⟩ | ⟨g', fl, l, rfl, hfl, rfl, -⟩
    · cases hread
    cases hread
    unfold mappagesSwapIn at h
    obtain ⟨⟨r', s₄⟩, hmap, h⟩ := bind_eq_ok.1 h
    cases h
    refine mappagesProc_pages hmap (fun hneg => hr ?_) hal hk hnp hsame.procs rfl fun f => free_cons hfl
    rw [if_pos hneg]
    decide

/-- A page fault below `KERNBASE`, on a page that is not present: it is swapped in without an eviction,
or filled from the file. -/
theorem pgfltHandler_pages {a : Nat} (hk : pgRoundDown a < kernBase) (hnp : (s.pte p a).present = false)
    (hroom : (∃ sw, swapCheck (pgRoundDown a) (s.ptable p).swapList s.swap = .ok (none, sw)) ∨ 0 < freeEntries s.lru)
    (h : pgfltHandler p a s = .ok s') : Steady p s s' := by
  have hpage : (s.pte p (pgRoundDown a)).present = false := by
    have he : ∀ pd : PageDir, pd.pte (pgRoundDown a) = pd.pte a := fun pd => by
      rw [PageDir.pte, PageDir.pte, pte?_page (b := a) (by simp only [pgRoundDown, pgSize]; omega)]
    rw [Kernel.pte] at hnp ⊢
    simpa only [he] using hnp
  have hal : pgRoundDown a % pgSize = 0 := by simp only [pgRoundDown, pgSize]; omega
  unfold pgfltHandler at h
  dsimp only at h
  rw [if_neg (by omega)] at h
  obtain ⟨⟨swapno, sw⟩, hcheck, h⟩ := bind_eq_ok.1 h
  cases swapno with
  | some kind =>
    have hfree : 0 < freeEntries s.lru := hroom.resolve_left (by rintro ⟨sw', hno⟩; cases hno.symm.trans hcheck)
    obtain ⟨s₁, hget, h⟩ := bind_eq_ok.1 h
    obtain ⟨l, rfl, -⟩ := getLru_room (s := { s with swap := sw }) hfree hget
    obtain ⟨⟨r, s₂⟩, hin, h⟩ := bind_eq_ok.1 h
    dsimp only at h
    split at h
    · cases h
    cases h
    have hlru : SamePages s { s with swap := sw, lru := l } := ⟨rfl, fun _ => rfl, fun _ => SameProc.refl _⟩
    exact (hlru.steady p).trans (swapIn_pages hal hk hpage hin ‹_›)
  | none =>
    obtain ⟨⟨x, s₁⟩, hkal, h⟩ := bind_eq_ok.1 h
    rcases kalloc_pages (fun hne => absurd rfl hne) hkal with ⟨rfl, rfl⟩ | ⟨g, fl, l, rfl, hfl, rfl, -⟩
    · cases h
    obtain ⟨⟨r, s₂⟩, hmap, h⟩ := bind_eq_ok.1 h
    dsimp only at h
    split at h
    · cases h
    obtain ⟨pd, -, h⟩ := bind_eq_ok.1 h
    obtain ⟨m, hfill, h⟩ := bind_eq_ok.1 h
    obtain ⟨m', hfill', h⟩ := bind_eq_ok.1 h
    cases h
    have hst : Steady p s s₂ := mappagesProc_pages hmap ‹_› hal hk hpage (fun _ => SameProc.refl _) rfl fun f => free_cons hfl
    obtain ⟨x, rfl⟩ := fillPage_mem hfill
    obtain ⟨x', rfl⟩ := fillPage_mem hfill'
    exact hst.trans ⟨⟨rfl, fun _ _ => SameProc.refl _, fun _ => rfl⟩, rfl, rfl⟩

end Fault

/-! ## Exit and wait -/

section Exit

variable {s s' : Kernel} {p c : ProcIdx}

theorem exit_pages (hk : Kept s) (h : exit p s = .ok s') : Moves p s s' ∧ Kept s' := by
  unfold exit at h
  split at h
  · cases h
  cases h
  generalize hs' : ({ s with ptable := _ } : Kernel) = s'
  have hm : Moves p s s' := by
    subst hs'
    exact ⟨rfl, fun q hq => ⟨rfl, rfl, rfl, if_neg hq⟩, fun _ => rfl⟩
  refine ⟨hm, hm.kept hk (fun hn => ?_) ?_⟩
  · simp [Live, ← hs'] at hn
  · rw [← hs']
    exact hk.size p

theorem reap_pages {r : Int} (hk : Kept s) (h : reap c s = .ok (r, s')) : Moves c s s' ∧ Kept s' := by
  unfold reap at h
  dsimp only at h
  split at h
  · cases h
  next k hks =>
  obtain ⟨m, hm, h⟩ := bind_eq_ok.1 h
  obtain ⟨l, -, h⟩ := bind_eq_ok.1 h
  obtain ⟨s₁, hfree, h⟩ := bind_eq_ok.1 h
  split at h
  · cases h
  next pd hpd =>
  obtain ⟨m', hvm, h⟩ := bind_eq_ok.1 h
  cases h
  have hsame := swapFree_pages hfree
  obtain ⟨hlay, huses⟩ := freevm_uses hvm
  have hpd' : (s.ptable c).pgdir = some pd := by
    have := (hsame.procs c).pgdir
    rw [hpd] at this
    simpa using this.symm
  generalize hs' : Kernel.setProc _ c _ = s'
  have hmoves : Moves c s s' := by
    subst hs'
    refine ⟨hlay.trans (hsame.layout.trans (kfree_uses hm 0).1), fun q hq => ?_, fun f => ?_⟩
    · rw [Kernel.setProc_ptable, if_neg hq]
      simpa [Kernel.setProc, hq] using hsame.procs q
    · have h1 := huses f
      have h2 := hsame.free f
      have h3 := (kfree_uses hm f).2
      have h4 : (s₁.ptable c).kstack = none := (hsame.procs c).kstack.trans (by simp)
      simp only [Kernel.setProc_same, Proc.uses, hpd', hks, h4, Option.elim_some, Option.elim_none] at h2 ⊢
      dsimp only [Kernel.setProc] at h2 ⊢
      omega
  refine ⟨hmoves, hmoves.kept hk (fun _ => ?_) ?_⟩ <;> subst hs'
  · exact ⟨by simpa using (hsame.procs c).kstack, by simp⟩
  · have := (hsame.procs c).sz
    simp only [Kernel.setProc_same] at this ⊢
    rw [this]
    exact hk.size c

theorem wait_pages {r : Option Int} (hk : Kept s) (h : wait p s = .ok (r, s')) : (∃ c, Moves c s s') ∧ Kept s' := by
  unfold wait at h
  split at h
  · obtain ⟨⟨pid, s₁⟩, hreap, h⟩ := bind_eq_ok.1 h
    cases h
    obtain ⟨hm, hk'⟩ := reap_pages hk hreap
    exact ⟨⟨_, hm⟩, hk'⟩
  · split at h <;> cases h <;> exact ⟨⟨p, Moves.refl p _⟩, hk⟩

end Exit

/-! ## One call -/

namespace SysCall

/-- No page that is present is swapped out or mapped over. -/
def Keeps : SysCall → Kernel → Prop
  | .fork p, s => ringPages (s.ptable p) (userPages (s.ptable p)) 0 ≤ freeEntries s.lru
  | .growproc p n, s => 0 < n → pgRoundUp (newSize (s.ptable p) n) ≤ pgRoundUp (s.ptable p).sz ∨
    ∀ b, pgRoundDown (s.ptable p).sz ≤ b → b < pgRoundUp (newSize (s.ptable p) n) → b < kernBase → (s.pte p b).present = false
  | .fault p a, s => pgRoundDown a < kernBase ∧ (s.pte p a).present = false ∧
    ((∃ sw, swapCheck (pgRoundDown a) (s.ptable p).swapList s.swap = .ok (none, sw)) ∨ 0 < freeEntries s.lru)
  | .exec _ _ _, _ | .exit _, _ | .wait _, _ => True

variable {c : SysCall} {s s' : Kernel}

theorem run_pages (hk : Kept s) (hp : Live s c.actor) (hc : c.Keeps s) (h : c.run s = .ok s') :
    (∀ f, s'.uses f = s.uses f) ∧ Kept s' ∧ s'.phys.layout = s.phys.layout := by
  have hmoves : ∀ {p}, Moves p s s' ∧ Kept s' → (∀ f, s'.uses f = s.uses f) ∧ Kept s' ∧ s'.phys.layout = s.phys.layout :=
    fun ⟨hm, hk'⟩ => ⟨hm.uses_eq, hk', hm.layout⟩
  cases c with
  | fork p =>
    obtain ⟨⟨r, s₁⟩, hf, h⟩ := bind_eq_ok.1 h
    cases h
    exact fork_pages hk hc hp hf
  | exec p path argv =>
    obtain ⟨⟨r, s₁⟩, he, h⟩ := bind_eq_ok.1 h
    cases h
    exact hmoves (exec_pages hk hp he)
  | growproc p n =>
    obtain ⟨⟨r, s₁⟩, hg, h⟩ := bind_eq_ok.1 h
    cases h
    exact hmoves (growproc_pages hk hp hc hg)
  | fault p a =>
    have hst := pgfltHandler_pages hc.1 hc.2.1 hc.2.2 h
    exact hmoves ⟨hst.moves, hst.kept hp hk⟩
  | exit p => exact hmoves (exit_pages hk h)
  | wait p =>
    obtain ⟨⟨r, s₁⟩, hw, h⟩ := bind_eq_ok.1 h
    cases h
    obtain ⟨⟨c, hm⟩, hk'⟩ := wait_pages hk hw
    exact hmoves ⟨hm, hk'⟩

end SysCall

/-! ## The machine -/

/-- A call of a process, or what it does with a pipe. -/
inductive MachineCall
  | sys (c : SysCall)
  | pipealloc (files : Bool)
  | pipeclose (pipe : Pipe) (writable : Bool)

namespace MachineCall

def run : MachineCall → Machine → Except Stuck Machine
  | .sys c, t => do return { t with kernel := ← c.run t.kernel }
  | .pipealloc files, t => .ok (DemandPaging.pipealloc files t).2
  | .pipeclose pipe writable, t => DemandPaging.pipeclose pipe writable t

/-- Only a process that is there makes calls, and only a pipe that is there is closed. -/
def Enabled : MachineCall → Machine → Prop
  | .sys c, t => Live t.kernel c.actor
  | .pipealloc _, _ => True
  | .pipeclose pipe _, t => pipe ∈ t.pipes

def Keeps : MachineCall → Machine → Prop
  | .sys c, t => c.Keeps t.kernel
  | .pipealloc _, _ | .pipeclose _ _, _ => True

end MachineCall

namespace Machine

/-- In how many roles a page is: free, or a page directory, a page table, a kernel stack, the page of a
present user entry, a pipe. -/
def roles (t : Machine) (f : Nat) : Nat :=
  t.kernel.uses f + (t.pipes.map Pipe.frame).count f + t.kpgdir.uses f + t.cpuStacks.count f

/-- One role for each page between the end of the kernel and `PHYSTOP`. -/
structure Conserved (l : Layout) (t : Machine) : Prop where
  layout : t.kernel.phys.layout = l
  roles : ∀ f, t.roles f = if l.Holds f then 1 else 0

end Machine

section Machine

variable {l : Layout} {t t' : Machine} {c : MachineCall}

theorem pipealloc_roles {files : Bool} (h : t.Conserved l) (hk : Kept t.kernel) :
    (pipealloc files t).2.Conserved l ∧ Kept (pipealloc files t).2.kernel := by
  unfold pipealloc
  cases files with
  | false => exact ⟨h, hk⟩
  | true =>
    rw [if_pos rfl, kallocPage]
    cases hfl : t.kernel.phys.freelist with
    | nil => exact ⟨h, hk⟩
    | cons g fl =>
      have hfree : ∀ f, t.kernel.phys.free f = fl.count f + one g f := fun f => free_cons hfl
      have hcount : ∀ f, (g :: t.pipes.map Pipe.frame).count f = (t.pipes.map Pipe.frame).count f + one g f := fun f => by
        rw [List.count_cons, one]; simp
      refine ⟨⟨h.layout, fun f => ?_⟩, hk.idle, hk.size, fun f hf => hk.holds f ?_⟩
      · rw [← h.roles f]
        simp only [Machine.roles, Kernel.uses, List.map_cons, hcount, hfree]
        simp only [Phys.free]
        omega
      · rw [Kernel.uses, hfree]
        simp only [Kernel.uses, Phys.free] at hf
        omega

theorem count_map_erase {α : Type} [DecidableEq α] {a : α} {as : List α} (h : a ∈ as) (g : α → Nat) (f : Nat) :
    (as.map g).count f = ((as.erase a).map g).count f + one (g a) f := by
  rw [((List.perm_cons_erase h).map g).count_eq, List.map_cons, List.count_cons, one]
  simp

theorem pipeclose_roles {pipe : Pipe} {writable : Bool} (h : t.Conserved l) (hk : Kept t.kernel) (hin : pipe ∈ t.pipes)
    (hclose : pipeclose pipe writable t = .ok t') : t'.Conserved l ∧ Kept t'.kernel := by
  have hcount := count_map_erase hin Pipe.frame
  unfold pipeclose at hclose
  dsimp only at hclose
  generalize hpipe : (if writable = true then { pipe with writeopen := false } else { pipe with readopen := false } : Pipe) = pipe'
    at hclose
  have hframe : pipe'.frame = pipe.frame := by rw [← hpipe]; split <;> rfl
  split at hclose
  · obtain ⟨m, hfree, hclose⟩ := bind_eq_ok.1 hclose
    cases hclose
    have hholds := kfree_holds.1 ⟨m, hfree⟩
    have hfree := kfree_uses hfree
    refine ⟨⟨(hfree 0).1.trans h.layout, fun f => ?_⟩, hk.idle, hk.size, fun f hf => ?_⟩
    · have h1 := (hfree f).2
      have h2 := hcount f
      rw [← h.roles f]
      simp only [Machine.roles, Kernel.uses] at *
      omega
    · rw [(hfree 0).1]
      have h1 := (hfree f).2
      by_cases hpf : pipe.frame = f
      · rw [← hpf]; exact hholds
      · refine hk.holds f ?_
        rw [one, if_neg hpf] at h1
        simp only [Kernel.uses] at hf ⊢
        omega
  · cases hclose
    refine ⟨⟨h.layout, fun f => ?_⟩, hk⟩
    have h2 := hcount f
    rw [← h.roles f, Machine.roles, Machine.roles, List.map_cons, hframe, List.count_cons, h2, one]
    simp only [beq_iff_eq]

theorem MachineCall.run_roles (h : t.Conserved l) (hk : Kept t.kernel) (he : c.Enabled t) (hc : c.Keeps t) (hrun : c.run t = .ok t') :
    t'.Conserved l ∧ Kept t'.kernel := by
  cases c with
  | sys c =>
    obtain ⟨s', hs, hrun⟩ := bind_eq_ok.1 hrun
    cases hrun
    obtain ⟨huses, hk', hlay⟩ := c.run_pages hk he hc hs
    refine ⟨⟨hlay.trans h.layout, fun f => ?_⟩, hk'⟩
    rw [← h.roles f, Machine.roles, Machine.roles, huses f]
  | pipealloc files =>
    cases hrun
    exact pipealloc_roles h hk
  | pipeclose pipe writable => exact pipeclose_roles h hk he hrun

end Machine

/-! ## Boot -/

section Boot

variable {m m' : Phys}

theorem kfrees_uses : ∀ {fs : List Nat} {m m' : Phys}, fs.foldlM (fun m f => kfree f m) m = .ok m' →
    m'.layout = m.layout ∧ m'.freelist.length = m.freelist.length + fs.length ∧ ∀ f, m'.free f = m.free f + fs.count f
  | [], m, m', h => by
    rw [List.foldlM_nil, pure_ok] at h
    obtain rfl := Except.ok.inj h
    exact ⟨rfl, rfl, fun f => by rw [List.count_nil, Nat.add_zero]⟩
  | g :: fs, m, m', h => by
    rw [List.foldlM_cons] at h
    obtain ⟨m₁, hfree, h⟩ := bind_eq_ok.1 h
    obtain ⟨h1, h2, h3⟩ := kfrees_uses h
    have hu := kfree_uses hfree
    refine ⟨h1.trans (hu 0).1, ?_, fun f => ?_⟩
    · have hlen : m₁.freelist.length = m.freelist.length + 1 := by
        unfold kfree at hfree
        split at hfree
        · cases hfree
        · cases hfree; rfl
      rw [h2, hlen, List.length_cons]
      omega
    · rw [h3, (hu f).2, List.count_cons, one]
      simp only [beq_iff_eq]
      omega

theorem startothers_uses : ∀ {n : Nat} {m m' : Phys} {fs : List Nat}, startothers n m = .ok (fs, m') →
    m'.layout = m.layout ∧ ∀ f, fs.count f + m'.free f = m.free f
  | 0, m, m', fs, h => by
    rw [startothers] at h
    cases h
    exact ⟨rfl, fun _ => by simp⟩
  | n + 1, m, m', fs, h => by
    rw [startothers, kallocPage] at h
    cases hfl : m.freelist with
    | nil =>
      rw [hfl] at h
      cases h
    | cons g fl =>
      rw [hfl] at h
      dsimp only at h
      rw [deref_some, ok_bind] at h
      obtain ⟨⟨fs', m₁⟩, hrest, h⟩ := bind_eq_ok.1 h
      cases h
      obtain ⟨h1, h2⟩ := startothers_uses hrest
      refine ⟨h1, fun f => ?_⟩
      have h3 := h2 f
      rw [free_cons hfl, List.count_cons, one]
      simp only [Phys.free, beq_iff_eq] at *
      omega

theorem count_range' (a n f : Nat) : (List.range' a n).count f = if a ≤ f ∧ f < a + n then 1 else 0 := by
  rw [List.Nodup.count List.nodup_range']
  simp only [List.mem_range'_1]

/-- The pages that the two calls of `freerange` hand over, when the kernel ends where `entrypgdir` maps. -/
theorem ranges_count {l : Layout} {a n b k : Nat} (hend : pgRoundUp l.kernEnd ≤ entryEnd)
    (ha : a = (pgRoundUp l.kernEnd - kernBase) / pgSize) (hn : n = (entryEnd - pgRoundUp l.kernEnd) / pgSize)
    (hb : b = (pgRoundUp entryEnd - kernBase) / pgSize) (hk : k = (kernBase + physTop - pgRoundUp entryEnd) / pgSize) (f : Nat) :
    (List.range' a n).count f + (List.range' b k).count f = if l.Holds f then 1 else 0 := by
  have h1 := l.link_lt
  have h2 := l.data_le
  have h3 := l.end_lt
  have hab : a + n = b := by
    simp only [pgRoundUp, entryEnd, kernLink, extMem, pgSize, kernBase, wordSize, physTop] at *
    omega
  have hholds : l.Holds f ↔ a ≤ f ∧ f < b + k := by
    simp only [Layout.Holds, pgRoundUp, entryEnd, kernLink, extMem, pgSize, kernBase, wordSize, physTop] at *
    omega
  rw [count_range', count_range']
  simp only [hholds, hab]
  clear ha hn hb hk h1 h2 h3 hend
  by_cases h4 : a ≤ f <;> by_cases h5 : f < b <;> by_cases h6 : f < b + k <;> simp [h4, h5, h6] <;> omega

/-- The first page of the first process. -/
theorem inituvm_pages {pd pd' : PageDir} {init : List UInt8} (hpd : ∀ b < kernBase, pd.pte b = Pte.zero)
    (hroom : 2 ≤ m.freelist.length) (h : inituvm pd init m = .ok (pd', m')) : Builds pd m pd' m' ∧
      (∃ g, pd'.pte? 0 = some ⟨⟨true, true, true⟩, g⟩) ∧ (pd'.pte pgSize).present = false := by
  unfold inituvm at h
  split at h
  · cases h
  rw [kallocPage] at h
  cases hfl : m.freelist with
  | nil =>
    rw [hfl] at h
    cases h
  | cons g fl =>
    rw [hfl] at h hroom
    dsimp only at h
    have hfree : ∀ f, m.free f = fl.count f + one g f := fun f => free_cons hfl
    have hblank : (pd.pte 0).present = false := by rw [hpd 0 (by decide)]; rfl
    generalize hm₁ : ({ m with freelist := fl }.setPage g zeroPage) = m₁ at h
    rcases mappages_page_cases (a := 0) (g * pgSize) ⟨false, true, true⟩ true pd m₁ (by decide) (by decide) with
      ⟨hnil, -, -⟩ | ⟨pd₁, m₂, hmap, hmapped⟩
    · rw [← hm₁] at hnil
      simp only [Phys.setPage] at hnil
      rw [hnil] at hroom
      exact absurd hroom (Nat.lt_irrefl 1)
    rw [hmap] at h
    cases h
    have hlay : m₁.layout = m.layout := by rw [← hm₁]; rfl
    rcases mappages_builds (by decide) (by decide) hblank hlay (by rw [← hm₁]; exact hfree) hmap with ⟨-, hb⟩ | ⟨hr, -⟩
    · refine ⟨⟨hb.layout, hb.uses⟩, ⟨g, ?_⟩, ?_⟩
      · rw [hmapped.entry, Nat.mul_div_cancel _ (by decide)]
        rfl
      · rw [hmapped.other pgSize (by decide), hpd pgSize (by decide)]
        rfl
    · cases hr

/-- The first process, as `userinit` leaves it. -/
structure First (s : Kernel) (p : ProcIdx) (d : PageDir) (g : Nat) : Prop where
  state : (s.ptable p).state = .runnable
  sz : (s.ptable p).sz = pgSize
  pgdir : (s.ptable p).pgdir = some d
  kstack : (s.ptable p).kstack ≠ none
  swapList : (s.ptable p).swapList = none
  code : d.pte? 0 = some ⟨⟨true, true, true⟩, g⟩
  next : (d.pte pgSize).present = false

theorem userinit_pages {init : List UInt8} {s s' : Kernel} (hk : Kept s) (hroom : 68 ≤ s.phys.freelist.length)
    (h : userinit init s = .ok s') : ((∀ f, s'.uses f = s.uses f) ∧ Kept s' ∧ s'.phys.layout = s.phys.layout) ∧
      (∃ p d g, First s' p d g) ∧ s'.lru = s.lru ∧ s'.swap = s.swap := by
  unfold userinit at h
  rcases hal : allocproc s with ⟨o, s₁⟩
  rw [hal] at h
  dsimp only at h
  obtain ⟨p, ho, hrest⟩ := bind_eq_ok.1 h
  clear h
  rw [deref_eq_ok] at ho
  subst ho
  obtain ⟨hfind, k, fl, hfl, hs₁⟩ := allocproc_some hal
  have hun : (s.ptable p).state = .unused := by simpa using Fin.eq_true_of_find?_eq_some hfind
  obtain ⟨hks, hpg⟩ := hk.idle p (by rw [Live, not_not]; exact hun)
  obtain ⟨⟨o, m⟩, hset, hrest⟩ := bind_eq_ok.1 hrest
  cases o with
  | none => cases hrest
  | some d =>
    obtain ⟨⟨d₁, m₁⟩, hinit, hrest⟩ := bind_eq_ok.1 hrest
    cases hrest
    dsimp only at hinit
    obtain ⟨hlay, huses⟩ := setupkvm_uses hset
    have hkd : KernelDir s₁.phys d m := by
      rcases setupkvm_cases (m := s₁.phys) with ⟨-, hno⟩ | ⟨pd, m', -, hset', hkd⟩
      · cases hno _ _ hset
      · cases hset'.symm.trans hset
        exact hkd
    have hlen : s₁.phys.freelist.length + 1 = s.phys.freelist.length := by rw [hs₁, hfl]; rfl
    obtain ⟨hb, ⟨g, hcode⟩, hnext⟩ := inituvm_pages (fun b hlt => hkd.pte_user hlt) (by have := hkd.length; omega) hinit
    generalize hs' : ({ s₁.setProc p _ with phys := m₁, initproc := some p } : Kernel) = s'
    have hproc : s'.ptable p = { s₁.ptable p with
        pgdir := some d₁, sz := pgSize, swapList := none, eip := 0, esp := pgSize, name := "initcode".toUTF8.toList
        state := .runnable } := by rw [← hs']; simp
    have hstack : (s₁.ptable p).kstack = some k := by rw [hs₁]; simp
    have hm : Moves p s s' := by
      refine ⟨?_, fun q hq => ?_, fun f => ?_⟩
      · rw [← hs']
        exact hb.layout.trans (hlay.trans (by rw [hs₁]))
      · rw [show s'.ptable q = s.ptable q by simp [← hs', hs₁, Kernel.setProc, hq]]
        exact SameProc.refl _
      · have h1 := hb.uses f
        have h2 := huses f
        have h3 : s.phys.free f = s₁.phys.free f + one k f := by rw [free_cons hfl, hs₁]; rfl
        have h4 : s'.phys = m₁ := by rw [← hs']
        rw [Proc.uses, Proc.uses, hks, hpg, hproc, h4]
        simp only [hstack, Option.elim_some, Option.elim_none] at h2 ⊢
        omega
    refine ⟨⟨hm.uses_eq, hm.kept hk (fun hn => ?_) ?_, hm.layout⟩, ⟨p, d₁, g, ?_⟩, ?_, ?_⟩
    · rw [Live, hproc] at hn
      simp at hn
    · rw [hproc]
      show pgSize ≤ kernBase
      decide
    · exact ⟨by rw [hproc], by rw [hproc], by rw [hproc], by rw [hproc]; simp [hstack], by rw [hproc], hcode, hnext⟩
    · rw [← hs', hs₁]; rfl
    · rw [← hs', hs₁]; rfl

/-- What `main` leaves: every page in its role, and the first process. -/
theorem boot_conserved {ncpu : Nat} {init : List UInt8} {l : Layout} {mem : Nat → Page} {disk : Nat → Block} {fs : Fs} {t : Machine}
    (h : boot ncpu init (loadedKernel l mem disk fs) = .ok t) : t.Conserved l ∧ Kept t.kernel ∧
      (∃ p d g, First t.kernel p d g) ∧ t.kernel.lru = lruInit ∧ t.kernel.swap = swapInit := by
  unfold boot at h
  obtain ⟨m₁, hfree₁, h⟩ := bind_eq_ok.1 h
  obtain ⟨⟨o, m₂⟩, hset, h⟩ := bind_eq_ok.1 h
  obtain ⟨d, ho, hrest⟩ := bind_eq_ok.1 h
  clear h
  rw [deref_eq_ok] at ho
  subst ho
  obtain ⟨⟨stacks', m₃⟩, hstart, hrest⟩ := bind_eq_ok.1 hrest
  obtain ⟨m₄, hfree₂, hrest⟩ := bind_eq_ok.1 hrest
  obtain ⟨s, huser, hrest⟩ := bind_eq_ok.1 hrest
  cases hrest
  simp only [freerange, loadedKernel] at hfree₁ hfree₂
  generalize ha : (pgRoundUp l.kernEnd - kernBase) / pgSize = a at hfree₁
  generalize hn : (entryEnd - pgRoundUp l.kernEnd) / pgSize = n at hfree₁
  generalize hb : (pgRoundUp entryEnd - kernBase) / pgSize = b at hfree₂
  generalize hk : (kernBase + physTop - pgRoundUp entryEnd) / pgSize = k at hfree₂
  obtain ⟨hl₁, hlen₁, hu₁⟩ := kfrees_uses hfree₁
  obtain ⟨hl₂, hu₂⟩ := setupkvm_uses hset
  obtain ⟨hl₃, hu₃⟩ := startothers_uses hstart
  obtain ⟨hl₄, hlen₄, hu₄⟩ := kfrees_uses hfree₂
  simp only [List.length_range', List.length_nil, Nat.zero_add] at hlen₁ hlen₄
  -- without a page below the end of what `entrypgdir` maps there is no directory
  have hend : pgRoundUp l.kernEnd ≤ entryEnd := by
    rcases setupkvm_cases (m := m₁) with ⟨-, hno⟩ | ⟨-, -, hroom, -⟩
    · cases hno _ _ hset
    · by_contra hgt
      rw [hlen₁, ← hn, Nat.sub_eq_zero_of_le (by omega)] at hroom
      exact absurd hroom (by decide)
  have hall := ranges_count hend ha.symm hn.symm hb.symm hk.symm
  have hlay : m₄.layout = l := hl₄.trans (hl₃.trans (hl₂.trans hl₁))
  generalize hs₀ : ({ loadedKernel l mem disk fs with phys := m₄, lru := lruInit, swap := swapInit } : Kernel) = s₀ at huser
  have hproc : ∀ q, s₀.ptable q = Proc.zero := fun q => by rw [← hs₀]; rfl
  have hphys : s₀.phys = m₄ := by rw [← hs₀]
  have huses : ∀ f, s₀.uses f = m₄.free f := fun f => by
    rw [Kernel.uses, tally_zero fun q => by rw [hproc]; rfl, hphys, Nat.add_zero]
  have hsum : ∀ f, m₄.free f + d.uses f + stacks'.count f = if l.Holds f then 1 else 0 := fun f => by
    have h1 := hu₁ f
    have h2 := hu₂ f
    have h3 := hu₃ f
    have h4 := hu₄ f
    have h5 := hall f
    have h0 : Phys.free ⟨l, [], mem⟩ f = 0 := rfl
    simp only [Option.elim_some] at h2
    omega
  have hkept : Kept s₀ := by
    refine ⟨fun q _ => ?_, fun q => ?_, fun f hf => ?_⟩
    · rw [hproc]; exact ⟨rfl, rfl⟩
    · rw [hproc]; exact Nat.zero_le _
    · rw [huses] at hf
      rw [hphys, hlay]
      by_contra hno
      have := hsum f
      rw [if_neg hno] at this
      omega
  have hroom : 68 ≤ s₀.phys.freelist.length := by
    rw [hphys, hlen₄]
    simp only [pgRoundUp, entryEnd, pgSize, kernBase, wordSize, physTop] at hk
    omega
  obtain ⟨⟨huses', hkept', hlay'⟩, hfirst, hlru, hswap⟩ := userinit_pages hkept hroom huser
  refine ⟨⟨hlay'.trans (by rw [hphys]; exact hlay), fun f => ?_⟩, hkept', hfirst, ?_, ?_⟩
  · rw [← hsum f, Machine.roles, huses', huses]
    simp only [List.map_nil, List.count_nil]
    omega
  · rw [hlru, ← hs₀]
  · rw [hswap, ← hs₀]

end Boot

/-! ## Runs -/

/-- Every page between the end of the kernel and `PHYSTOP`, which are those that `freerange` hands to the
allocator, is in one role and in one only, in every state of a run in which no page that is present is
swapped out or mapped over. -/
theorem pages_conserved {ncpu : Nat} {init : List UInt8} {l : Layout} {mem : Nat → Page} {disk : Nat → Block} {fs : Fs}
    {t₀ t : Machine} (hboot : boot ncpu init (loadedKernel l mem disk fs) = .ok t₀)
    (hrun : Relation.ReflTransGen (fun t t' => ∃ c : MachineCall, c.Enabled t ∧ c.Keeps t ∧ c.run t = .ok t') t₀ t) (f : Nat) :
    t.roles f = if l.Holds f then 1 else 0 := by
  have hinv : t.Conserved l ∧ Kept t.kernel := by
    induction hrun with
    | refl =>
      obtain ⟨h, hk, -⟩ := boot_conserved hboot
      exact ⟨h, hk⟩
    | tail _ hstep ih =>
      obtain ⟨c, he, hc, hrun⟩ := hstep
      exact MachineCall.run_roles ih.1 ih.2 he hc hrun
  exact hinv.1.roles f

/-! ### A machine that starts -/

/-- Nothing of the machine but its memory matters. -/
def smallLoaded : Kernel := loadedKernel smallLayout (fun _ => zeroPage) (fun _ _ => 0)
  ⟨fun _ => none, fun _ => ⟨0, fun _ => 0, Nat.zero_le maxFileBytes⟩⟩

theorem kfrees_progress : ∀ (fs : List Nat) (m : Phys), (∀ f ∈ fs, m.layout.Holds f) →
    ∃ m', fs.foldlM (fun m f => kfree f m) m = .ok m'
  | [], m, _ => ⟨m, by rw [List.foldlM_nil, pure_ok]⟩
  | g :: fs, m, h => by
    obtain ⟨m₁, hfree⟩ := kfree_holds.2 (h g List.mem_cons_self)
    obtain ⟨m₂, hrest⟩ := kfrees_progress fs m₁ fun f hf => by
      rw [(kfree_uses hfree 0).1]
      exact h f (List.mem_cons_of_mem g hf)
    exact ⟨m₂, by rw [List.foldlM_cons, hfree, ok_bind, hrest]⟩

theorem userinit_progress {s : Kernel} (init : List UInt8) (hun : (s.ptable 0).state = .unused) (hlen : init.length < pgSize)
    (hroom : 68 ≤ s.phys.freelist.length) : ∃ s', userinit init s = .ok s' := by
  obtain ⟨k, fl, hfl⟩ : ∃ k fl, s.phys.freelist = k :: fl := by
    cases hfl : s.phys.freelist with
    | nil => rw [hfl] at hroom; exact absurd hroom (by decide)
    | cons k fl => exact ⟨k, fl, rfl⟩
  have hfind : Fin.find? (fun i => (s.ptable i).state = .unused) = some 0 := by
    rw [Fin.find?_eq_some_iff]
    exact ⟨by simpa using hun, fun j hj => absurd hj (Nat.not_lt_zero _)⟩
  rw [hfl, List.length_cons] at hroom
  unfold userinit allocproc
  simp only [hfind, kallocPage, Kernel.setProc_phys, hfl, deref_some, ok_bind]
  rcases setupkvm_cases (m := { s.phys with freelist := fl }) with ⟨hlt, -⟩ | ⟨d, m, -, hset, hkd⟩
  · dsimp only at hlt
    omega
  rw [hset]
  simp only [ok_bind]
  have hlen' := hkd.length
  unfold inituvm kallocPage
  rw [if_neg (by omega)]
  cases hfl' : m.freelist with
  | nil =>
    rw [hfl', List.length_nil] at hlen'
    dsimp only at hlen'
    omega
  | cons g fl' => exact ⟨_, rfl⟩

theorem smallLoaded_boot : ∃ t, boot 1 [] smallLoaded = .ok t := by
  have hup : pgRoundUp smallLayout.kernEnd = kernLink + 2 * pgSize := by decide
  have hup' : pgRoundUp entryEnd = entryEnd := by decide
  obtain ⟨m₁, hfree₁⟩ := kfrees_progress (List.range' ((kernLink + 2 * pgSize - kernBase) / pgSize)
    ((entryEnd - (kernLink + 2 * pgSize)) / pgSize)) smallLoaded.phys fun f hf => by
      rw [List.mem_range'_1] at hf
      show smallLayout.kernEnd ≤ _ ∧ _
      have hend : smallLayout.kernEnd = kernLink + 2 * pgSize := rfl
      rw [hend]
      simp only [entryEnd, kernLink, extMem, pgSize, kernBase, physTop] at *
      omega
  obtain ⟨hl₁, hlen₁, -⟩ := kfrees_uses hfree₁
  rw [List.length_range'] at hlen₁
  rcases setupkvm_cases (m := m₁) with ⟨hlt, -⟩ | ⟨d, m₂, -, hset, hkd⟩
  · rw [hlen₁] at hlt
    simp only [entryEnd, kernLink, extMem, pgSize, kernBase] at hlt
    omega
  obtain ⟨m₃, hfree₂⟩ := kfrees_progress (List.range' ((entryEnd - kernBase) / pgSize) ((kernBase + physTop - entryEnd) / pgSize)) m₂
    fun f hf => by
      rw [List.mem_range'_1] at hf
      rw [hkd.takes.layout, hl₁]
      show smallLayout.kernEnd ≤ _ ∧ _
      have hend : smallLayout.kernEnd = kernLink + 2 * pgSize := rfl
      rw [hend]
      simp only [entryEnd, kernLink, extMem, pgSize, kernBase, physTop] at *
      omega
  obtain ⟨-, hlen₃, -⟩ := kfrees_uses hfree₂
  rw [List.length_range'] at hlen₃
  obtain ⟨s, hs⟩ := userinit_progress (s := { smallLoaded with phys := m₃ }) [] rfl (by decide) (by
    simp only [entryEnd, pgSize, kernBase, physTop] at hlen₃ ⊢
    omega)
  refine ⟨⟨s, [], d, []⟩, ?_⟩
  have hb₁ : freerange smallLoaded.phys.layout.kernEnd entryEnd smallLoaded.phys = .ok m₁ := by
    rw [freerange, show smallLoaded.phys.layout = smallLayout from rfl, hup]
    exact hfree₁
  have hb₂ : freerange entryEnd (kernBase + physTop) m₂ = .ok m₃ := by
    rw [freerange, hup']
    exact hfree₂
  have hst : startothers (1 - 1) m₂ = .ok ([], m₂) := rfl
  rw [boot, hb₁, ok_bind, hset]
  simp only [ok_bind, deref_some, hst, hb₂]
  exact bind_eq_ok.2 ⟨s, hs, rfl⟩

/-- A machine starts and makes a pipe. -/
theorem pages_conserved_pipe : ∃ t, boot 1 [] smallLoaded = .ok t ∧
    ∀ f, (pipealloc true t).2.roles f = if smallLayout.Holds f then 1 else 0 := by
  obtain ⟨t, ht⟩ := smallLoaded_boot
  exact ⟨t, ht, pages_conserved ht (.single ⟨.pipealloc true, trivial, trivial, rfl⟩)⟩

/-! ### A page that is lost -/

section Leak

variable {s : Kernel} {p : ProcIdx} {d : PageDir} {g : Nat}

/-- The first process gives one byte back and asks for a page and a byte: `growproc` swaps out the page
that holds its old end, which is present. -/
theorem First.leaks (h : First s p d g) (hlru : s.lru = lruInit) (hswap : s.swap = swapInit) :
    ∃ s₁ s₂, growproc p (-1) s = .ok (0, s₁) ∧ Live s₁ p ∧ growproc p (pgSize + 1) s₁ = .ok (0, s₂) ∧
      ∀ f, s₂.uses f + one g f = s.uses f := by
  obtain ⟨k, hk⟩ := Option.ne_none_iff_exists'.1 h.kstack
  have hsame : ({ s.ptable p with pgdir := some d } : Proc) = s.ptable p := by rw [← h.pgdir]
  generalize hs₁ : s.setProc p { s.ptable p with sz := pgSize - 1 } = s₁
  have hp₁ : s₁.ptable p = { s.ptable p with sz := pgSize - 1 } := by rw [← hs₁]; simp
  have hsz₁ : (s₁.ptable p).sz = pgSize - 1 := by rw [hp₁]
  have hback : growproc p (-1) s = .ok (0, s₁) := by
    unfold growproc deallocuvm
    rw [if_neg (by decide), h.pgdir, deref_some, ok_bind, if_neg (by decide), h.sz]
    have hsz : (((pgSize : Nat) + -1 : Int) % wordSize).toNat = pgSize - 1 := by decide
    rw [hsz, if_neg (by decide), deallocuvmLoop, if_neg (by decide)]
    simp only [ok_bind, pure_ok, Kernel.setPgdir, hsame]
    have hswitch : switchuvm p s₁ = .ok () := switchuvm_ok (by rw [hp₁]; exact hk) (by rw [hp₁]; exact h.pgdir)
    rw [if_neg (by decide)]
    simp only [Kernel.setProc, Function.update_eq_self] at hs₁ ⊢
    rw [hs₁, hswitch]
    rfl
  -- the page after the old end gets an entry; the one before it keeps its own
  have htab : pdx pgSize ∈ d.present := by
    rw [show pdx pgSize = pdx 0 from rfl, mem_present, Ne, ← pte?_eq_none, h.code]
    simp
  rcases mappages_page_cases (a := pgSize) 0 ⟨false, true, true⟩ false d s.phys (by decide) (by decide) with
    ⟨-, hno, -⟩ | ⟨d', m, hmap, hmapped⟩
  · exact absurd htab hno
  have hcode : d'.pte? (pgSize - 1) = some ⟨⟨true, true, true⟩, g⟩ := by
    rw [pte?_page (b := 0) (by decide)]
    have hold := hmapped.other 0 (by decide)
    cases hq : d'.pte? 0 with
    | none =>
      rw [pte?_eq_none] at hq
      exact absurd hq (mem_present.1 (hmapped.grows htab))
    | some x =>
      rw [PageDir.pte, PageDir.pte, hq, h.code] at hold
      exact congrArg some hold
  have hgrow : growproc p (pgSize + 1) s₁ = .ok (0, s₁.grown p m [] 0 d' ⟨⟨true, true, true⟩, g⟩ (2 * pgSize)) := by
    have hpd : (s₁.ptable p).pgdir = some d := by rw [hp₁]; exact h.pgdir
    have hmap₁ : mappages d (pgRoundUp (s₁.ptable p).sz) pgSize 0 ⟨false, true, true⟩ false s₁.phys = (0, d', m) := by
      rw [hsz₁, ← hs₁]; exact hmap
    have hlist : SwapList s₁.swap (s₁.ptable p).swapList [] := by rw [hp₁, ← hs₁]; exact h.swapList
    have hfree : freeSlot? s₁.swap = some 0 := by rw [← hs₁, Kernel.setProc_swap, hswap]; exact freeSlot?_init
    have hqueue : Queue s₁.lru [] := by rw [← hs₁, Kernel.setProc_lru, hlru]; exact lruInit_queue
    refine growproc_page (by decide) (by rw [hsz₁]; decide) (by decide) (by rw [hsz₁]; decide) (by rw [hsz₁]; decide) hpd
      (by rw [hp₁]; exact hk) hmap₁ hlist ?_ hfree (by rw [hsz₁]; exact hcode) hqueue (by simp)
    rw [← hs₁]
    exact congrArg Swap.lk hswap
  refine ⟨s₁, _, hback, ?_, hgrow, fun f => ?_⟩
  · rw [Live, hp₁]
    simp [h.state]
  · obtain ⟨hb, -⟩ := mappages_blank (by decide) (by decide) h.next hmap
    have h1 := hb.uses f
    have h2 := uses_setPte ⟨⟨false, true, true⟩, g⟩ (by decide) hcode f
    rw [uses_of_present rfl, uses_of_not_present rfl] at h2
    generalize hs₂ : s₁.grown p m [] 0 d' ⟨⟨true, true, true⟩, g⟩ (2 * pgSize) = s₂
    have hphys : s₂.phys = m := by rw [← hs₂]; rfl
    have hp₂ : (s₂.ptable p).uses f = one k f + (d'.setPte (pgSize - 1) ⟨⟨false, true, true⟩, g⟩).uses f := by
      rw [← hs₂, Kernel.grown, Kernel.setProc_same, swappedOut_self, Kernel.setProc_same, hp₁]
      simp only [Proc.uses, hk, Option.elim_some]
    have hp₀ : (s.ptable p).uses f = one k f + d.uses f := by
      simp only [Proc.uses, hk, h.pgdir, Option.elim_some]
    have h3 := tally_exchange (g := fun q => (s₂.ptable q).uses f) (h := fun q => (s.ptable q).uses f) p fun q hq => by
      rw [← hs₂, ← hs₁]
      simp [Kernel.grown, Kernel.setProc, Kernel.swappedOut, hq]
    rw [Kernel.uses, Kernel.uses, hphys]
    dsimp only at h2 h3
    omega

/-- A page is lost: it is between the end of the kernel and `PHYSTOP` and has no role. -/
theorem pages_not_conserved : ∃ t₀ t f, boot 1 [] smallLoaded = .ok t₀ ∧
    Relation.ReflTransGen (fun t t' => ∃ c : MachineCall, c.Enabled t ∧ c.run t = .ok t') t₀ t ∧
    smallLayout.Holds f ∧ t.roles f = 0 := by
  obtain ⟨t₀, hboot⟩ := smallLoaded_boot
  obtain ⟨hcons, hk, ⟨p, d, g, hfirst⟩, hlru, hswap⟩ := boot_conserved hboot
  obtain ⟨s₁, s₂, hback, hlive, hgrow, huses⟩ := hfirst.leaks hlru hswap
  refine ⟨t₀, { t₀ with kernel := s₂ }, g, hboot, ?_, ?_, ?_⟩
  · refine .tail (b := { t₀ with kernel := s₁ }) (.single ⟨.sys (.growproc p (-1)), ?_, ?_⟩)
      ⟨.sys (.growproc p (pgSize + 1)), hlive, ?_⟩
    · show (t₀.kernel.ptable p).state ≠ _
      rw [hfirst.state]
      simp
    · simp [MachineCall.run, SysCall.run, hback]
    · simp only [MachineCall.run, SysCall.run, hgrow, ok_bind, pure_ok]
  · rw [← hcons.layout]
    refine hk.holds g ?_
    have h1 := huses g
    rw [one, if_pos rfl] at h1
    omega
  · have h1 := huses g
    have h2 := hcons.roles g
    rw [one, if_pos rfl] at h1
    have h3 : (if smallLayout.Holds g then 1 else 0) ≤ 1 := by split <;> decide
    rw [Machine.roles] at h2 ⊢
    dsimp only
    omega

end Leak

end DemandPaging
