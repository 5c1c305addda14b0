/-
Swap slots over the life of processes. In every state reached by forking, swapping pages out and
in, exiting and waiting, each slot on the list of a live process is in use and counts the live
processes that list it, provided that only processes that share their list with nobody swap a page
out, take one in or are reaped: `fork` shares the list itself and not only the slots.
-/
import DemandPaging.Paging.Copy
import DemandPaging.Paging.Swapping
import DemandPaging.Swap.Ownership

namespace DemandPaging

open Chain

/-! ## The property -/

/-- A process that is not `UNUSED`. -/
def Live (s : Kernel) (p : ProcIdx) : Prop := (s.ptable p).state ≠ .unused

instance (s : Kernel) (p : ProcIdx) : Decidable (Live s p) := inferInstanceAs (Decidable (_ ≠ _))

/-- The slot is reached along `next` from the `swap_list` of the process. -/
def Lists (s : Kernel) (p : ProcIdx) (i : SlotIdx) : Prop :=
  ∃ head, (s.ptable p).swapList = some head ∧
    Relation.ReflTransGen (fun i j => (s.swap.frames i).next = some j) head i

/-- The live processes whose lists reach a slot. -/
noncomputable def listers (s : Kernel) (i : SlotIdx) : Finset ProcIdx :=
  open Classical in Finset.univ.filter fun q => Live s q ∧ Lists s q i

theorem mem_listers {s : Kernel} {i : SlotIdx} {q : ProcIdx} : q ∈ listers s i ↔ Live s q ∧ Lists s q i := by
  simp [listers]

/-- Every slot on the list of a live process is in use and counts the live processes that list it. -/
def SlotsOwned (s : Kernel) : Prop :=
  ∀ p i, Live s p → Lists s p i → s.swap.bitmap i = 1 ∧ (s.swap.frames i).count = (listers s i).card

/-- No other live process lists a slot of this one. -/
def Private (s : Kernel) (p : ProcIdx) : Prop := ∀ q, Live s q → q ≠ p → ∀ i, Lists s p i → ¬ Lists s q i

/-- Pids are unique and unused entries have no page directory. -/
structure IdsOk (s : Kernel) : Prop where
  unique : ∀ p q, (s.ptable p).pid = (s.ptable q).pid → (s.ptable p).pid ≠ 0 → p = q
  pos : ∀ p, Live s p → (s.ptable p).pid ≠ 0
  lt : ∀ p, (s.ptable p).pid < s.nextpid
  next : 0 < s.nextpid
  dir : ∀ p, ¬ Live s p → (s.ptable p).pgdir = none

/-- Before the first page is swapped out. -/
structure Booted (s : Kernel) : Prop where
  ids : IdsOk s
  empty : ∀ p, (s.ptable p).swapList = none

/-- The invariant: well-formed lists with the right bits and counts. -/
structure OwnInv (s : Kernel) (L : ProcIdx → List SlotIdx) : Prop where
  ids : IdsOk s
  owns : Owns (Live s) s.swap (fun p => (s.ptable p).swapList) L

section State

variable {s s' : Kernel} {L : ProcIdx → List SlotIdx} {p : ProcIdx}

theorem Owns.lists_iff {A : ProcIdx → Prop} (h : Owns A s.swap (fun p => (s.ptable p).swapList) L) (hp : A p) {i : SlotIdx} :
    Lists s p i ↔ i ∈ L p :=
  ((h.list p hp).mem_iff_reach).symm

theorem OwnInv.slotsOwned (h : OwnInv s L) : SlotsOwned s := by
  intro p i hp hi
  have hiL := (h.owns.lists_iff hp).1 hi
  refine ⟨h.owns.bit p hp i hiL, ?_⟩
  rw [h.owns.count p hp i hiL]
  congr 2
  ext q
  rw [mem_owners, mem_listers]
  constructor
  · rintro ⟨hq, hm⟩; exact ⟨hq, (h.owns.lists_iff hq).2 hm⟩
  · rintro ⟨hq, hm⟩; exact ⟨hq, (h.owns.lists_iff hq).1 hm⟩

theorem OwnInv.alone (h : OwnInv s L) (hp : Live s p) (hpr : Private s p) : Alone (Live s) L p :=
  fun q hq hqp _ hi hi' => hpr q hq hqp _ ((h.owns.lists_iff hp).2 hi) ((h.owns.lists_iff hq).2 hi')

theorem Booted.ownInv (h : Booted s) : OwnInv s fun _ => [] :=
  ⟨h.ids, fun p _ => h.empty p, fun _ _ _ _ => Or.inl rfl, by simp, by simp⟩

/-- `get_proc` finds the process with a given pid. -/
theorem getProc_eq (h : ∀ q, (s.ptable q).pid = (s.ptable p).pid → q = p) : getProc (s.ptable p).pid s = some p := by
  unfold getProc
  rw [Fin.find?_eq_some_iff]
  refine ⟨by simp, fun j hj => ?_⟩
  have hne : (s.ptable j).pid ≠ (s.ptable p).pid := fun he => absurd (h j he) (Fin.ne_of_lt hj)
  simpa using hne

theorem IdsOk.getProc_eq (h : IdsOk s) (hp : Live s p) : getProc (s.ptable p).pid s = some p :=
  DemandPaging.getProc_eq fun q hq => h.unique q p hq (by rw [hq]; exact h.pos p hp)

theorem IdsOk.frame {list : Option SlotIdx} (h : IdsOk s) (hf : SwapFrame p list s s') (hp : Live s p) : IdsOk s' := by
  have hlive : ∀ q, Live s' q ↔ Live s q := fun q => by rw [Live, Live, hf.state q]
  refine ⟨fun q r => ?_, fun q hq => ?_, fun q => ?_, by rw [hf.nextpid]; exact h.next, fun q hq => ?_⟩
  · rw [hf.pid q, hf.pid r]; exact h.unique q r
  · rw [hf.pid q]; exact h.pos q ((hlive q).1 hq)
  · rw [hf.pid q, hf.nextpid]; exact h.lt q
  · rw [hlive q] at hq
    rw [hf.other q (by rintro rfl; exact hq hp)]
    exact h.dir q hq

theorem SwapFrame.live {list : Option SlotIdx} (hf : SwapFrame p list s s') : Live s' = Live s := by
  funext q; rw [Live, Live, hf.state q]

/-! ## Swapping -/

theorem out_step (h : OwnInv s L) (hp : Live s p) (hpr : Private s p) {kind : SwapKind} {vaddr : Nat} {r : Int}
    (hout : swapOutFunc kind p vaddr s = .ok (r, s')) : ∃ L', OwnInv s' L' := by
  rw [swapOutFunc_eq] at hout
  obtain ⟨slot, list, sw, hlink, hsw, hf, -⟩ := swapOutWith_ok hout
  obtain ⟨L', hL', -⟩ := h.owns.linkSlot hp (h.alone hp hpr) hlink
  refine ⟨L', h.ids.frame hf hp, ?_⟩
  rw [hsw, hf.swapList, hf.live]
  exact hL'

theorem take_step (h : OwnInv s L) (hp : Live s p) {kind : SwapKind} {vaddr : Nat} {r : Int}
    (hpr : Private s p ∨ ∀ i, Lists s p i → (s.swap.frames i).vaddr ≠ vaddr)
    (htake : swapInFunc kind p vaddr s = .ok (r, s')) : ∃ L', OwnInv s' L' := by
  rw [swapInFunc_eq] at htake
  obtain ⟨slot, list, sw, htake, hsw, -, hf⟩ := swapInWith_ok htake
  have hal : Alone (Live s) L p ∨ ∀ i ∈ L p, (s.swap.frames i).vaddr ≠ vaddr := by
    rcases hpr with hpr | hno
    · exact Or.inl (h.alone hp hpr)
    · exact Or.inr fun i hi => hno i ((h.owns.lists_iff hp).2 hi)
  obtain ⟨L', hL'⟩ := h.owns.takeSlot hp hal htake
  refine ⟨L', h.ids.frame hf hp, ?_⟩
  rw [hsw, hf.swapList, hf.live]
  exact hL'

/-! ## Exit and wait -/

theorem exit_ok (h : exit p s = .ok s') : s'.swap = s.swap ∧ s'.nextpid = s.nextpid ∧
    ∀ q, ∃ parent, s'.ptable q =
      { s.ptable q with parent := parent, state := if q = p then .zombie else (s.ptable q).state } := by
  unfold exit at h
  split at h
  · cases h
  · cases h; exact ⟨rfl, rfl, fun q => ⟨_, rfl⟩⟩

theorem exit_settled (h : IdsOk s) (hp : Live s p) (hex : exit p s = .ok s') :
    IdsOk s' ∧ s'.swap = s.swap ∧ (∀ q, Live s' q ↔ Live s q) ∧ ∀ q, (s'.ptable q).swapList = (s.ptable q).swapList := by
  obtain ⟨hsw, hnext, hproc⟩ := exit_ok hex
  have hpid : ∀ q, (s'.ptable q).pid = (s.ptable q).pid := fun q => by obtain ⟨_, e⟩ := hproc q; rw [e]
  have hdir : ∀ q, (s'.ptable q).pgdir = (s.ptable q).pgdir := fun q => by obtain ⟨_, e⟩ := hproc q; rw [e]
  have hlist : ∀ q, (s'.ptable q).swapList = (s.ptable q).swapList := fun q => by obtain ⟨_, e⟩ := hproc q; rw [e]
  have hlive : ∀ q, Live s' q ↔ Live s q := by
    intro q
    obtain ⟨_, e⟩ := hproc q
    rw [Live, Live, e]
    by_cases hq : q = p
    · subst hq; simpa [Live] using hp
    · simp [hq]
  refine ⟨⟨fun q r => ?_, fun q hq => ?_, fun q => ?_, by rw [hnext]; exact h.next, fun q hq => ?_⟩, hsw, hlive, hlist⟩
  · rw [hpid q, hpid r]; exact h.unique q r
  · rw [hpid q]; exact h.pos q ((hlive q).1 hq)
  · rw [hpid q, hnext]; exact h.lt q
  · rw [hdir q]; exact h.dir q fun hc => hq ((hlive q).2 hc)

theorem exit_step (h : OwnInv s L) (hp : Live s p) (hex : exit p s = .ok s') : OwnInv s' L := by
  obtain ⟨hids, hsw, hlive, hlist⟩ := exit_settled h.ids hp hex
  refine ⟨hids, ?_⟩
  rw [hsw, show Live s' = Live s from funext fun q => propext (hlive q)]
  exact h.owns.congr_lists fun q _ => hlist q

/-- What freeing an exited child leaves of the processes and of the swap table. -/
theorem reap_ok {c : ProcIdx} {pid : Int} (hpid : getProc (s.ptable c).pid s = some c) (h : reap c s = .ok (pid, s')) :
    s'.nextpid = s.nextpid ∧ (∀ q, q ≠ c → s'.ptable q = s.ptable q) ∧
      (s'.ptable c).state = .unused ∧ (s'.ptable c).pid = 0 ∧ (s'.ptable c).pgdir = none ∧
      (((s.ptable c).forked = true ∧ s'.swap = s.swap) ∨
        ∃ list, freeSlots (s.ptable c).swapList s.swap = .ok (list, s'.swap)) := by
  unfold reap at h
  dsimp only at h
  split at h
  · cases h
  · obtain ⟨m, -, h⟩ := bind_eq_ok.1 h
    obtain ⟨l, -, h⟩ := bind_eq_ok.1 h
    obtain ⟨s₁, hfree, h⟩ := bind_eq_ok.1 h
    generalize hs₀ : ({ ({ s with phys := m } : Kernel).setProc c
      { ({ s with phys := m } : Kernel).ptable c with kstack := none } with lru := l } : Kernel) = s₀ at hfree
    have hp₀ : ∀ q, s₀.ptable q = if q = c then { s.ptable c with kstack := none } else s.ptable q := by
      intro q; rw [← hs₀]; simp [Kernel.setProc_ptable]
    have hg : getProc (s.ptable c).pid s₀ = some c := by
      rw [getProc_congr s s₀ fun q => ?_, hpid]
      rw [hp₀]; split <;> simp_all
    have hsw₀ : s₀.swap = s.swap := by rw [← hs₀]; rfl
    have hn₀ : s₀.nextpid = s.nextpid := by rw [← hs₀]; rfl
    have hs₁ : s₁.nextpid = s₀.nextpid ∧ (∀ q, q ≠ c → s₁.ptable q = s₀.ptable q) ∧
        (((s₀.ptable c).forked = true ∧ s₁.swap = s₀.swap) ∨
          ∃ list, freeSlots (s₀.ptable c).swapList s₀.swap = .ok (list, s₁.swap)) := by
      rcases swapFree_cases hfree with ⟨hn, -⟩ | ⟨q, hq, hcase⟩
      · rw [hg] at hn; cases hn
      · rw [hg] at hq; cases hq
        rcases hcase with ⟨hf, rfl⟩ | ⟨-, list, sw, hfs, rfl⟩
        · exact ⟨rfl, fun q hq => by simp [Kernel.setSwap_ptable, hq], Or.inl ⟨hf, rfl⟩⟩
        · exact ⟨rfl, fun q hq => by simp [Kernel.setSwap_ptable, hq], Or.inr ⟨list, hfs⟩⟩
    split at h
    · cases h
    · obtain ⟨m', -, h⟩ := bind_eq_ok.1 h
      cases h
      refine ⟨hs₁.1.trans hn₀, fun q hq => ?_, by simp, by simp, by simp, ?_⟩
      · simp [Kernel.setProc_ptable, hq, hs₁.2.1 q hq, hp₀]
      · have hc := hs₁.2.2
        rw [hp₀, if_pos rfl, hsw₀] at hc
        exact hc

theorem reap_settled (h : IdsOk s) {c : ProcIdx} (hc : Live s c) {pid : Int} (hreap : reap c s = .ok (pid, s')) :
    IdsOk s' ∧ (∀ q, Live s' q ↔ Live s q ∧ q ≠ c) ∧ (∀ q, q ≠ c → (s'.ptable q).swapList = (s.ptable q).swapList) ∧
      (((s.ptable c).forked = true ∧ s'.swap = s.swap) ∨
        ∃ list, freeSlots (s.ptable c).swapList s.swap = .ok (list, s'.swap)) := by
  obtain ⟨hnext, hother, hst, hpid, hdir, hswap⟩ := reap_ok (h.getProc_eq hc) hreap
  have hlive : ∀ q, Live s' q ↔ Live s q ∧ q ≠ c := by
    intro q
    by_cases hq : q = c
    · subst hq; simp [Live, hst]
    · rw [Live, hother q hq]; simp [Live, hq]
  refine ⟨⟨fun q r he hne => ?_, fun q hq => ?_, fun q => ?_, by rw [hnext]; exact h.next, fun q hq => ?_⟩, hlive,
    fun q hq => by rw [hother q hq], hswap⟩
  · have hqc : q ≠ c := by rintro rfl; exact hne hpid
    have hrc : r ≠ c := by rintro rfl; rw [he] at hne; exact hne hpid
    rw [hother q hqc, hother r hrc] at he
    rw [hother q hqc] at hne
    exact h.unique q r he hne
  · rw [hlive] at hq
    rw [hother q hq.2]; exact h.pos q hq.1
  · by_cases hqc : q = c
    · subst hqc; rw [hpid, hnext]; exact h.next
    · rw [hother q hqc, hnext]; exact h.lt q
  · by_cases hqc : q = c
    · subst hqc; exact hdir
    · rw [hother q hqc]
      exact h.dir q fun hc => hq ((hlive q).2 ⟨hc, hqc⟩)

theorem reap_step (h : OwnInv s L) {c : ProcIdx} (hc : Live s c) (hpr : Private s c) {pid : Int}
    (hreap : reap c s = .ok (pid, s')) : OwnInv s' L := by
  obtain ⟨hids, hlive, hl, hswap⟩ := reap_settled h.ids hc hreap
  have hal := h.alone hc hpr
  refine ⟨hids, ?_⟩
  rw [show Live s' = fun q => Live s q ∧ q ≠ c from funext fun q => propext (hlive q)]
  rcases hswap with ⟨-, hsw⟩ | ⟨list, hfree⟩
  · exact h.owns.drop hal hl (by rw [hsw]) fun i _ => by rw [hsw]
  · rw [freeSlots_eq (h.owns.list c hc) (freeSlots_inv hfree).1] at hfree
    simp only [Except.ok.injEq, Prod.mk.injEq] at hfree
    rw [← hfree.2]
    exact h.owns.drop hal hl rfl fun i hi => by simp [Swap.cleared, hi]

/-! ## Fork -/

/-- What of the processes stays while the address space is copied. -/
structure Settled (A : ProcIdx → Prop) (s s' : Kernel) : Prop where
  nextpid : s'.nextpid = s.nextpid
  state : ∀ q, (s'.ptable q).state = (s.ptable q).state
  pid : ∀ q, (s'.ptable q).pid = (s.ptable q).pid
  outside : ∀ q, ¬ A q → (s'.ptable q).pgdir = (s.ptable q).pgdir

theorem Settled.refl (A : ProcIdx → Prop) (s : Kernel) : Settled A s s := ⟨rfl, fun _ => rfl, fun _ => rfl, fun _ _ => rfl⟩

/-- A property of the table and of the lists of some processes that survives a `swap_out*` of one of them. -/
structure ListsStable (A : ProcIdx → Prop) (R : Swap → (ProcIdx → Option SlotIdx) → Prop) : Prop where
  congr : ∀ {sw : Swap} {lists lists' : ProcIdx → Option SlotIdx}, R sw lists → (∀ q, A q → lists' q = lists q) → R sw lists'
  link : ∀ {sw sw' : Swap} {lists : ProcIdx → Option SlotIdx} {q : ProcIdx} {kind : SwapKind} {vaddr : Nat}
    {slot list : Option SlotIdx}, R sw lists → A q → linkSlot kind vaddr (lists q) sw = .ok (slot, list, sw') →
      R sw' (Function.update lists q list)

/-- Evictions hit processes with a page directory. -/
theorem ListsStable.alloc {A : ProcIdx → Prop} {R : Swap → (ProcIdx → Option SlotIdx) → Prop} {s₁ : Kernel}
    (hR : ListsStable A R) (hdir : ∀ q, ¬ A q → (s₁.ptable q).pgdir = none) :
    AllocStable fun s => R s.swap (fun q => (s.ptable q).swapList) ∧ Settled A s₁ s ∧
      ∀ q, ¬ A q → s.ptable q = s₁.ptable q where
  lru := fun _ _ h => ⟨h.1, ⟨h.2.1.nextpid, h.2.1.state, h.2.1.pid, h.2.1.outside⟩, h.2.2⟩
  phys := fun _ _ h => ⟨h.1, ⟨h.2.1.nextpid, h.2.1.state, h.2.1.pid, h.2.1.outside⟩, h.2.2⟩
  buffer := by
    rintro s q pg ⟨hr, hset, hout⟩ hq
    have hAq : A q := by
      by_contra hn
      rw [hout q hn, hdir q hn] at hq
      exact hq rfl
    have hptab : ∀ r, ∃ pg', (s.setProc q { s.ptable q with writeBuffer := pg }).ptable r =
        { s.ptable r with writeBuffer := pg' } := by
      intro r
      rw [Kernel.setProc_ptable]
      split
      · next hr => subst hr; exact ⟨pg, rfl⟩
      · exact ⟨(s.ptable r).writeBuffer, rfl⟩
    refine ⟨hR.congr hr fun r _ => ?_, ⟨hset.nextpid, fun r => ?_, fun r => ?_, fun r hr => ?_⟩, fun r hr => ?_⟩
    · obtain ⟨_, e⟩ := hptab r; rw [e]
    · obtain ⟨_, e⟩ := hptab r; rw [e]; exact hset.state r
    · obtain ⟨_, e⟩ := hptab r; rw [e]; exact hset.pid r
    · obtain ⟨_, e⟩ := hptab r; rw [e]; exact hset.outside r hr
    · rw [Kernel.setProc_ptable, if_neg (by rintro rfl; exact hr hAq)]
      exact hout r hr
  out := by
    rintro s s' q vaddr r ⟨hr, hset, hout⟩ hq hswap
    have hAq : A q := by
      by_contra hn
      rw [hout q hn, hdir q hn] at hq
      exact hq rfl
    rw [swapOutFunc_eq] at hswap
    obtain ⟨slot, list, sw, hlink, hsw, hf, -⟩ := swapOutWith_ok hswap
    have hother : ∀ t, ¬ A t → s'.ptable t = s.ptable t := fun t ht => hf.other t (by rintro rfl; exact ht hAq)
    refine ⟨?_, ⟨hf.nextpid.trans hset.nextpid, fun t => (hf.state t).trans (hset.state t),
      fun t => (hf.pid t).trans (hset.pid t), fun t ht => ?_⟩, fun t ht => (hother t ht).trans (hout t ht)⟩
    · rw [hsw, hf.swapList]
      exact hR.link hr hAq hlink
    · rw [hother t ht]; exact hset.outside t ht

theorem owns_stable (A : ProcIdx → Prop) : ListsStable A fun sw lists => ∃ L, Owns A sw lists L ∧ ∀ q, A q → Alone A L q where
  congr := fun ⟨L, hL, hal⟩ hl => ⟨L, hL.congr_lists hl, hal⟩
  link := fun ⟨_, hL, hal⟩ hq hlink => by
    obtain ⟨L', hL', hal'⟩ := hL.linkSlot hq (hal _ hq) hlink
    exact ⟨L', hL', hal' hal⟩

section Copy

variable {A : ProcIdx → Prop} {s₁ s₂ : Kernel}

theorem Settled.trans {s₀ : Kernel} (h : Settled A s₀ s₁) (h' : Settled A s₁ s₂) : Settled A s₀ s₂ :=
  ⟨h'.nextpid.trans h.nextpid, fun q => (h'.state q).trans (h.state q), fun q => (h'.pid q).trans (h.pid q),
    fun q hq => (h'.outside q hq).trans (h.outside q hq)⟩

theorem swapFree_settled {pid : Int} (h : swapFree pid s₁ = .ok s₂) : Settled A s₁ s₂ := by
  have hset : ∀ q list sw, Settled A s₁ (s₁.setSwap q list sw) := fun q list sw => by
    have hptab : ∀ r, ∃ l, (s₁.setSwap q list sw).ptable r = { s₁.ptable r with swapList := l } := by
      intro r
      rw [Kernel.setSwap_ptable]
      split
      · next hr => subst hr; exact ⟨list, rfl⟩
      · exact ⟨(s₁.ptable r).swapList, rfl⟩
    refine ⟨rfl, fun r => ?_, fun r => ?_, fun r _ => ?_⟩ <;> obtain ⟨_, e⟩ := hptab r <;> rw [e]
  rcases swapFree_cases h with ⟨-, rfl⟩ | ⟨q, -, ⟨-, rfl⟩ | ⟨-, list, sw, -, rfl⟩⟩
  · exact .refl A _
  · exact hset q none s₁.swap
  · exact hset q list sw

theorem copyuvm_settled {old new : ProcIdx} {d : Option PageDir} (hdir : ∀ q, ¬ A q → (s₁.ptable q).pgdir = none)
    (h : copyuvm old new s₁ = .ok (d, s₂)) : Settled A s₁ s₂ := by
  unfold copyuvm at h
  obtain ⟨⟨d₀, m⟩, -, h⟩ := bind_eq_ok.1 h
  cases d₀ with
  | none => cases h; exact ⟨rfl, fun _ => rfl, fun _ => rfl, fun _ _ => rfl⟩
  | some d₀ =>
    obtain ⟨⟨done, d₁, s₃⟩, hloop, h⟩ := bind_eq_ok.1 h
    have hany : ListsStable A fun _ _ => True := ⟨fun _ _ => trivial, fun _ _ _ => trivial⟩
    have hdir' : ∀ q, ¬ A q → (({ s₁ with phys := m } : Kernel).ptable q).pgdir = none := hdir
    obtain ⟨-, hset, -⟩ := (hany.alloc hdir').copyuvmLoop ⟨trivial, .refl A _, fun _ _ => rfl⟩ hloop
    have hset₃ : Settled A s₁ s₃ := ⟨hset.nextpid, hset.state, hset.pid, hset.outside⟩
    dsimp only at h
    split at h
    · cases h; exact hset₃
    · obtain ⟨l, -, h⟩ := bind_eq_ok.1 h
      obtain ⟨s₄, hfree, h⟩ := bind_eq_ok.1 h
      obtain ⟨m', -, h⟩ := bind_eq_ok.1 h
      cases h
      have hset₄ : Settled A { s₃ with lru := l } s₄ := swapFree_settled hfree
      exact hset₃.trans ⟨hset₄.nextpid, hset₄.state, hset₄.pid, hset₄.outside⟩

theorem copyuvmLoop_owns {t u : Kernel} (hown : Owns A t.swap (fun q => (t.ptable q).swapList) L)
    (hdir : ∀ q, ¬ A q → (t.ptable q).pgdir = none) {old new : ProcIdx} {n i : Nat} {mem : Option Nat} {d d' : PageDir}
    {done : Bool} (hroom : n ≤ freeEntries t.lru ∨ ∀ q, A q → Alone A L q)
    (h : copyuvmLoop old new n i mem d t = .ok (done, d', u)) :
    (∃ L', Owns A u.swap (fun q => (u.ptable q).swapList) L') ∧ Settled A t u ∧
      ∀ q, ¬ A q → u.ptable q = t.ptable q := by
  rcases hroom with hroom | hal
  · obtain ⟨l, m, rfl⟩ := copyuvmLoop_room hroom h
    exact ⟨⟨L, hown⟩, ⟨rfl, fun _ => rfl, fun _ => rfl, fun _ _ => rfl⟩, fun _ _ => rfl⟩
  · obtain ⟨⟨L', hL', -⟩, h2, h3⟩ := ((owns_stable A).alloc hdir).copyuvmLoop ⟨⟨L, hown, hal⟩, .refl A t, fun _ _ => rfl⟩ h
    exact ⟨⟨L', hL'⟩, h2, h3⟩

/-- `copyuvm` for a new process: a failure frees the list its entry was left with, which must be
empty, or not be freed because of the flag, unless there are pages enough to succeed. -/
theorem copyuvm_owns (hown : Owns A s₁.swap (fun q => (s₁.ptable q).swapList) L)
    (hdir : ∀ q, ¬ A q → (s₁.ptable q).pgdir = none) {old new : ProcIdx} {d : Option PageDir} (hnew : ¬ A new)
    (hpid : getProc (s₁.ptable new).pid s₁ = some new)
    (hroom : ((s₁.ptable old).sz + pgSize - 1) / pgSize ≤ freeEntries s₁.lru ∨ ∀ q, A q → Alone A L q)
    (hleft : (s₁.ptable new).swapList = none ∨ (s₁.ptable new).forked = true ∨ ((s₁.ptable old).sz ≤ kernBase ∧
      65 + 2 * (((s₁.ptable old).sz + pgSize - 1) / pgSize) ≤ s₁.phys.freelist.length))
    (h : copyuvm old new s₁ = .ok (d, s₂)) : ∃ L', Owns A s₂.swap (fun q => (s₂.ptable q).swapList) L' := by
  unfold copyuvm at h
  obtain ⟨⟨d₀, m⟩, hset, h⟩ := bind_eq_ok.1 h
  cases d₀ with
  | none => cases h; exact ⟨L, hown⟩
  | some d₀ =>
    obtain ⟨⟨done, d₁, s₃⟩, hloop, h⟩ := bind_eq_ok.1 h
    have hloop' := copyuvmLoop_owns (t := { s₁ with phys := m }) hown hdir hroom hloop
    obtain ⟨⟨L', hL'⟩, hset', hout⟩ := hloop'
    dsimp only at h
    split at h
    · cases h; exact ⟨L', hL'⟩
    · next hdone =>
      obtain ⟨l, -, h⟩ := bind_eq_ok.1 h
      obtain ⟨s₄, hfree, h⟩ := bind_eq_ok.1 h
      obtain ⟨m', -, h⟩ := bind_eq_ok.1 h
      cases h
      have hnew₃ : s₃.ptable new = s₁.ptable new := hout new hnew
      have hg : getProc (s₃.ptable new).pid { s₃ with lru := l } = some new := by
        rw [getProc_congr s₁ { s₃ with lru := l } hset'.pid, hnew₃, hpid]
      -- whatever happens to the entry's own list, the others are not touched
      have hcase : (∀ q, q ≠ new → s₄.ptable q = s₃.ptable q) ∧ s₄.swap.bitmap = s₃.swap.bitmap ∧
          s₄.swap.frames = s₃.swap.frames := by
        rcases swapFree_cases hfree with ⟨hn, -⟩ | ⟨q, hq, hcase⟩
        · rw [hg] at hn; cases hn
        · rw [hg] at hq; cases hq
          rcases hcase with ⟨-, rfl⟩ | ⟨hfk, list, sw, hfs, rfl⟩
          · exact ⟨fun q hq => by simp [Kernel.setSwap_ptable, hq], rfl, rfl⟩
          · refine ⟨fun q hq => by simp [Kernel.setSwap_ptable, hq], ?_⟩
            rcases hleft with hnil | hfk' | ⟨hsz, henough⟩
            · have hnil₃ : (s₃.ptable new).swapList = none := by rw [hnew₃, hnil]
              simp only [hnil₃] at hfs
              rw [freeSlots_eq (L := []) rfl (freeSlots_inv hfs).1] at hfs
              cases hfs
              simp [Kernel.setSwap, Swap.cleared]
            · have : (s₃.ptable new).forked = true := by rw [hnew₃, hfk']
              rw [this] at hfk; cases hfk
            · -- with enough pages the copy has not failed
              exfalso
              apply hdone
              refine copyuvmLoop_done (i := 0) (by decide) ?_ ?_ hloop
              · simp only [pgSize, kernBase, wordSize] at *; omega
              · rcases setupkvm_cases (m := s₁.phys) with ⟨hlt, hno⟩ | ⟨pd, m₁, -, he, hk⟩
                · cases hno _ _ hset
                · rw [hset] at he
                  cases he
                  have := hk.length
                  simp only
                  omega
      obtain ⟨ho₄, hb₄, hf₄⟩ := hcase
      refine ⟨L', (hL'.congr hb₄ hf₄).congr_lists fun q hq => ?_⟩
      rw [show (({ s₄ with phys := m' } : Kernel).ptable q) = s₃.ptable q from ho₄ q (by rintro rfl; exact hnew hq)]

end Copy

/-- `fork` is safe: either it evicts nothing or no list is shared, and what the entry of the child
was left with is not freed. -/
structure ForkSafe (s : Kernel) (p : ProcIdx) : Prop where
  evict : userPages (s.ptable p) ≤ freeEntries s.lru ∨ ∀ q, Live s q → Private s q
  left : ∀ np, Fin.find? (fun i => (s.ptable i).state = .unused) = some np →
    (s.ptable np).swapList = none ∨ (s.ptable np).forked = true ∨
      ((s.ptable p).sz ≤ kernBase ∧ 66 + 2 * userPages (s.ptable p) ≤ s.phys.freelist.length)

/-- A new pid for one entry. -/
theorem IdsOk.fresh (h : IdsOk s) (np : ProcIdx) (hnext : s'.nextpid = s.nextpid + 1)
    (hpid : ∀ q, (s'.ptable q).pid = if q = np then s.nextpid else (s.ptable q).pid)
    (hlive : ∀ q, q ≠ np → Live s' q → Live s q) (hdir : ∀ q, ¬ Live s' q → (s'.ptable q).pgdir = none) : IdsOk s' := by
  have hnp := h.next
  refine ⟨fun q r he hne => ?_, fun q hq => ?_, fun q => ?_, by omega, hdir⟩
  · rw [hpid, hpid r] at he
    rw [hpid] at hne
    by_cases hq : q = np <;> by_cases hr : r = np
    · rw [hq, hr]
    · rw [if_pos hq, if_neg hr] at he
      have := h.lt r
      omega
    · rw [if_neg hq, if_pos hr] at he
      have := h.lt q
      omega
    · rw [if_neg hq, if_neg hr] at he
      rw [if_neg hq] at hne
      exact h.unique q r he hne
  · rw [hpid]
    split
    · omega
    · next hq' => exact h.pos q (hlive q hq' hq)
  · rw [hpid, hnext]
    have := h.lt q
    split <;> omega

section Forking

variable {np : ProcIdx} {s₁ s₂ : Kernel}

/-- The process table when an entry has been taken and nothing else has changed. -/
structure Taken (s : Kernel) (np : ProcIdx) (s₁ : Kernel) : Prop where
  unused : ¬ Live s np
  next : s₁.nextpid = s.nextpid + 1
  other : ∀ q, q ≠ np → s₁.ptable q = s.ptable q
  list : (s₁.ptable np).swapList = (s.ptable np).swapList ∧ (s₁.ptable np).forked = (s.ptable np).forked
  pid : ∀ q, (s₁.ptable q).pid = if q = np then s.nextpid else (s.ptable q).pid
  dir : ∀ q, ¬ Live s q → (s₁.ptable q).pgdir = none
  find : getProc (s₁.ptable np).pid s₁ = some np
  swap : s₁.swap = s.swap
  lru : s₁.lru = s.lru
  length : s.phys.freelist.length = s₁.phys.freelist.length + 1

theorem allocproc_taken (h : IdsOk s) (hal : allocproc s = (some np, s₁)) : Taken s np s₁ := by
  obtain ⟨hfind, f, fl, hfl, hs₁⟩ := allocproc_some hal
  have hnp : ¬ Live s np := by
    have : (s.ptable np).state = .unused := by simpa using Fin.eq_true_of_find?_eq_some hfind
    simpa [Live] using this
  have hother : ∀ q, q ≠ np → s₁.ptable q = s.ptable q := fun q hq => by simp [hs₁, hq]
  have hself : s₁.ptable np = { s.ptable np with state := .embryo, pid := s.nextpid, kstack := some f } := by simp [hs₁]
  have hpid₁ : ∀ q, (s₁.ptable q).pid = if q = np then s.nextpid else (s.ptable q).pid := by
    intro q
    by_cases hq : q = np
    · subst hq; rw [if_pos rfl, hself]
    · rw [if_neg hq, hother q hq]
  refine ⟨hnp, by rw [hs₁], hother, by rw [hself]; exact ⟨rfl, rfl⟩, hpid₁, fun q hq => ?_, getProc_eq fun q hq => ?_, by rw [hs₁],
    by rw [hs₁], by rw [hfl, hs₁]; rfl⟩
  · by_cases hqn : q = np
    · subst hqn; rw [hself]; exact h.dir q hq
    · rw [hother q hqn]; exact h.dir q hq
  · by_contra hqn
    rw [hpid₁, hpid₁, if_neg hqn, if_pos rfl] at hq
    have := h.lt q
    omega

/-- What `fork` makes of the processes, their pids and their lists. -/
theorem fork_settled (h : IdsOk s) (hp : Live s p) {r : Int} (hfork : fork p s = .ok (r, s')) : IdsOk s' ∧
    ((s'.swap = s.swap ∧ (∀ q, Live s' q ↔ Live s q) ∧ ∀ q, (s'.ptable q).swapList = (s.ptable q).swapList) ∨
      ∃ np s₁ s₂ d, Fin.find? (fun i => (s.ptable i).state = .unused) = some np ∧ Taken s np s₁ ∧ copyuvm p np s₁ = .ok (d, s₂) ∧
        (∀ q, q ≠ np → (s'.ptable q).swapList = (s₂.ptable q).swapList) ∧
        ((s'.swap = s₂.swap ∧ ∀ q, Live s' q ↔ Live s q) ∨
          swapFork (s₂.ptable p).swapList s₂.swap = .ok s'.swap ∧ (s'.ptable np).swapList = (s₂.ptable p).swapList ∧
            ∀ q, Live s' q ↔ Live s q ∨ q = np)) := by
  rcases fork_ok hfork with ⟨-, hal⟩ | ⟨np, s₁, s₂, hal, hcase⟩
  · -- no entry, or no page for the kernel stack
    obtain rfl | ⟨np, hun, hs'⟩ := allocproc_none hal
    · exact ⟨h, .inl ⟨rfl, fun _ => Iff.rfl, fun _ => rfl⟩⟩
    have hproc : ∀ q, q ≠ np → s'.ptable q = s.ptable q := fun q hq => by simp [hs', hq]
    have hself : s'.ptable np = { s.ptable np with state := .unused, pid := s.nextpid, kstack := none } := by simp [hs']
    have hlive : ∀ q, Live s' q ↔ Live s q := by
      intro q
      by_cases hq : q = np
      · subst hq; simp [Live, hself, hun]
      · rw [Live, Live, hproc q hq]
    refine ⟨h.fresh np (by rw [hs']) (fun q => ?_) (fun q _ hq => (hlive q).1 hq) (fun q hq => ?_), .inl ⟨by rw [hs'], hlive, fun q => ?_⟩⟩
    · by_cases hq : q = np
      · subst hq; simp [hself]
      · rw [if_neg hq, hproc q hq]
    · rw [hlive] at hq
      by_cases hqn : q = np
      · subst hqn; rw [hself]; exact h.dir q hq
      · rw [hproc q hqn]; exact h.dir q hq
    · by_cases hq : q = np
      · subst hq; rw [hself]
      · rw [hproc q hq]
  have htaken := allocproc_taken h hal
  have hfind := (allocproc_some hal).1
  have hnp := htaken.unused
  have hne : np ≠ p := by rintro rfl; exact hnp hp
  have hset : ∀ {d}, copyuvm p np s₁ = .ok (d, s₂) → Settled (Live s) s₁ s₂ := fun hcopy => copyuvm_settled htaken.dir hcopy
  have hst : ∀ {d}, copyuvm p np s₁ = .ok (d, s₂) → ∀ q, q ≠ np → (s₂.ptable q).state = (s.ptable q).state := fun hcopy q hq => by
    rw [(hset hcopy).state q, htaken.other q hq]
  have hpid : ∀ {d}, copyuvm p np s₁ = .ok (d, s₂) → ∀ q, (s₂.ptable q).pid = if q = np then s.nextpid else (s.ptable q).pid :=
    fun hcopy q => by rw [(hset hcopy).pid q, htaken.pid q]
  have hdir : ∀ {d}, copyuvm p np s₁ = .ok (d, s₂) → ∀ q, ¬ Live s q → (s₂.ptable q).pgdir = none := fun hcopy q hq => by
    rw [(hset hcopy).outside q hq, htaken.dir q hq]
  rcases hcase with ⟨-, hcopy, k, m, -, -, hs'⟩ | ⟨d, hcopy, hcommit, -⟩
  · -- no memory for the copy
    have hproc : ∀ q, q ≠ np → s'.ptable q = s₂.ptable q := fun q hq => by rw [hs']; simp [Kernel.setProc_ptable, hq]
    have hself : s'.ptable np = { s₂.ptable np with pgdir := none, kstack := none, state := .unused } := by simp [hs']
    have hlive : ∀ q, Live s' q ↔ Live s q := by
      intro q
      by_cases hq : q = np
      · subst hq; simpa [Live, hself] using hnp
      · rw [Live, Live, hproc q hq, hst hcopy q hq]
    refine ⟨h.fresh np (by rw [hs']; exact (hset hcopy).nextpid.trans htaken.next) (fun q => ?_) (fun q _ hq => (hlive q).1 hq) (fun q hq => ?_),
      .inr ⟨np, s₁, s₂, none, hfind, htaken, hcopy, fun q hq => by rw [hproc q hq], .inl ⟨by rw [hs']; rfl, hlive⟩⟩⟩
    · rw [← hpid hcopy q]
      by_cases hq : q = np
      · subst hq; rw [hself]
      · rw [hproc q hq]
    · rw [hlive] at hq
      by_cases hqn : q = np
      · subst hqn; rw [hself]
      · rw [hproc q hqn]; exact hdir hcopy q hq
  · -- the child takes over the list
    obtain ⟨sw, hswf, hs'⟩ := forkCommit_eq hne hcommit
    have hproc : ∀ q, q ≠ np → ∃ b, s'.ptable q = { s₂.ptable q with forked := b } := by
      intro q hq
      by_cases hqp : q = p
      · subst hqp; exact ⟨true, by simp [hs', hq]⟩
      · exact ⟨(s₂.ptable q).forked, by simp [hs', hq, hqp]⟩
    have hlive : ∀ q, Live s' q ↔ Live s q ∨ q = np := by
      intro q
      by_cases hq : q = np
      · subst hq; simp [Live, hs']
      · obtain ⟨b, e⟩ := hproc q hq
        rw [Live, Live, e]
        simp [hst hcopy q hq, hq]
    refine ⟨h.fresh np (by rw [hs']; exact (hset hcopy).nextpid.trans htaken.next) (fun q => ?_)
      (fun q hq hl => ((hlive q).1 hl).resolve_right hq) (fun q hq => ?_), .inr ⟨np, s₁, s₂, some d, hfind, htaken, hcopy, fun q hq => ?_,
        .inr ⟨by rw [hs']; exact hswf, by rw [hs']; simp, hlive⟩⟩⟩
    · rw [← hpid hcopy q]
      by_cases hq : q = np
      · subst hq; simp [hs']
      · obtain ⟨b, e⟩ := hproc q hq
        rw [e]
    · rw [hlive, not_or] at hq
      obtain ⟨b, e⟩ := hproc q hq.2
      rw [e]
      exact hdir hcopy q hq.1
    · obtain ⟨b, e⟩ := hproc q hq
      rw [e]

/-- The lists when a copy has been made, or given up. -/
theorem copy_owns (h : OwnInv s L) (hfind : Fin.find? (fun i => (s.ptable i).state = .unused) = some np) (ht : Taken s np s₁)
    (hp : Live s p) (hsafe : ForkSafe s p) {d : Option PageDir} (hcopy : copyuvm p np s₁ = .ok (d, s₂)) :
    ∃ L', Owns (Live s) s₂.swap (fun q => (s₂.ptable q).swapList) L' := by
  have hne : p ≠ np := by rintro rfl; exact ht.unused hp
  have hown₁ : Owns (Live s) s₁.swap (fun q => (s₁.ptable q).swapList) L := by
    rw [ht.swap]
    refine h.owns.congr_lists fun q hq => ?_
    rw [ht.other q (by rintro rfl; exact ht.unused hq)]
  have hroom : ((s₁.ptable p).sz + pgSize - 1) / pgSize ≤ freeEntries s₁.lru ∨ ∀ q, Live s q → Alone (Live s) L q := by
    rw [ht.other p hne, ht.lru]
    exact hsafe.evict.imp id fun hpr q hq => h.alone hq (hpr q hq)
  have hleft : (s₁.ptable np).swapList = none ∨ (s₁.ptable np).forked = true ∨ ((s₁.ptable p).sz ≤ kernBase ∧
      65 + 2 * (((s₁.ptable p).sz + pgSize - 1) / pgSize) ≤ s₁.phys.freelist.length) := by
    rw [ht.list.1, ht.list.2, ht.other p hne]
    refine (hsafe.left np hfind).imp id fun hl => hl.imp id fun ⟨hsz, hlen⟩ => ⟨hsz, ?_⟩
    rw [ht.length] at hlen
    unfold userPages at hlen
    omega
  exact copyuvm_owns hown₁ ht.dir ht.unused ht.find hroom hleft hcopy

theorem fork_step (h : OwnInv s L) (hp : Live s p) (hsafe : ForkSafe s p) {r : Int} (hfork : fork p s = .ok (r, s')) :
    ∃ L', OwnInv s' L' := by
  obtain ⟨hids, ⟨hsw, hlive, hlist⟩ | ⟨np, s₁, s₂, d, hfind, ht, hcopy, hlist, hcase⟩⟩ := fork_settled h.ids hp hfork
  · refine ⟨L, hids, ?_⟩
    rw [hsw, show Live s' = Live s from funext fun q => propext (hlive q)]
    exact h.owns.congr_lists fun q _ => hlist q
  obtain ⟨L', hL'⟩ := copy_owns h hfind ht hp hsafe hcopy
  have hne : ∀ q, Live s q → q ≠ np := by rintro q hq rfl; exact ht.unused hq
  rcases hcase with ⟨hsw, hlive⟩ | ⟨hsw, hnp, hlive⟩
  · refine ⟨L', hids, ?_⟩
    rw [hsw, show Live s' = Live s from funext fun q => propext (hlive q)]
    exact hL'.congr_lists fun q hq => hlist q (hne q hq)
  · refine ⟨Function.update L' np (L' p), hids, ?_⟩
    rw [swapFork_eq (hL'.list p hp)] at hsw
    rw [← Except.ok.inj hsw, show Live s' = fun q => Live s q ∨ q = np from funext fun q => propext (hlive q)]
    refine (hL'.share hp ht.unused).congr_lists fun q hq => ?_
    by_cases hqn : q = np
    · subst hqn; simp [hnp]
    · rw [Function.update_of_ne hqn, hlist q hqn]

end Forking

end State

/-! ## Runs -/

/-- What processes do to swap slots. -/
inductive ProcOp
  | fork (p : ProcIdx)
  | swapOut (kind : SwapKind) (p : ProcIdx) (vaddr : Nat)
  | swapIn (kind : SwapKind) (p : ProcIdx) (vaddr : Nat)
  | exit (p : ProcIdx)
  | wait (p : ProcIdx)

namespace ProcOp

/-- The process that makes the call. -/
def actor : ProcOp → ProcIdx
  | .fork p | .swapOut _ p _ | .swapIn _ p _ | .exit p | .wait p => p

def run : ProcOp → Kernel → Except Stuck Kernel
  | .fork p, s => do return (← DemandPaging.fork p s).2
  | .swapOut kind p vaddr, s => do return (← swapOutFunc kind p vaddr s).2
  | .swapIn kind p vaddr, s => do return (← swapInFunc kind p vaddr s).2
  | .exit p, s => DemandPaging.exit p s
  | .wait p, s => do return (← DemandPaging.wait p s).2

/-- A live process makes the call and it returns. -/
def Does (op : ProcOp) (s s' : Kernel) : Prop := Live s op.actor ∧ op.run s = .ok s'

/-- No slot is appended to a list, taken off it or freed with it while another live process has it. -/
def Keeps : ProcOp → Kernel → Prop
  | .fork p, s => ForkSafe s p
  | .swapOut _ p _, s => Private s p
  | .swapIn _ p vaddr, s => Private s p ∨ ∀ i, Lists s p i → (s.swap.frames i).vaddr ≠ vaddr
  | .exit _, _ => True
  | .wait p, s => ∀ c, Fin.find? (fun q => (s.ptable q).parent = some p ∧ (s.ptable q).state = .zombie) = some c →
      Private s c

end ProcOp

theorem wait_step {s s' : Kernel} {L : ProcIdx → List SlotIdx} {p : ProcIdx} (h : OwnInv s L)
    (hpr : (ProcOp.wait p).Keeps s) {r : Option Int} (hwait : wait p s = .ok (r, s')) : OwnInv s' L := by
  unfold wait at hwait
  split at hwait
  · next c hc =>
    obtain ⟨⟨pid, s₁⟩, hreap, hwait⟩ := bind_eq_ok.1 hwait
    cases hwait
    have hz : (s.ptable c).parent = some p ∧ (s.ptable c).state = .zombie := by
      simpa using Fin.eq_true_of_find?_eq_some hc
    exact reap_step h (by rw [Live, hz.2]; decide) (hpr c hc) hreap
  · split at hwait
    · cases hwait; exact h
    · cases hwait; exact h

/-- One step of a run. -/
theorem ownInv_step {s s' : Kernel} {L : ProcIdx → List SlotIdx} {op : ProcOp} (h : OwnInv s L) (hd : op.Does s s')
    (hk : op.Keeps s) : ∃ L', OwnInv s' L' := by
  obtain ⟨hp, hrun⟩ := hd
  cases op with
  | fork p =>
    obtain ⟨⟨r, s₁⟩, hfork, e⟩ := bind_eq_ok.1 hrun
    cases e
    exact fork_step h hp hk hfork
  | swapOut kind p vaddr =>
    obtain ⟨⟨r, s₁⟩, hout, e⟩ := bind_eq_ok.1 hrun
    cases e
    exact out_step h hp hk hout
  | swapIn kind p vaddr =>
    obtain ⟨⟨r, s₁⟩, htake, e⟩ := bind_eq_ok.1 hrun
    cases e
    exact take_step h hp hk htake
  | exit p => exact ⟨L, exit_step h hp hrun⟩
  | wait p =>
    obtain ⟨⟨r, s₁⟩, hwait, e⟩ := bind_eq_ok.1 hrun
    cases e
    exact ⟨L, wait_step h hk hwait⟩

/-- In every run of forks, swaps, exits and waits from a state with empty swap lists, in which no list
is changed or freed while two live processes share it, every listed slot is in use and counts its
processes; so the slot handed out next is on no live list. -/
theorem slotsOwned_run {s₀ s : Kernel} (h₀ : Booted s₀)
    (hrun : Relation.ReflTransGen (fun s s' => ∃ op : ProcOp, op.Does s s' ∧ op.Keeps s) s₀ s) :
    SlotsOwned s ∧ ∀ f, freeSlot? s.swap = some f → ∀ p, Live s p → ¬ Lists s p f := by
  have hinv : ∃ L, OwnInv s L := by
    induction hrun with
    | refl => exact ⟨_, h₀.ownInv⟩
    | tail _ hstep ih =>
      obtain ⟨L, hL⟩ := ih
      obtain ⟨op, hd, hk⟩ := hstep
      exact ownInv_step hL hd hk
  obtain ⟨L, hL⟩ := hinv
  refine ⟨hL.slotsOwned, fun f hf p hp hl => ?_⟩
  exact hL.owns.not_mem_of_free hf hp ((hL.owns.lists_iff hp).1 hl)

/-! ### A list shared by a fork -/

theorem smallKernel_booted : Booted smallKernel := by
  have hpid : ∀ q, (smallKernel.ptable q).pid = if q = 0 then 1 else 0 := by
    intro q
    simp only [smallKernel]
    split <;> rfl
  refine ⟨⟨fun q r he hne => ?_, fun q hq => ?_, fun q => ?_, by decide, fun q hq => ?_⟩, fun q => ?_⟩
  · rw [hpid] at he hne
    rw [hpid] at he
    by_cases hq : q = 0 <;> by_cases hr : r = 0 <;> simp_all
  · rw [hpid, if_pos]
    · decide
    · by_contra hq0
      simp [Live, smallKernel, hq0] at hq
  · rw [hpid]
    split <;> decide
  · have hq0 : q ≠ 0 := by
      rintro rfl
      exact hq (by simp [Live, smallKernel, smallProc])
    simp [smallKernel, hq0]
  · simp only [smallKernel]
    split <;> rfl

/-- The small machine after its process has swapped out page 0, to the heap space. -/
def smallSwapped : Kernel := smallKernel.swappedOut .heap 0 0 [] 0 smallDir ⟨⟨false, true, true⟩, 0⟩

theorem smallSwapped_out : swapOutFunc .heap 0 0 smallKernel = .ok (1, smallSwapped) := by
  have hfree : freeSlot? smallKernel.swap = some 0 := by
    unfold freeSlot?
    rw [Fin.find?_eq_some_iff]
    exact ⟨rfl, fun j hj => absurd hj (Nat.not_lt_zero _)⟩
  rw [swapOutFunc_eq]
  exact swapOutWith_eq (E := []) (show SwapList _ none [] from rfl) rfl hfree rfl rfl lruInit_queue (by decide) (by simp)

theorem smallSwapped_list : SwapList smallSwapped.swap (smallSwapped.ptable 0).swapList [0] := ⟨rfl, rfl⟩

theorem smallSwapped_find : Fin.find? (fun i => (smallSwapped.ptable i).state = .unused) = some 1 := by
  rw [Fin.find?_eq_some_iff]
  refine ⟨by decide, fun j hj => ?_⟩
  obtain rfl : j = 0 := by
    apply Fin.ext
    exact Nat.lt_one_iff.1 hj
  decide

theorem smallSwapped_fork : ∃ s' E, fork 0 smallSwapped = .ok (2, s') ∧ Forked 0 1 [0] smallSwapped s' ∧ Queue s'.lru E ∧
    (∀ e ∈ E, e.1 = 2) ∧ 100 ≤ s'.phys.freelist.length := by
  have hpages : userPages (smallSwapped.ptable 0) = 2 := by decide
  have hlen : smallSwapped.phys.freelist.length = 200 := List.length_range'
  have hpte : ∀ a < (smallSwapped.ptable 0).sz, PageDir.pte? (smallDir.setPte 0 ⟨⟨false, true, true⟩, 0⟩) a ≠ none := by
    intro a ha hn
    have ha' : a < 2 * pgSize := ha
    have hidx : pdx a = 0 := by
      apply Fin.ext
      simp only [pdx, pgSize] at ha' ⊢
      show a / 2 ^ 22 % 1024 = 0
      omega
    rw [pte?_eq_none, hidx] at hn
    cases hn
  obtain ⟨s', E, hfork, hq, -, hpid, hfree⟩ := fork_progress (E := []) smallSwapped_find (by decide) rfl (by decide) hpte
    lruInit_queue (by rw [hpages]; decide) (by rw [hpages, hlen]; decide) smallSwapped_list
  have hroom : userPages (smallSwapped.ptable 0) ≤ freeEntries smallSwapped.lru := by
    have hfree := lruInit_queue.freeEntries_eq
    rw [List.length_nil, Nat.add_zero] at hfree
    rw [hpages, show smallSwapped.lru = lruInit from rfl, hfree]
    decide
  obtain ⟨np, hnp, hforked⟩ := fork_forked hfork (by decide) (by decide) hroom smallSwapped_list
  obtain rfl : np = 1 := by rw [smallSwapped_find] at hnp; exact (Option.some.inj hnp).symm
  refine ⟨s', E, hfork, hforked, hq, hpid, ?_⟩
  rw [hpages, hlen] at hfree
  omega

/-- Swapping a page out and forking keeps the slots owned: the slot counts both processes. -/
theorem slotsOwned_run_fork : ∃ s, (∃ r, fork 0 smallSwapped = .ok (r, s)) ∧ SlotsOwned s := by
  obtain ⟨s', E, hfork, -⟩ := smallSwapped_fork
  have hlive : ∀ q, Live smallKernel q → q = 0 := by
    intro q hq
    by_contra hq0
    simp [Live, smallKernel, hq0] at hq
  have hlive' : ∀ q, Live smallSwapped q → q = 0 := by
    intro q hq
    by_contra hq0
    simp [Live, smallSwapped, Kernel.swappedOut, smallKernel, hq0] at hq
  refine ⟨s', ⟨2, hfork⟩, (slotsOwned_run smallKernel_booted ?_).1⟩
  refine .tail (b := smallSwapped) (.single ⟨.swapOut .heap 0 0, ⟨by decide, ?_⟩, ?_⟩) ⟨.fork 0, ⟨by decide, ?_⟩, ?_⟩
  · rw [ProcOp.run, smallSwapped_out]; rfl
  · intro q hq hq0; exact absurd (hlive q hq) hq0
  · rw [ProcOp.run, hfork]; rfl
  · refine ⟨Or.inr fun p hp q hq hqp => ?_, fun np hnp => Or.inl ?_⟩
    · exact absurd ((hlive' q hq).trans (hlive' p hp).symm) hqp
    · rw [smallSwapped_find] at hnp
      cases hnp
      rfl

/-- After the fork the parent swaps out its second page: slot 1 is hung behind the slot both share. -/
theorem smallSwapped_shared : ∃ s₂ s₃, fork 0 smallSwapped = .ok (2, s₂) ∧ Forked 0 1 [0] smallSwapped s₂ ∧
    swapOutFunc .heap 0 pgSize s₂ = .ok (1, s₃) ∧ s₃ = s₂.swappedOut .heap 0 pgSize [0] 1
      (smallDir.setPte 0 ⟨⟨false, true, true⟩, 0⟩) ⟨⟨false, true, true⟩, 0⟩ := by
  obtain ⟨s₂, E, hfork, hforked, hq, hpid, -⟩ := smallSwapped_fork
  have hparent := hforked.parent
  have hlist : SwapList s₂.swap (s₂.ptable 0).swapList [0] := by
    rw [hparent, hforked.swap]
    exact ⟨rfl, rfl⟩
  have hfree : freeSlot? s₂.swap = some 1 := by
    unfold freeSlot?
    rw [hforked.swap, Fin.find?_eq_some_iff]
    refine ⟨by decide, fun j hj => ?_⟩
    obtain rfl : j = 0 := by
      apply Fin.ext
      exact Nat.lt_one_iff.1 hj
    decide
  have hpte : PageDir.pte? (smallDir.setPte 0 ⟨⟨false, true, true⟩, 0⟩) pgSize = some ⟨⟨false, true, true⟩, 0⟩ := by decide
  refine ⟨s₂, _, hfork, hforked, ?_, rfl⟩
  rw [swapOutFunc_eq]
  exact swapOutWith_eq hlist (by rw [hforked.swap]; rfl) hfree (by rw [hparent]; rfl) hpte hq (by decide)
    (fun hm => absurd (hpid _ hm) (by rw [hparent]; decide))

/-- The parent swaps out a second page after the fork: the slot is on both lists and counts one. -/
theorem slotsOwned_fails : ∃ s, Booted smallKernel ∧
    Relation.ReflTransGen (fun s s' => ∃ op : ProcOp, op.Does s s') smallKernel s ∧ ¬ SlotsOwned s := by
  obtain ⟨s₂, s₃, hfork, hforked, hout, hs₃⟩ := smallSwapped_shared
  obtain ⟨d, k, hchild⟩ := hforked.child
  have hparent := hforked.parent
  refine ⟨s₃, smallKernel_booted, ?_, fun howned => ?_⟩
  · refine .tail (b := s₂) (.tail (b := smallSwapped) (.single ⟨.swapOut .heap 0 0, by decide, ?_⟩)
      ⟨.fork 0, by decide, ?_⟩) ⟨.swapOut .heap 0 pgSize, ?_, ?_⟩
    · rw [ProcOp.run, smallSwapped_out]; rfl
    · rw [ProcOp.run, hfork]; rfl
    · rw [Live, ProcOp.actor, hparent]; decide
    · rw [ProcOp.run, hout]; rfl
  · have hstep : (s₃.swap.frames 0).next = some 1 := by rw [hs₃]; rfl
    have hcount : (s₃.swap.frames 1).count = 1 := by rw [hs₃]; rfl
    have hp : Live s₃ 0 ∧ Lists s₃ 0 1 := by
      refine ⟨?_, 0, ?_, .single hstep⟩
      · rw [hs₃, Live, swappedOut_self, hparent]; decide
      · rw [hs₃, swappedOut_self, hparent]; rfl
    have hc : Live s₃ 1 ∧ Lists s₃ 1 1 := by
      refine ⟨?_, 0, ?_, .single hstep⟩
      · rw [hs₃, Live, swappedOut_other (by decide), hchild]; exact ProcState.noConfusion
      · rw [hs₃, swappedOut_other (by decide), hchild]; rfl
    have htwo : ({0, 1} : Finset ProcIdx) ⊆ listers s₃ 1 := by
      intro q hq
      simp only [Finset.mem_insert, Finset.mem_singleton] at hq
      rcases hq with rfl | rfl
      · exact mem_listers.2 hp
      · exact mem_listers.2 hc
    have hcard := Finset.card_le_card htwo
    have hone := (howned 0 1 hp.1 hp.2).2
    rw [hcount] at hone
    rw [Finset.card_pair (by decide)] at hcard
    omega

end DemandPaging
