/-
A `fork` that fails. Before it returns it frees the LRU entries and the swap slots of the new entry of
the process table, whose `swap_list` and `forked` are still those of the process that had the entry
before; and the copy that it gives up may have evicted pages of others.
-/
import DemandPaging.Exec.Image
import DemandPaging.Lru.Fifo
import DemandPaging.Paging.Children
import DemandPaging.Paging.Eviction

namespace DemandPaging

/-! ## The property -/

/-- The page has gone to a slot that was free before. -/
structure Saved (s s' : Kernel) (q : ProcIdx) (v : Nat) : Prop where
  gone : (s'.pte q v).present = false
  slot : ∃ i, s.swap.bitmap i = -1 ∧ s'.swap.bitmap i ≠ -1 ∧ (s'.swap.frames i).vaddr = v

/-- What `fork` has done to the others: no slot on the list of a live process has been freed, neither one
that was in use before nor one that was taken on the way, and every LRU entry of a live process that is
gone has had its page saved. -/
structure Harmless (s s' : Kernel) : Prop where
  slots : ∀ q i, Live s q → Lists s q i → s.swap.bitmap i ≠ -1 → s'.swap.bitmap i ≠ -1
  taken : ∀ q i, Live s q → Lists s' q i → ¬Lists s q i → s'.swap.bitmap i ≠ -1
  entries : ∀ q v, Live s q → s'.lru.abs.count ((s.ptable q).pid, v) < s.lru.abs.count ((s.ptable q).pid, v) → Saved s s' q v

/-- The ring has a free entry for every page that the copy puts into it. -/
def Room (s : Kernel) (p : ProcIdx) : Prop := ringPages (s.ptable p) (userPages (s.ptable p)) 0 ≤ freeEntries s.lru

/-- If the copy begins at all, the list that the new entry has left over is not freed or has no slot that
a live process uses, and an entry that is evicted has a page. -/
def Safe (s : Kernel) (p : ProcIdx) : Prop :=
  ∀ np, Fin.find? (fun i => (s.ptable i).state = .unused) = some np → 66 ≤ s.phys.freelist.length →
    ((s.ptable np).forked = true ∨ (s.ptable np).swapList = none ∨
      Room s p ∧ ∀ i, Lists s np i → s.swap.bitmap i ≠ -1 → ∀ q, Live s q → ¬Lists s q i) ∧
    (Room s p ∨ ∀ q v, Live s q → ((s.ptable q).pid, v) ∈ s.lru.abs → s.pte q v ≠ Pte.zero)

/-- The free pages are the allocator's. -/
def Phys.Sound (m : Phys) : Prop := ∀ f ∈ m.freelist, m.layout.Holds f

/-- What holds between calls: pids are unique, the ring is one, its entries are pages of the user's, and
the free pages are the allocator's. -/
structure Sane (s : Kernel) : Prop where
  ids : IdsOk s
  ring : Queue s.lru s.lru.abs
  page : ∀ e ∈ s.lru.abs, e.2 % pgSize = 0 ∧ e.2 ≤ kernBase
  size : ∀ q, (s.ptable q).sz ≤ kernBase
  free : s.phys.Sound

/-! ## Lists while slots are taken -/

section Lists

variable {sw sw' : Swap} {kind : SwapKind} {vaddr : Nat} {list list' : Option SlotIdx} {f x i : SlotIdx}

/-- After a slot has been taken a list reaches it, or what it reached before. -/
theorem linkSlot_reaches (h : linkSlot kind vaddr list sw = .ok (some f, list', sw')) (hr : sw'.Reaches x i) :
    sw.Reaches x i ∨ i = f := by
  obtain ⟨-, -, -, hslot, hother⟩ := linkSlot_slot h
  induction hr with
  | refl => exact .inl .refl
  | @tail j k _ hstep ih =>
    have hj : j ≠ f := by
      rintro rfl
      rw [hslot] at hstep
      cases hstep
    have hreach := ih.resolve_right hj
    rcases (hother j hj).2.2 with hsame | hf
    · exact .inl (hreach.tail (by rw [← hsame]; exact hstep))
    · exact .inr (Option.some.inj (hstep.symm.trans hf))

/-- `swap_free` clears the slots that the list reaches and no others. -/
theorem freeSlots_bits (h : freeSlots list sw = .ok (list', sw')) : sw'.frames = sw.frames ∧
    ∀ i, (sw'.bitmap i = sw.bitmap i ∨ sw'.bitmap i = -1 ∧ ∃ x, list = some x ∧ sw.Reaches x i) ∧
      ∀ x, list = some x → sw.Reaches x i → sw'.bitmap i = -1 := by
  obtain ⟨-, L, hL, -, rfl⟩ := freeSlots_inv h
  refine ⟨rfl, fun i => ⟨?_, fun x hx hr => if_pos (hL.mem_iff_reach.2 ⟨x, hx, hr⟩)⟩⟩
  by_cases hi : i ∈ L
  · exact .inr ⟨if_pos hi, hL.mem_iff_reach.1 hi⟩
  · exact .inl (if_neg hi)

end Lists

/-! ## The copy -/

/-- The state in the middle of the copy: `E` is the ring, and `s` the state in which the copy began. -/
structure Copying (s : Kernel) (E : List (Int × Nat)) (t : Kernel) : Prop where
  pid : ∀ q, (t.ptable q).pid = (s.ptable q).pid
  dir : ∀ q, (s.ptable q).pgdir = none → t.ptable q = s.ptable q
  bits : ∀ i, s.swap.bitmap i ≠ -1 → t.swap.bitmap i ≠ -1
  lists : ∀ q i, Lists t q i → Lists s q i ∨ t.swap.bitmap i ≠ -1
  queue : Queue t.lru E
  page : ∀ e ∈ E, e.2 % pgSize = 0 ∧ e.2 ≤ kernBase
  removed : ∀ q v, Live s q → E.count ((s.ptable q).pid, v) < s.lru.abs.count ((s.ptable q).pid, v) → Saved s t q v

/-- The entries of the ring have pages, or had them when they were evicted. -/
def Full (s : Kernel) (E : List (Int × Nat)) (t : Kernel) : Prop :=
  ∀ q v, (s.ptable q).pgdir ≠ none → ((s.ptable q).pid, v) ∈ E → t.pte q v ≠ Pte.zero ∨ Saved s t q v

/-- Pids tell live processes from all others. -/
def Distinct (s : Kernel) : Prop := ∀ p q, Live s p → (s.ptable p).pid = (s.ptable q).pid → p = q

section Copy

variable {s t t' : Kernel} {E : List (Int × Nat)} {e : Int × Nat}

theorem Copying.setPhys (h : Copying s E t) (m : Phys) : Copying s E { t with phys := m } :=
  ⟨h.pid, h.dir, h.bits, h.lists, h.queue, h.page, fun q v hq hc => ⟨(h.removed q v hq hc).gone, (h.removed q v hq hc).slot⟩⟩

theorem Full.setPhys (h : Full s E t) (m : Phys) : Full s E { t with phys := m } := fun q v hq he =>
  (h q v hq he).imp id fun hsaved => ⟨hsaved.gone, hsaved.slot⟩

/-- Only the ring changes: what it has lost was of no live process, or had been saved before. -/
theorem Copying.setLru {l : Lru} {E' : List (Int × Nat)} (h : Copying s E t) (hq : Queue l E') (hE : ∀ x ∈ E', x.2 % pgSize = 0 ∧ x.2 ≤ kernBase)
    (hc : ∀ q v, Live s q → E.count ((s.ptable q).pid, v) ≤ E'.count ((s.ptable q).pid, v) ∨ Saved s t q v) :
    Copying s E' { t with lru := l } := by
  refine ⟨h.pid, h.dir, h.bits, h.lists, hq, hE, fun q v hlive hlt => ?_⟩
  have hsaved : Saved s t q v := (hc q v hlive).elim (fun hle => h.removed q v hlive (by omega)) id
  exact ⟨hsaved.gone, hsaved.slot⟩

theorem Full.setLru {l : Lru} {E' : List (Int × Nat)} (h : Full s E t)
    (hsub : ∀ q v, (s.ptable q).pgdir ≠ none → ((s.ptable q).pid, v) ∈ E' → ((s.ptable q).pid, v) ∈ E) :
    Full s E' { t with lru := l } := fun q v hq he =>
  (h q v hq (hsub q v hq he)).imp id fun hsaved => ⟨hsaved.gone, hsaved.slot⟩

section Out

variable {q : ProcIdx} {pd : PageDir} {pte : Pte} {v : Nat} {f : SlotIdx} {list : Option SlotIdx} {sw : Swap} {l : Lru}
  {disk : Nat → Block} {pg : Page}

/-- The state after the page `v` of the process has been swapped out. -/
def Kernel.outed (t : Kernel) (q : ProcIdx) (v : Nat) (pd : PageDir) (pte : Pte) (list : Option SlotIdx) (sw : Swap) (l : Lru)
    (disk : Nat → Block) (pg : Page) : Kernel :=
  { t with
    swap := sw
    lru := l
    disk := disk
    ptable := Function.update t.ptable q { t.ptable q with
      writeBuffer := pg, swapList := list, pgdir := some (pd.setPte v { pte with present := false }) } }

theorem outed_pte (hpd : (t.ptable q).pgdir = some pd) (hpte : pd.pte? v = some pte) (r : ProcIdx) (w : Nat) :
    (t.outed q v pd pte list sw l disk pg).pte r w =
      if r = q ∧ pdx w = pdx v ∧ ptx w = ptx v then { pte with present := false } else t.pte r w := by
  by_cases hr : r = q
  · subst hr
    simp only [Kernel.pte, Kernel.outed, Function.update_self, hpd, Option.elim_some, true_and]
    split
    · next hidx =>
      have hsame : ∀ d : PageDir, d.pte? w = d.pte? v := fun d => by rw [PageDir.pte?, PageDir.pte?, hidx.1, hidx.2]
      rw [PageDir.pte, hsame, pte?_setPte_same (by rw [Ne, ← pte?_eq_none, hpte]; simp)]
      rfl
    · next hidx => rw [PageDir.pte, PageDir.pte, pte?_setPte_other hidx]
  · simp [Kernel.pte, Kernel.outed, hr]

/-- A page that has been saved stays saved when another goes out. -/
theorem Saved.outed {r : ProcIdx} {w : Nat} (h : Saved s t r w) (hpd : (t.ptable q).pgdir = some pd) (hpte : pd.pte? v = some pte)
    (hlink : linkSlot .generic v (t.ptable q).swapList t.swap = .ok (some f, list, sw)) :
    Saved s (t.outed q v pd pte list sw l disk pg) r w := by
  obtain ⟨hfree, -, -, -, hother⟩ := linkSlot_slot hlink
  obtain ⟨hbits, -⟩ := (linkSlot_ok hlink).2.2 f rfl
  obtain ⟨i, h1, h2, h3⟩ := h.slot
  have hif : i ≠ f := by
    rintro rfl
    exact h2 (freeSlot?_some hfree)
  refine ⟨?_, i, h1, ?_, ?_⟩
  · rw [outed_pte hpd hpte]
    split
    · rfl
    · exact h.gone
  · show sw.bitmap i ≠ -1
    rw [hbits, Function.update_of_ne hif]
    exact h2
  · exact (hother i hif).1.trans h3

theorem Copying.outed (h : Copying s (e :: E) t) (hd : Distinct s) (hq : getProc e.1 t = some q) (hpd : (t.ptable q).pgdir = some pd)
    (hpte : pd.pte? e.2 = some pte) (hlink : linkSlot .generic e.2 (t.ptable q).swapList t.swap = .ok (some f, list, sw))
    (hl : Queue l (E.erase e)) (disk : Nat → Block) (pg : Page) : Copying s (E.erase e) (t.outed q e.2 pd pte list sw l disk pg) ∧
      (Full s (e :: E) t → Full s (E.erase e) (t.outed q e.2 pd pte list sw l disk pg)) := by
  obtain ⟨hfree, hlist, -, hslot, hother⟩ := linkSlot_slot hlink
  obtain ⟨hbits, -⟩ := (linkSlot_ok hlink).2.2 f rfl
  have hpid : (s.ptable q).pid = e.1 := (h.pid q).symm.trans (getProc_pid hq)
  have hpage := h.page e List.mem_cons_self
  have hfs : s.swap.bitmap f = -1 := by
    by_contra hne
    exact h.bits f hne (freeSlot?_some hfree)
  have hsaved : Saved s (t.outed q e.2 pd pte list sw l disk pg) q e.2 := by
    refine ⟨?_, f, hfs, ?_, ?_⟩
    · rw [outed_pte hpd hpte, if_pos ⟨rfl, rfl, rfl⟩]
    · show sw.bitmap f ≠ -1
      rw [hbits, Function.update_self]
      decide
    · show (sw.frames f).vaddr = e.2
      rw [hslot]
  have hself : ∀ r v, (s.ptable r).pid = e.1 → Live s r → v = e.2 → Saved s (t.outed q e.2 pd pte list sw l disk pg) r v := by
    rintro r v hr hlive rfl
    obtain rfl := hd r q hlive (hr.trans hpid.symm)
    exact hsaved
  refine ⟨⟨fun r => ?_, fun r hr => ?_, fun i hi => ?_, fun r i hi => ?_, hl, fun x hx => ?_, fun r v hr hc => ?_⟩, fun hf r v hr hm => ?_⟩
  · by_cases hrq : r = q
    · subst hrq
      simp only [Kernel.outed, Function.update_self]
      exact h.pid r
    · simp only [Kernel.outed, Function.update_of_ne hrq]
      exact h.pid r
  · have hrq : r ≠ q := by
      rintro rfl
      rw [h.dir r hr, hr] at hpd
      cases hpd
    simp only [Kernel.outed, Function.update_of_ne hrq]
    exact h.dir r hr
  · show sw.bitmap i ≠ -1
    rw [hbits]
    by_cases hif : i = f
    · rw [hif, Function.update_self]
      decide
    · rw [Function.update_of_ne hif]
      exact h.bits i hi
  · -- a list reaches the slot that was taken, or what it reached before
    have hnew : i = f → sw.bitmap i ≠ -1 := by
      rintro rfl
      rw [hbits, Function.update_self]
      decide
    have hold : Lists t r i → Lists s r i ∨ sw.bitmap i ≠ -1 := fun hli => (h.lists r i hli).imp id fun hb => by
      by_cases hif : i = f
      · exact hnew hif
      · rw [hbits, Function.update_of_ne hif]
        exact hb
    obtain ⟨x, hx, hreach⟩ := hi
    have hreach' := linkSlot_reaches hlink hreach
    by_cases hrq : r = q
    · subst hrq
      simp only [Kernel.outed, Function.update_self] at hx
      rw [hlist] at hx
      cases hlt : (t.ptable r).swapList with
      | none =>
        rw [hlt, Option.getD_none] at hx
        obtain rfl := Option.some.inj hx
        rcases hreach.cases_head with rfl | ⟨c, hc, -⟩
        · exact .inr (hnew rfl)
        · simp only [Kernel.outed, hslot] at hc
          cases hc
      | some y =>
        rw [hlt, Option.getD_some] at hx
        obtain rfl := Option.some.inj hx
        exact hreach'.elim (fun hr => hold ⟨y, hlt, hr⟩) fun he => .inr (hnew he)
    · simp only [Kernel.outed, Function.update_of_ne hrq] at hx
      exact hreach'.elim (fun hr => hold ⟨x, hx, hr⟩) fun he => .inr (hnew he)
  · exact h.page x (List.mem_cons_of_mem _ (List.mem_of_mem_erase hx))
  · by_cases hxe : ((s.ptable r).pid, v) = e
    · exact hself r v (congrArg Prod.fst hxe) hr (congrArg Prod.snd hxe)
    · have hsame : (E.erase e).count ((s.ptable r).pid, v) = (e :: E).count ((s.ptable r).pid, v) := by
        rw [List.count_erase_of_ne hxe, List.count_cons_of_ne (Ne.symm hxe)]
      exact (h.removed r v hr (by omega)).outed hpd hpte hlink
  · have hmem := List.mem_cons_of_mem e (List.mem_of_mem_erase hm)
    rcases hf r v hr hmem with hz | hs
    · rw [outed_pte hpd hpte]
      split
      · next hidx =>
        -- the very page: its entry is the one that goes
        obtain ⟨rfl, hidx⟩ := hidx
        have hv := h.page _ hmem
        dsimp only at hv
        rw [index_eq_iff (by simp only [kernBase, wordSize] at *; omega) (by simp only [kernBase, wordSize] at *; omega)] at hidx
        obtain rfl : v = e.2 := by simp only [pgSize] at *; omega
        exact .inr hsaved
      · exact .inl hz
    · exact .inr (hs.outed hpd hpte hlink)

end Out

theorem getProc_none {pid : Int} (h : getProc pid t = none) (q : ProcIdx) : (t.ptable q).pid ≠ pid := by
  unfold getProc at h
  rw [Fin.find?_eq_none_iff] at h
  simpa using h q

/-- One more entry for the new process, whose pid no process with pages has. -/
theorem Copying.getLru {pid : Int} {v : Nat} (h : Copying s E t) (hd : Distinct s) (hroom : 0 < freeEntries t.lru ∨ Full s E t)
    (hpid : ∀ q, (s.ptable q).pid = pid → (s.ptable q).pgdir = none) (hv : v % pgSize = 0 ∧ v ≤ kernBase)
    (hget : getLru pid v t = .ok t') : ∃ E', Copying s E' t' ∧ (Full s E t → Full s E' t') ∧ t'.phys = t.phys := by
  have happend : ∀ {E₁ : List (Int × Nat)} {t₁ : Kernel} {l : Lru}, Copying s E₁ t₁ → Queue l (E₁ ++ [(pid, v)]) →
      Copying s (E₁ ++ [(pid, v)]) { t₁ with lru := l } ∧ (Full s E₁ t₁ → Full s (E₁ ++ [(pid, v)]) { t₁ with lru := l }) := by
    intro E₁ t₁ l h₁ hl
    refine ⟨h₁.setLru hl (fun x hx => ?_) fun q w _ => .inl ?_, fun hf => hf.setLru fun q w hq hm => ?_⟩
    · rcases List.mem_append.1 hx with hx | hx
      · exact h₁.page x hx
      · rw [List.mem_singleton.1 hx]
        exact hv
    · rw [List.count_append]
      exact Nat.le_add_right _ _
    · rcases List.mem_append.1 hm with hm | hm
      · exact hm
      · exact absurd (hpid q (congrArg Prod.fst (List.mem_singleton.1 hm))) hq
  have hlen := h.queue.freeEntries_eq
  by_cases hlt : E.length < maxFrameLru
  · obtain ⟨l, hget', hl⟩ := getLru_insert pid v h.queue hlt
    obtain rfl := Except.ok.inj (hget'.symm.trans hget)
    exact ⟨_, (happend h hl).1, (happend h hl).2, rfl⟩
  -- the ring is full, and its oldest entry goes
  have hfull : Full s E t := hroom.resolve_left (by omega)
  cases E with
  | nil => exact absurd hlt (by decide)
  | cons e E =>
    rw [List.length_cons] at hlen hlt
    have hlen₂ : 2 ≤ E.length := by simp only [maxFrameLru] at *; omega
    obtain ⟨t₁, hev⟩ : ∃ t₁, evict t = .ok t₁ := by
      cases hev : evict t with
      | error x =>
        rw [getLru_stuck pid v h.queue (by rw [List.length_cons]; omega) hev] at hget
        cases hget
      | ok t₁ => exact ⟨t₁, rfl⟩
    obtain ⟨E₁, h₁, hf₁, hphys, hlen₁⟩ : ∃ E₁, Copying s E₁ t₁ ∧ Full s E₁ t₁ ∧ t₁.phys = t.phys ∧ E₁.length < maxFrameLru := by
      have hpage : ∀ x ∈ E, x.2 % pgSize = 0 ∧ x.2 ≤ kernBase := fun x hx => h.page x (List.mem_cons_of_mem e hx)
      rcases evict_cases h.queue hlen₂ (h.page e List.mem_cons_self).2 hev with
        ⟨hnone, l, E', rfl, hl, hsub, hstay⟩ | ⟨q, pd, hq, hpd, ⟨hz, l, rfl, hl⟩ | ⟨pte, f, list, sw, disk, pg, l, hpte, hlink, hl, hout⟩⟩
      · refine ⟨E', h.setLru hl (fun x hx => hpage x (hsub.subset hx)) fun q w _ => .inl ?_, hfull.setLru fun q w _ hm =>
          List.mem_cons_of_mem e (hsub.subset hm), rfl, by have := hsub.length_le; omega⟩
        have hne : (s.ptable q).pid ≠ e.1 := by
          rw [← h.pid q]
          exact getProc_none hnone q
        rw [List.count_cons_of_ne (fun he => hne (congrArg Prod.fst he).symm)]
        exact hstay _ hne
      · have hpgdir : (s.ptable q).pgdir ≠ none := fun hn => by
          rw [h.dir q hn, hn] at hpd
          cases hpd
        have hqpid : (s.ptable q).pid = e.1 := (h.pid q).symm.trans (getProc_pid hq)
        refine ⟨E, h.setLru hl hpage fun r w hr => ?_, hfull.setLru fun _ _ _ hm => List.mem_cons_of_mem e hm, rfl, by omega⟩
        by_cases hxe : ((s.ptable r).pid, w) = e
        · subst hxe
          obtain rfl := hd r q hr hqpid.symm
          refine .inr ((hfull r w hpgdir List.mem_cons_self).resolve_left (not_not.2 ?_))
          rw [Kernel.pte, hpd]
          exact hz
        · rw [List.count_cons_of_ne (Ne.symm hxe)]
          exact .inl le_rfl
      · have hstep := h.outed hd hq hpd hpte hlink hl disk pg
        rw [hout]
        have := List.length_erase_le (a := e) (l := E)
        exact ⟨_, hstep.1, hstep.2 hfull, rfl, by omega⟩
    obtain ⟨l, hget', hl⟩ := getLru_evict pid v h.queue (by rw [List.length_cons]; omega) hev h₁.queue hlen₁
    obtain rfl := Except.ok.inj (hget'.symm.trans hget)
    exact ⟨_, (happend h₁ hl).1, fun _ => (happend h₁ hl).2 hf₁, hphys⟩

theorem Phys.Takes.sound {m m' : Phys} (h : m.Takes m') (hm : m.Sound) : m'.Sound := by
  obtain ⟨T, hT, -⟩ := h.taken
  intro f hf
  rw [h.layout]
  exact hm f (by rw [hT]; exact List.mem_append_right T hf)

theorem mappages_sound {pd pd' : PageDir} {a pa : Nat} {perm : Flags} {set : Bool} {m m' : Phys} {r : Int} (hal : a % pgSize = 0)
    (hw : a < wordSize) (hm : m.Sound) (h : mappages pd a pgSize pa perm set m = (r, pd', m')) : m'.Sound := by
  rcases mappages_page_cases pa perm set pd m hal hw with ⟨-, -, hmap⟩ | ⟨pd₁, m₁, hmap, hmapped⟩
  · cases hmap.symm.trans h
    exact hm
  · cases hmap.symm.trans h
    exact hmapped.takes.sound hm

/-- The copy up to where it ends, done or not. -/
theorem copyuvmLoop_copying {old new : ProcIdx} (hd : Distinct s)
    (hpid : ∀ q, (s.ptable q).pid = (s.ptable new).pid → (s.ptable q).pgdir = none) :
    ∀ {n i : Nat} {mem : Option Nat} {d d' : PageDir} {t t' : Kernel} {E : List (Int × Nat)} {done : Bool}, i % pgSize = 0 →
    i + n * pgSize ≤ kernBase → Copying s E t → (ringPages (t.ptable old) n i ≤ freeEntries t.lru ∨ Full s E t) →
    t.phys.Sound → copyuvmLoop old new n i mem d t = .ok (done, d', t') → ∃ E', Copying s E' t'
  | 0, _, _, _, _, _, _, E, _, _, _, hc, _, _, h => by
    cases h
    exact ⟨E, hc⟩
  | n + 1, i, mem, d, d', t, t', E, done, hal, hi, hc, hroom, hfree, h => by
    have hal' : (i + pgSize) % pgSize = 0 := by simp only [pgSize] at *; omega
    have hi' : i + pgSize + n * pgSize ≤ kernBase := by simp only [pgSize] at *; omega
    have hlt : i < kernBase := by simp only [pgSize, kernBase] at *; omega
    have hw : i < wordSize := by simp only [kernBase, wordSize] at *; omega
    rw [ringPages] at hroom
    rw [copyuvmLoop] at h
    obtain ⟨pd, hpd, h⟩ := bind_eq_ok.1 h
    rw [deref_eq_ok] at hpd
    split at h
    · cases h
    next pte hpte =>
    split at h
    · rcases hmap : mappages d i pgSize (mem.elim kernBase (· * pgSize)) ⟨false, true, true⟩ false t.phys with ⟨r, d₁, m₁⟩
      rw [hmap] at h
      dsimp only at h
      split at h
      · cases h
        exact ⟨E, hc.setPhys m₁⟩
      · exact copyuvmLoop_copying hd hpid hal' hi' (hc.setPhys m₁)
          (hroom.imp (fun hr => le_trans (Nat.le_add_right _ _) hr) fun hf => hf.setPhys m₁) (mappages_sound hal hw hfree hmap) h
    · next hpres =>
      obtain ⟨⟨x, t₁⟩, hk, hcopy⟩ := bind_eq_ok.1 h
      clear h
      unfold kalloc kallocPage at hk
      cases hfl : t.phys.freelist with
      | nil =>
        rw [hfl] at hk
        cases hk
        cases hcopy
        exact ⟨E, hc⟩
      | cons g fl =>
        rw [hfl] at hk
        dsimp only at hk
        have hg : t.phys.layout.Holds g := hfree g (by rw [hfl]; exact List.mem_cons_self)
        have hfl' : Phys.Sound { t.phys with freelist := fl } := fun f hf => hfree f (by rw [hfl]; exact List.mem_cons_of_mem g hf)
        have hpop := hc.setPhys { t.phys with freelist := fl }
        -- the entry of the ring, if there is one
        obtain ⟨E₁, rfl, hc₁, hroom₁, hphys⟩ : ∃ E₁, x = some g ∧ Copying s E₁ t₁ ∧
            (ringPages (t₁.ptable old) n (i + pgSize) ≤ freeEntries t₁.lru ∨ Full s E₁ t₁) ∧
            t₁.phys = { t.phys with freelist := fl } := by
          generalize hlru : (if (t.ptable old).cdbSize < i then (i : Int) else -1) = lru at hk
          split at hk
          · next hin =>
            obtain ⟨t₂, hget, hk⟩ := bind_eq_ok.1 hk
            cases hk
            have hcdb : (t.ptable old).cdbSize < i := by
              by_contra hno
              rw [if_neg hno] at hlru
              exact hin.2 hlru.symm
            have hpresent : ((t.ptable old).pgdir.elim Pte.zero (·.pte i)).present = true := by
              rw [hpd, Option.elim_some, PageDir.pte, hpte]
              simpa using hpres
            rw [if_pos ⟨hcdb, hpresent⟩] at hroom
            rw [if_pos hcdb] at hlru
            rw [← hlru, Int.toNat_natCast] at hget
            rw [show (t.ptable new).pid = (s.ptable new).pid from hc.pid new] at hget
            obtain ⟨E₁, hc₁, hf₁, hphys⟩ := hpop.getLru hd (hroom.imp (fun hr => by dsimp only; omega) fun hf => hf.setPhys _) hpid
              ⟨hal, hlt.le⟩ hget
            refine ⟨E₁, rfl, hc₁, ?_, hphys⟩
            rcases hroom with hr | hf
            · obtain ⟨l, rfl, hl⟩ := getLru_room (s := { t with phys := { t.phys with freelist := fl } }) (by dsimp only; omega) hget
              left
              dsimp only at hl ⊢
              omega
            · exact .inr (hf₁ (hf.setPhys _))
          · cases hk
            exact ⟨E, rfl, hpop, hroom.imp (fun hr => le_trans (Nat.le_add_right _ _) hr) fun hf => hf.setPhys _, rfl⟩
        dsimp only at hcopy
        obtain ⟨pd', -, hmap⟩ := bind_eq_ok.1 hcopy
        clear hcopy
        split at hmap
        · cases hmap
        next pte' _ =>
        generalize hm₁ : t₁.phys.setPage g (t₁.phys.mem pte'.frame) = m₁ at hmap
        have hlay : m₁.layout = t.phys.layout := by rw [← hm₁, hphys]; rfl
        have hsound : m₁.Sound := by rw [← hm₁, hphys]; exact hfl'
        rcases hres : mappages d i pgSize (g * pgSize) pte'.toFlags true m₁ with ⟨r, d₁, m₂⟩
        rw [hres] at hmap
        dsimp only at hmap
        split at hmap
        · next hr =>
          obtain ⟨t₂, hfreed, hmap⟩ := bind_eq_ok.1 hmap
          cases hmap
          have hm₂ : m₂ = m₁ := by
            rcases mappages_page_cases (g * pgSize) pte'.toFlags true d m₁ hal hw with ⟨-, -, hm⟩ | ⟨d₂, m₃, hm, -⟩
            · cases hm.symm.trans hres
              rfl
            · cases hm.symm.trans hres
              exact absurd hr (by decide)
          obtain ⟨m, rfl, -⟩ := klruFreeSwap_kernel (by rw [hm₂]; dsimp only; rw [hlay]; exact hg) hfreed
          exact ⟨E₁, hc₁.setPhys m⟩
        · exact copyuvmLoop_copying hd hpid hal' hi' (hc₁.setPhys m₂) (hroom₁.imp id fun hf => hf.setPhys m₂)
            (mappages_sound hal hw hsound hres) hmap

theorem Copying.begin (hring : Queue s.lru s.lru.abs) (hpage : ∀ e ∈ s.lru.abs, e.2 % pgSize = 0 ∧ e.2 ≤ kernBase) :
    Copying s s.lru.abs s :=
  ⟨fun _ => rfl, fun _ _ => rfl, fun _ h => h, fun _ _ h => .inl h, hring, hpage, fun _ _ _ h => absurd h (lt_irrefl _)⟩

/-- A copy without memory for the directory. -/
theorem copyuvm_early {p np : ProcIdx} {o : Option PageDir} {s' : Kernel} (hlen : s.phys.freelist.length < 65)
    (h : copyuvm p np s = .ok (o, s')) : ∃ m, s' = { s with phys := m } := by
  unfold copyuvm at h
  obtain ⟨⟨o, m⟩, hset, h⟩ := bind_eq_ok.1 h
  rcases setupkvm_cases (m := s.phys) with ⟨-, hno⟩ | ⟨d, m', hle, -⟩
  · obtain rfl := hno _ _ hset
    cases h
    exact ⟨m, rfl⟩
  · omega

/-- A copy that ends early: the entries and slots of the new process are freed. -/
theorem copyuvm_failed {p np : ProcIdx} {s' : Kernel} (hd : Distinct s)
    (hpid : ∀ q, (s.ptable q).pid = (s.ptable np).pid → (s.ptable q).pgdir = none) (hc : Copying s s.lru.abs s)
    (hroom : Room s p ∨ Full s s.lru.abs s) (hsz : (s.ptable p).sz ≤ kernBase) (hfree : s.phys.Sound)
    (hlen : 65 ≤ s.phys.freelist.length) (h : copyuvm p np s = .ok (none, s')) :
    ∃ E t l t' m, Copying s E t ∧ (Room s p → t.swap = s.swap ∧ t.ptable = s.ptable) ∧ lruFree (s.ptable np).pid t.lru = .ok l ∧
      swapFree (s.ptable np).pid { t with lru := l } = .ok t' ∧ s' = { t' with phys := m } := by
  unfold copyuvm at h
  obtain ⟨⟨o, m₀⟩, hset, h⟩ := bind_eq_ok.1 h
  obtain ⟨hlay, huses⟩ := setupkvm_uses hset
  rcases setupkvm_cases (m := s.phys) with ⟨hlt, -⟩ | ⟨d, m, -, hset', hkd⟩
  · omega
  · cases hset'.symm.trans hset
    obtain ⟨⟨done, d₁, t⟩, hloop, h⟩ := bind_eq_ok.1 h
    dsimp only at h
    split at h
    · cases h
    obtain ⟨l, hl, h⟩ := bind_eq_ok.1 h
    obtain ⟨t', ht', h⟩ := bind_eq_ok.1 h
    obtain ⟨m', hvm, h⟩ := bind_eq_ok.1 h
    cases h
    have hbound : 0 + (((s.ptable p).sz + pgSize - 1) / pgSize) * pgSize ≤ kernBase := by
      simp only [pgSize, kernBase] at *
      omega
    obtain ⟨E, hE⟩ := copyuvmLoop_copying hd hpid (by decide) hbound (hc.setPhys m₀) (hroom.imp id fun hf => hf.setPhys m₀)
      (hkd.takes.sound hfree) hloop
    have hpid' : (t.ptable np).pid = (s.ptable np).pid := hE.pid np
    rw [hpid'] at hl ht'
    refine ⟨E, t, l, t', m', hE, fun hr => ?_, hl, ht', rfl⟩
    -- with room in the ring nothing is evicted
    have hholding : Holding d m₀ := fun f hf => by
      rw [hlay]
      have := huses f
      simp only [Option.elim_some] at this
      rw [this, Phys.free, List.count_pos_iff] at hf
      exact hfree f hf
    obtain ⟨l', m'', rfl, -⟩ := copyuvmLoop_pages (s := { s with phys := m₀ }) (by decide) hbound hr hholding
      (fun b _ hb => by rw [hkd.pte_user hb]; rfl) hloop
    exact ⟨rfl, rfl⟩

end Copy

/-! ## Memory for the directory only -/

section Short

variable {s : Kernel} {p np : ProcIdx}

/-- `fork` with 66 pages fails at the first page of the copy. -/
theorem fork_short {pd : PageDir} {pte : Pte} {l : Lru} {L : List SlotIdx}
    (hfind : Fin.find? (fun i => (s.ptable i).state = .unused) = some np) (hne : np ≠ p) (hpd : (s.ptable p).pgdir = some pd)
    (hpte : pd.pte? 0 = some pte) (hnp : pte.present = false) (hsz : 0 < (s.ptable p).sz) (hlen : s.phys.freelist.length = 66)
    (hsound : s.phys.Sound) (hids : ∀ q, (s.ptable q).pid < s.nextpid) (hl : lruFree s.nextpid s.lru = .ok l)
    (hL : SwapList s.swap (s.ptable np).swapList L) (hlk : s.swap.lk = false) (hforked : (s.ptable np).forked = false) :
    ∃ s', fork p s = .ok (-1, s') ∧ s'.swap = s.swap.cleared L := by
  obtain ⟨k, fl, hfl⟩ : ∃ k fl, s.phys.freelist = k :: fl := by
    cases hfl : s.phys.freelist with
    | nil => rw [hfl] at hlen; cases hlen
    | cons k fl => exact ⟨k, fl, rfl⟩
  rw [hfl, List.length_cons] at hlen
  generalize hs₁ : ({ s with
    ptable := Function.update s.ptable np { s.ptable np with state := .embryo, pid := s.nextpid, kstack := some k }
    nextpid := s.nextpid + 1
    phys := { s.phys with freelist := fl } } : Kernel) = s₁
  have hal : allocproc s = (some np, s₁) := by
    unfold allocproc kallocPage
    rw [hfind, ← hs₁]
    simp [hfl, Kernel.setProc]
  have hp₁ : s₁.ptable p = s.ptable p := by rw [← hs₁]; simp [hne.symm]
  have hnp₁ : s₁.ptable np = { s.ptable np with state := .embryo, pid := s.nextpid, kstack := some k } := by rw [← hs₁]; simp
  have hsw₁ : s₁.swap = s.swap := by rw [← hs₁]
  have hfree₁ : s₁.phys.freelist = fl ∧ s₁.phys.layout = s.phys.layout := by rw [← hs₁]; exact ⟨rfl, rfl⟩
  rcases setupkvm_cases (m := s₁.phys) with ⟨hlt, -⟩ | ⟨d, m, -, hset, hkd⟩
  · rw [hfree₁.1] at hlt
    omega
  obtain ⟨hlay, huses⟩ := setupkvm_uses hset
  have hnil : m.freelist = [] := by
    have := hkd.length
    rw [hfree₁.1] at this
    exact List.length_eq_zero_iff.1 (by omega)
  -- there is no page for the table of the first page
  have hmap : mappages d 0 pgSize kernBase ⟨false, true, true⟩ false m = (-1, d, m) := by
    rcases mappages_page_cases (a := 0) kernBase ⟨false, true, true⟩ false d m (by decide) (by decide) with ⟨-, -, h⟩ | ⟨d', m', -, h⟩
    · exact h
    · have hno : pdx 0 ∉ d.present := by
        rw [hkd.present, kernelIdx]
        simp [pdx]
      have hin : pdx 0 ∈ d'.present := mem_present.2 fun hn => by
        rw [← pte?_eq_none, h.entry] at hn
        cases hn
      have hcard := Finset.card_le_card (Finset.insert_subset hin h.grows)
      rw [Finset.card_insert_of_notMem hno] at hcard
      have := h.balance
      rw [hnil, List.length_nil] at this
      omega
  have hholds : ∀ f, 0 < d.uses f → m.layout.Holds f := fun f hf => by
    have h1 := huses f
    rw [Option.elim_some] at h1
    rw [hlay, hfree₁.2]
    refine hsound f ?_
    rw [hfl]
    refine List.mem_cons_of_mem k (List.count_pos_iff.1 ?_)
    rw [show s₁.phys.free f = fl.count f by rw [Phys.free, hfree₁.1]] at h1
    omega
  obtain ⟨m', hvm⟩ := freevm_progress hholds
  obtain ⟨m'', hkf⟩ := kfree_holds.2 (show m'.layout.Holds k by
    rw [(freevm_uses hvm).1, hlay, hfree₁.2]
    exact hsound k (by rw [hfl]; exact List.mem_cons_self))
  have hget : ∀ t : Kernel, t.ptable = s₁.ptable → getProc s.nextpid t = some np := fun t ht => by
    rw [show s.nextpid = (t.ptable np).pid by rw [ht, hnp₁]]
    refine getProc_eq fun q hq => ?_
    by_contra hqn
    rw [ht, hnp₁, ← hs₁] at hq
    simp only [Function.update_of_ne hqn] at hq
    exact absurd hq (hids q).ne
  generalize hs₂ : ({ ({ s₁ with lru := l } : Kernel).setSwap np
      (if L.length = 1 then (s.ptable np).swapList else none) (s.swap.cleared L) with phys := m' } : Kernel) = s₂
  have hcopy : copyuvm p np s₁ = .ok (none, s₂) := by
    obtain ⟨n, hn⟩ : ∃ n, ((s.ptable p).sz + pgSize - 1) / pgSize = n + 1 := by
      refine ⟨((s.ptable p).sz + pgSize - 1) / pgSize - 1, ?_⟩
      simp only [pgSize]
      omega
    have hloop : copyuvmLoop p np (n + 1) 0 none d { s₁ with phys := m } = .ok (false, d, { s₁ with phys := m }) := by
      rw [copyuvmLoop]
      simp only [hp₁, hpd, deref_some, ok_bind, hpte, hnp, if_true, Option.elim_none, hmap]
      rfl
    have hswap : swapFree s.nextpid { s₁ with phys := m, lru := l } = .ok (({ s₁ with phys := m, lru := l } : Kernel).setSwap np
        (if L.length = 1 then (s.ptable np).swapList else none) (s.swap.cleared L)) := by
      unfold swapFree
      rw [hget { s₁ with phys := m, lru := l } rfl]
      simp only [hnp₁, hsw₁, hforked, Bool.false_eq_true, if_false]
      rw [freeSlots_eq hL hlk]
      rfl
    unfold copyuvm
    rw [hset]
    simp only [ok_bind, hp₁, hn, hloop, Bool.false_eq_true, if_false, hnp₁]
    rw [show s₁.lru = s.lru by rw [← hs₁], hl, ok_bind, hswap, ok_bind]
    rw [← hs₂]
    simp only [Kernel.setSwap, Kernel.setProc_phys, hvm, ok_bind, pure_ok]
    rfl
  have hstack : (s₂.ptable np).kstack = some k := by
    rw [← hs₂, Kernel.setSwap_ptable, if_pos rfl, hnp₁]
  have hphys : s₂.phys = m' := by rw [← hs₂]
  have hswap : s₂.swap = s.swap.cleared L := by rw [← hs₂]; rfl
  clear hs₂
  refine ⟨{ s₂.setProc np { s₂.ptable np with pgdir := none, kstack := none, state := .unused } with phys := m'' }, ?_, hswap⟩
  unfold fork
  rw [hal]
  dsimp only
  rw [hcopy, ok_bind]
  dsimp only
  rw [hstack, deref_some, ok_bind, hphys, hkf, ok_bind, pure_ok]

end Short

/-! ## The failure -/

section Fail

variable {s s' : Kernel} {p np : ProcIdx}

/-- `lru_free` leaves the entries of others. -/
theorem Queue.free_count {l l' : Lru} {E : List (Int × Nat)} {pid : Int} (h : Queue l E) (hfree : lruFree pid l = .ok l')
    {x : Int × Nat} (hx : x.1 ≠ pid) : E.count x ≤ l'.abs.count x := by
  by_cases hlen : 2 ≤ E.length
  · obtain ⟨l₁, E', hl₁, hq, -, hstay⟩ := h.free_others pid hlen
    obtain rfl := Except.ok.inj (hl₁.symm.trans hfree)
    rw [hq.abs_eq]
    exact hstay x hx
  · obtain ⟨L, hL, rfl, hlk⟩ := h
    rw [List.length_map] at hlen
    by_cases hs : ∀ y, L = [y] → (l.frames y).pid ≠ pid
    · obtain ⟨l₁, L', hl₁, hL', hlk', hent, hres⟩ := lruFree_rep pid hL hlk hs
      obtain rfl := Except.ok.inj (hl₁.symm.trans hfree)
      rw [hL'.abs_eq, hent]
      rcases hres with rfl | ⟨-, h2, -⟩
      · rw [show (L.filter fun i => (l.entry i).1 ≠ pid).map l.entry = (L.map l.entry).filter fun y => y.1 ≠ pid by
          rw [List.filter_map]; rfl, List.count_filter (by simpa using hx)]
      · exact absurd h2 hlen
    · -- the only entry is the one that goes
      obtain ⟨y, hy⟩ := not_forall.1 hs
      obtain ⟨rfl, hpid⟩ := Classical.not_imp.1 hy
      rw [List.map_singleton, List.count_eq_zero.2]
      · exact Nat.zero_le _
      · intro hm
        rw [List.mem_singleton] at hm
        exact hx (by rw [hm]; exact not_not.1 hpid)

/-- The slots of the new entry are freed unless it is marked as forked. -/
theorem swapFree_fresh {t t' : Kernel} {pid : Int} (huniq : ∀ q, (t.ptable q).pid = pid ↔ q = np) (h : swapFree pid t = .ok t') :
    t'.lru = t.lru ∧ (∀ q, q ≠ np → t'.ptable q = t.ptable q) ∧ t'.swap.frames = t.swap.frames ∧
      ∀ i, (t'.swap.bitmap i = t.swap.bitmap i ∨ t'.swap.bitmap i = -1 ∧ (t.ptable np).forked = false ∧ Lists t np i) ∧
        ((t.ptable np).forked = false → Lists t np i → t'.swap.bitmap i = -1) := by
  have hother : ∀ list sw q, q ≠ np → (t.setSwap np list sw).ptable q = t.ptable q := fun list sw q hq => by
    rw [Kernel.setSwap_ptable, if_neg hq]
  have hnp : getProc pid t = some np := by
    cases hg : getProc pid t with
    | none => exact absurd ((huniq np).2 rfl) (getProc_none hg np)
    | some q => rw [(huniq q).1 (getProc_pid hg)]
  rcases swapFree_cases h with ⟨hno, -⟩ | ⟨q, hq, ⟨hf, rfl⟩ | ⟨hf, list, sw, hfree, rfl⟩⟩
  · rw [hnp] at hno
    cases hno
  all_goals
    rw [hnp] at hq
    cases hq
  · exact ⟨rfl, hother none t.swap, rfl, fun i => ⟨.inl rfl, fun hn => by rw [hf] at hn; cases hn⟩⟩
  · obtain ⟨hfr, hbits⟩ := freeSlots_bits hfree
    refine ⟨rfl, hother list sw, hfr, fun i => ⟨?_, fun _ hl => ?_⟩⟩
    · rcases (hbits i).1 with he | ⟨he, x, hx, hr⟩
      · exact .inl he
      · exact .inr ⟨he, hf, x, hx, hr⟩
    · obtain ⟨x, hx, hr⟩ := hl
      exact (hbits i).2 x hx hr

theorem lists_congr {t t' : Kernel} {q : ProcIdx} {i : SlotIdx} (hl : (t'.ptable q).swapList = (t.ptable q).swapList)
    (hf : t'.swap.frames = t.swap.frames) : Lists t' q i ↔ Lists t q i := by
  rw [Lists, Lists, hl, hf]

theorem allocStable_pid (s : Kernel) : AllocStable fun t => ∀ q, (t.ptable q).pid = (s.ptable q).pid where
  lru _ _ h := h
  phys _ _ h := h
  buffer t q pg h _ r := by
    rw [Kernel.setProc_ptable]
    split
    · next hr => subst hr; exact h r
    · exact h r
  out t t' q v r h _ hout u := by
    rw [swapOutFunc_eq] at hout
    obtain ⟨_, _, _, _, _, hf, _⟩ := swapOutWith_ok hout
    exact (hf.pid u).trans (h u)

/-- The pid of the child is the one it was given. -/
theorem copyuvm_pid {d : PageDir} (h : copyuvm p np s = .ok (some d, s')) (q : ProcIdx) : (s'.ptable q).pid = (s.ptable q).pid := by
  unfold copyuvm at h
  obtain ⟨⟨o, m⟩, -, h⟩ := bind_eq_ok.1 h
  cases o with
  | none => cases h
  | some d₀ =>
    obtain ⟨⟨done, d₁, t⟩, hloop, h⟩ := bind_eq_ok.1 h
    dsimp only at h
    split at h
    · cases h
      exact (allocStable_pid s).copyuvmLoop (s := { s with phys := m }) (fun _ => rfl) hloop q
    · obtain ⟨_, -, h⟩ := bind_eq_ok.1 h
      obtain ⟨_, -, h⟩ := bind_eq_ok.1 h
      obtain ⟨_, -, h⟩ := bind_eq_ok.1 h
      cases h

/-- The entry that `fork` takes, and the state in which it begins the copy. -/
theorem alloc_sane (h : Sane s) (hp : Live s p) {s₁ : Kernel} (hal : allocproc s = (some np, s₁)) :
    p ≠ np ∧ (∀ q, q ≠ np → s₁.ptable q = s.ptable q) ∧ s₁.swap = s.swap ∧ s₁.lru = s.lru ∧ s₁.phys.Sound ∧
      s.phys.freelist.length = s₁.phys.freelist.length + 1 ∧ ¬Live s np ∧
      ((s₁.ptable np).swapList = (s.ptable np).swapList ∧ (s₁.ptable np).forked = (s.ptable np).forked ∧ (s₁.ptable np).pgdir = none) ∧
      Distinct s₁ ∧ (∀ q, (s₁.ptable q).pid = (s₁.ptable np).pid ↔ q = np) ∧ 0 < (s₁.ptable np).pid := by
  obtain ⟨hfind, k, fl, hfl, rfl⟩ := allocproc_some hal
  have hun : (s.ptable np).state = .unused := by simpa using Fin.eq_true_of_find?_eq_some hfind
  have hne : p ≠ np := by rintro rfl; exact hp hun
  have hlt := h.ids.lt
  have hfresh : ∀ q, q ≠ np → (s.ptable q).pid ≠ s.nextpid := fun q _ => (hlt q).ne
  refine ⟨hne, fun q hq => by simp [hq], rfl, rfl, fun f hf => h.free f (by rw [hfl]; exact List.mem_cons_of_mem k hf), by rw [hfl]; rfl,
    by rw [Live, not_not]; exact hun, ⟨by simp, by simp, ?_⟩, fun a b ha hab => ?_, fun q => ⟨fun hq => ?_, fun hq => by rw [hq]⟩,
    by simpa using h.ids.next⟩
  · simpa using h.ids.dir np (by rw [Live, not_not]; exact hun)
  · by_cases ha' : a = np <;> by_cases hb' : b = np
    · rw [ha', hb']
    · subst ha'
      simp only [Function.update_self, Function.update_of_ne hb'] at hab
      exact absurd hab.symm (hfresh b hb')
    · subst hb'
      simp only [Function.update_self, Function.update_of_ne ha'] at hab
      exact absurd hab (hfresh a ha')
    · simp only [Live, Function.update_of_ne ha', Function.update_of_ne hb'] at ha hab
      exact h.ids.unique a b hab (h.ids.pos a ha)
  · by_contra hqn
    simp only [Function.update_self, Function.update_of_ne hqn] at hq
    exact hfresh q hqn hq

end Fail

/-! ### A fork without memory -/

theorem lowKernel_sane {n : Nat} (hn : n ≤ 200) : Sane (lowKernel n) := by
  have hring : Queue (lowKernel n).lru (lowKernel n).lru.abs := by
    rw [show (lowKernel n).lru = lruInit from rfl, lruInit_queue.abs_eq]
    exact lruInit_queue
  have hkept := lowKernel_kept hn
  refine ⟨lowKernel_ids, hring, fun e he => ?_, hkept.size, fun f hf => hkept.holds f ?_⟩
  · rw [show (lowKernel n).lru = lruInit from rfl, lruInit_queue.abs_eq] at he
    cases he
  · rw [Kernel.uses]
    have := List.count_pos_iff.2 hf
    rw [← Phys.free] at this
    omega

theorem lruInit_free (pid : Int) : lruFree pid lruInit = .ok lruInit := rfl

section Leftover

variable {n : Nat} {s : Kernel} {k : Nat} {d : PageDir}

/-- The memory of the child is free again. -/
theorem Gone.length {s' : Kernel} (hn : n ≤ 200) (h : Forking n s k d) (hg : Gone s 1 0 s') : s'.phys.freelist.length = n := by
  have hproc : ∀ q f, (s'.ptable q).uses f = ((lowKernel n).ptable q).uses f := by
    intro q f
    by_cases h1 : q = 1
    · subst h1
      obtain ⟨hks, hpg⟩ := hg.kept.idle 1 (by rw [Live, not_not]; exact hg.state)
      obtain ⟨hks', hpg'⟩ := (lowKernel_kept hn).idle 1 fun hc => absurd (lowKernel_live.1 hc) (by decide)
      rw [Proc.uses, Proc.uses, hks, hpg, hks', hpg']
    · obtain ⟨o, ho⟩ := hg.other q h1
      rw [ho]
      by_cases h0 : q = 0
      · subst h0
        rw [h.parent, lowKernel_self]
        rfl
      · rw [h.other q h0 h1, lowKernel_other h0]
        rfl
  have hfree : ∀ f, s'.phys.free f = (lowKernel n).phys.free f := fun f => by
    have h1 := (hg.uses f).trans (h.uses f)
    rw [Kernel.uses, Kernel.uses, tally_congr fun q => hproc q f] at h1
    omega
  rw [(List.perm_iff_count.2 hfree).length_eq]
  exact List.length_range'

/-- Slot 0 is on the list of the parent, and on the one that the child has left. -/
structure Regrown (s : Kernel) : Prop where
  live : (s.ptable 0).state = .running
  size : 0 < (s.ptable 0).sz
  dir : ∃ pd, (s.ptable 0).pgdir = some pd ∧ pd.pte? 0 = some newPte
  list : (s.ptable 0).swapList = some 0
  entry : (s.ptable 1).state = .unused ∧ (s.ptable 1).swapList = some 0 ∧ (s.ptable 1).forked = false
  pid : ∀ q, (s.ptable q).pid < s.nextpid
  slot : (s.swap.frames 0).next = none ∧ s.swap.bitmap 0 = 1 ∧ s.swap.lk = false
  lru : s.lru = lruInit
  free : s.phys.Sound

theorem Regrown.fails (h : Regrown s) (hlen : s.phys.freelist.length = 66) : ∃ s', fork 0 s = .ok (-1, s') ∧ ¬Harmless s s' := by
  obtain ⟨pd, hpd, hpte⟩ := h.dir
  have hfind : Fin.find? (fun i => (s.ptable i).state = .unused) = some 1 := by
    rw [Fin.find?_eq_some_iff]
    refine ⟨by simpa using h.entry.1, fun j hj => ?_⟩
    obtain rfl : j = 0 := Fin.ext (Nat.lt_one_iff.1 hj)
    simp [h.live]
  have hlist : SwapList s.swap (s.ptable 1).swapList [0] := by
    rw [h.entry.2.1]
    exact ⟨rfl, h.slot.1⟩
  obtain ⟨s', hfork, hsw⟩ := fork_short hfind (by decide) hpd hpte rfl h.size hlen h.free h.pid (by rw [h.lru]; exact lruInit_free _)
    hlist h.slot.2.2 h.entry.2.2
  refine ⟨s', hfork, fun hh => hh.slots 0 0 ?_ ⟨0, h.list, .refl⟩ ?_ ?_⟩
  · rw [Live, h.live]; simp
  · rw [h.slot.2.1]; decide
  · rw [hsw]; simp [Swap.cleared]

/-- The child has left its list, and the parent grows by a page. -/
theorem Gone.regrown {s' : Kernel} (h : Forking n s k d) (hg : Gone s 1 0 s') :
    ∃ s'', growproc 0 pgSize s' = .ok (0, s'') ∧ s''.phys = s'.phys ∧ Regrown s'' := by
  obtain ⟨o, hp⟩ := hg.other 0 (by decide)
  rw [h.parent] at hp
  have hsz : (s'.ptable 0).sz = pgSize := by rw [hp]
  have hpd : (s'.ptable 0).pgdir = some smallDir := by rw [hp]; rfl
  have hk : (s'.ptable 0).kstack = some 997 := by rw [hp]; rfl
  have hlist : (s'.ptable 0).swapList = none := by rw [hp]; rfl
  have hst : (s'.ptable 0).state = .running ∧ (s'.ptable 0).pid = 1 := by rw [hp]; exact ⟨rfl, rfl⟩
  clear hp
  have hsw : s'.swap = (swapInit.linked [] .heap pgSize 0).cleared [0] := by
    rw [hg.swap, h.first.2.2.1, h.swap, h.first.1]
    rfl
  have hfree : freeSlot? s'.swap = some 0 := by
    have hbits : s'.swap.bitmap = swapInit.bitmap := by
      rw [hsw]
      funext j
      by_cases hj : j = 0
      · subst hj; rfl
      · simp [Swap.cleared, Swap.linked, hj]
    rw [freeSlot?_congr hbits, freeSlot?_init]
  have htab : pdx (s'.ptable 0).sz ∈ smallDir.present := by
    rw [hsz]
    exact mem_present.2 fun hn => by cases hn
  have hgrow := growproc_table (E := []) (by rw [hsz]; decide) (by rw [hsz]; decide) hpd htab hk
    (show SwapList _ _ [] from hlist) (by rw [hsw]; rfl) hfree (by rw [hg.lru, h.lru]; exact lruInit_queue) (by simp)
  refine ⟨_, hgrow, rfl, ?_, ?_, ?_, ?_, ?_, fun q => ?_, ?_, hg.lru.trans h.lru, fun f hf => ?_⟩
  · rw [grown_self]; exact hst.1
  · rw [grown_self]
    exact Nat.add_pos_right _ (by decide)
  · rw [grown_self, hsz]
    exact ⟨_, rfl, by decide⟩
  · rw [grown_self, hlist]; rfl
  · rw [grown_other (by decide)]
    exact ⟨hg.state, by rw [hg.list, h.first.2.2.1]; rfl, hg.forked.trans h.first.2.2.1⟩
  · show _ < s'.nextpid
    rw [hg.nextpid, h.nextpid]
    by_cases h0 : q = 0
    · subst h0
      rw [grown_self]
      show (s'.ptable 0).pid < 3
      rw [hst.2]
      decide
    rw [grown_other h0]
    by_cases h1 : q = 1
    · subst h1
      rw [hg.pid]
      decide
    · obtain ⟨o, ho⟩ := hg.other q h1
      rw [ho, h.other q h0 h1]
      simp [smallKernel, h0]
  · show ((s'.swap.linked [] .heap (s'.ptable 0).sz 0).frames 0).next = none ∧ _
    exact ⟨by simp [Swap.linked], by simp [Kernel.grown, Kernel.swappedOut, Kernel.setProc, Swap.linked], rfl⟩
  · have hpos := List.count_pos_iff.2 hf
    refine hg.kept.holds f ?_
    rw [Kernel.uses, Phys.free]
    exact Nat.add_pos_left hpos _

/-- The machine of the run: no pipes, and one CPU. -/
def lowMachine (n : Nat) : Machine := ⟨lowKernel n, [], ⟨996, fun _ => none⟩, []⟩

/-- A pipe takes a page. -/
theorem pipealloc_regrown {t : Machine} {m : Nat} (h : Regrown t.kernel) (hlen : t.kernel.phys.freelist.length = m + 1) :
    ∃ t', (MachineCall.pipealloc true).run t = .ok t' ∧ Regrown t'.kernel ∧ t'.kernel.phys.freelist.length = m := by
  cases hfl : t.kernel.phys.freelist with
  | nil => rw [hfl] at hlen; cases hlen
  | cons a fl =>
    rw [hfl, List.length_cons] at hlen
    refine ⟨⟨{ t.kernel with phys := { t.kernel.phys with freelist := fl } }, ⟨a, true, true⟩ :: t.pipes, t.kpgdir, t.cpuStacks⟩, ?_,
      ⟨h.live, h.size, h.dir, h.list, h.entry, h.pid, h.slot, h.lru, fun f hf => h.free f ?_⟩, by simpa using hlen⟩
    · simp [MachineCall.run, pipealloc, kallocPage, hfl]
    · rw [hfl]
      exact List.mem_cons_of_mem a hf

end Leftover

end DemandPaging
