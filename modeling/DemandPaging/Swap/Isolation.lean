/-
What the swap operations of one process show another. A process sees of the swap table the chain
that starts at its `swap_list`, and of the disk the blocks of the slots on it; so an operation of
another process is invisible to it as long as it writes neither.
-/
import DemandPaging.Swap.Extents
import DemandPaging.Swap.Lifecycle

namespace DemandPaging

open Relation

/-! ## What a process sees -/

/-- What `swap_check` says about a page of the process, with the bytes that the matching `swap_in*`
would map. -/
def swapView (q : ProcIdx) (vaddr : Nat) (s : Kernel) : Except Stuck (Option (SwapKind × Page)) := do
  match ← Prod.fst <$> swapCheck vaddr (s.ptable q).swapList s.swap with
  | none => return none
  | some kind =>
    let slot ← Prod.fst <$> takeSlot vaddr (s.ptable q).swapList s.swap
    return slot.map fun findex => (kind, diskPage s.disk (kind.start + findex * 8))

section Search

variable {sw sw' : Swap} {vaddr : Nat}

/-- Two tables agree on what is read of a slot. -/
def SameSlot (sw sw' : Swap) (i : SlotIdx) : Prop :=
  (sw'.frames i).vaddr = (sw.frames i).vaddr ∧ (sw'.frames i).next = (sw.frames i).next ∧
    (sw'.frames i).swap = (sw.frames i).swap

theorem checkSlot_congr : ∀ {fuel : Nat} {x : SlotIdx}, (∀ i, sw.Reaches x i → SameSlot sw sw' i) →
    checkSlot sw' vaddr fuel x = checkSlot sw vaddr fuel x
  | 0, _, _ => rfl
  | fuel + 1, x, h => by
    obtain ⟨hv, hn, hk⟩ := h x .refl
    rw [checkSlot, checkSlot, hv, hn, hk]
    cases hx : (sw.frames x).next with
    | none => rfl
    | some y =>
      obtain ⟨hv', hn', hk'⟩ := h y (.single hx)
      dsimp only
      rw [hv', hn', hk', checkSlot_congr fun i hi => h i (hi.step hx)]

theorem findSlot_congr : ∀ {fuel : Nat} {x : SlotIdx} {prev : Option SlotIdx}, (∀ i, sw.Reaches x i → SameSlot sw sw' i) →
    findSlot sw' vaddr fuel x prev = findSlot sw vaddr fuel x prev
  | 0, _, _, _ => rfl
  | fuel + 1, x, prev, h => by
    obtain ⟨hv, hn, -⟩ := h x .refl
    rw [findSlot, findSlot, hv, hn]
    cases hx : (sw.frames x).next with
    | none => rfl
    | some y =>
      dsimp only
      rw [findSlot_congr fun i hi => h i (hi.step hx)]

/-- `swap_check` and `swap_in*` find the same slot. -/
theorem checkSlot_findSlot : ∀ {fuel : Nat} {x y : SlotIdx} {prev prev' : Option SlotIdx} {kind : SwapKind},
    checkSlot sw vaddr fuel x = .ok (some kind) → findSlot sw vaddr fuel x prev = .ok (y, prev') →
    kind = (sw.frames y).swap
  | 0, _, _, _, _, _, h, _ => by cases h
  | fuel + 1, x, y, prev, prev', kind, hc, hf => by
    rw [checkSlot] at hc
    rw [findSlot] at hf
    cases hx : (sw.frames x).next with
    | none => rw [hx] at hc; cases hc
    | some nx =>
      rw [hx] at hc hf
      dsimp only at hc hf
      split at hc
      · next hv =>
        rw [if_pos hv] at hf
        cases hc; cases hf; rfl
      · next hv =>
        rw [if_neg hv] at hf
        split at hc
        · next hnx =>
          cases hc
          cases fuel with
          | zero => cases hf
          | succ fuel =>
            rw [findSlot, hnx.1] at hf
            cases hf; rfl
        · exact checkSlot_findSlot hc hf

theorem swapCheck_fst {x : SlotIdx} (hlk : sw.lk = false) : Prod.fst <$> swapCheck vaddr (some x) sw =
    if (sw.frames x).next = none ∧ (sw.frames x).vaddr = vaddr then .ok (some (sw.frames x).swap)
    else checkSlot sw vaddr maxFrameSwap x := by
  have hc : checkSlot { sw with lk := true } vaddr maxFrameSwap x = checkSlot sw vaddr maxFrameSwap x :=
    checkSlot_congr fun _ _ => ⟨rfl, rfl, rfl⟩
  unfold swapCheck
  simp only [Swap.acquire_eq hlk, ok_bind, hc]
  split
  · rw [Swap.release_eq rfl]; rfl
  · rw [Swap.release_eq rfl]
    cases checkSlot sw vaddr maxFrameSwap x <;> rfl

theorem takeSlot_fst {x : SlotIdx} (hlk : sw.lk = false) : Prod.fst <$> takeSlot vaddr (some x) sw =
    (fun r => if (sw.frames r.1).vaddr = vaddr then some r.1 else none) <$> findSlot sw vaddr maxFrameSwap x none := by
  unfold takeSlot
  simp only [Swap.acquire_eq hlk, ok_bind, findSlot_lk]
  cases hfind : findSlot sw vaddr maxFrameSwap x none with
  | error e => rfl
  | ok r =>
    obtain ⟨y, prev⟩ := r
    simp only [ok_bind]
    show _ = Except.ok (if (sw.frames y).vaddr = vaddr then some y else none)
    by_cases hv : (sw.frames y).vaddr = vaddr
    · rw [if_neg (by simpa using hv), if_pos hv]
      split
      · split
        · rw [Swap.release_eq rfl]; rfl
        · next hyx =>
          -- past the head the search has a slot before the one it found
          obtain ⟨-, ⟨hx, -⟩ | ⟨z, rfl, -⟩⟩ := findSlot_ok hfind
          · exact absurd hx hyx
          · simp only [deref_some, ok_bind]
            rw [Swap.release_eq rfl]; rfl
      · rw [Swap.release_eq rfl]; rfl
    · rw [if_pos (by simpa using hv), if_neg hv, Swap.release_eq rfl]
      rfl

/-- The slots that `swap_out*` writes: the one it takes, and the end of the list. -/
theorem linkSlot_writes {kind : SwapKind} {list list' : Option SlotIdx} {f : SlotIdx}
    (h : linkSlot kind vaddr list sw = .ok (some f, list', sw')) : sw'.lk = false ∧ ∀ j, j = f ∨ sw'.frames j = sw.frames j ∨
      ∃ x, list = some x ∧ sw.Reaches x j ∧ (sw.frames j).next = none := by
  obtain ⟨-, L, hL, ⟨-, hs, -⟩ | ⟨g, hg, hs, -, rfl⟩⟩ := linkSlot_inv h
  · cases hs
  cases hs
  refine ⟨rfl, fun j => ?_⟩
  by_cases hj : j = f
  · exact .inl hj
  by_cases hlast : L.getLast? = some j
  · obtain ⟨x, rfl, hr⟩ := hL.mem_iff_reach.1 (List.mem_of_getLast? hlast)
    obtain ⟨A, z, rfl⟩ := Chain.Path.exists_snoc hL
    obtain rfl : z = j := by simpa using hlast
    exact .inr (.inr ⟨x, rfl, hr, Chain.Path.next_eq hL⟩)
  · exact .inr (.inl (by simp [Swap.linked, hj, hlast]))

/-- The slots that `swap_in*` changes for a reader: the one before a slot that loses its last
reference. -/
theorem takeSlot_writes {list list' slot : Option SlotIdx} (h : takeSlot vaddr list sw = .ok (slot, list', sw')) :
    sw'.lk = sw.lk ∧ ∀ j, SameSlot sw sw' j ∨ ∃ x y, list = some x ∧ sw.Reaches x j ∧ (sw.frames j).next = some y ∧
      (sw.frames y).vaddr = vaddr ∧ (sw.frames y).count = 1 := by
  have hcount : ∀ y j, SameSlot sw (sw.addCount y (-1)) j := fun y j =>
    ⟨Swap.addCount_vaddr _ _ _ _, Swap.addCount_next _ _ _ _, (Swap.Shrinks.addCount sw y (-1)).kinds j⟩
  obtain ⟨-, -, rfl, -⟩ | ⟨x, y, rfl, -, -, -, hv, ⟨-, -, rfl⟩ | ⟨hc, ⟨-, -, rfl⟩ | ⟨z, hrz, hzn, -, rfl⟩⟩⟩ :=
    takeSlot_inv h
  · exact ⟨rfl, fun j => .inl ⟨rfl, rfl, rfl⟩⟩
  · exact ⟨rfl, fun j => .inl (hcount y j)⟩
  · exact ⟨rfl, fun j => .inl (hcount y j)⟩
  · refine ⟨rfl, fun j => ?_⟩
    by_cases hj : j = z
    · subst hj
      exact .inr ⟨x, y, rfl, hrz, hzn, hv, hc⟩
    · refine .inl ?_
      have hsame := hcount y j
      simpa [SameSlot, Swap.setNext_frames, hj] using hsame

end Search

/-! ## What a process does not see -/

section View

variable {s s' : Kernel} {p q : ProcIdx} {vaddr : Nat}

/-- What is left alone for `q` to notice nothing. -/
structure Unseen (q : ProcIdx) (s s' : Kernel) : Prop where
  list : (s'.ptable q).swapList = (s.ptable q).swapList
  lk : s'.swap.lk = s.swap.lk
  slot : ∀ i, Lists s q i → SameSlot s.swap s'.swap i
  page : ∀ i, Lists s q i → diskPage s'.disk (s.swap.firstBlock i) = diskPage s.disk (s.swap.firstBlock i)

/-- The slot whose bytes are mapped is on the list, in its own swap space. -/
theorem swapView_slot {x y : SlotIdx} {kind : SwapKind} (hlk : s.swap.lk = false)
    (hc : Prod.fst <$> swapCheck vaddr (some x) s.swap = .ok (some kind))
    (ht : Prod.fst <$> takeSlot vaddr (some x) s.swap = .ok (some y)) :
    s.swap.Reaches x y ∧ kind = (s.swap.frames y).swap := by
  rw [swapCheck_fst hlk] at hc
  rw [takeSlot_fst hlk] at ht
  cases hf : findSlot s.swap vaddr maxFrameSwap x none with
  | error e => rw [hf] at ht; cases ht
  | ok r =>
    obtain ⟨z, prev⟩ := r
    rw [hf] at ht
    have hz : (if (s.swap.frames z).vaddr = vaddr then some z else none) = some y := Except.ok.inj ht
    obtain rfl : z = y := by
      split at hz
      · exact Option.some.inj hz
      · cases hz
    refine ⟨(findSlot_ok hf).1, ?_⟩
    split at hc
    · next hx =>
      cases hc
      rw [findSlot, hx.1] at hf
      cases hf; rfl
    · exact checkSlot_findSlot hc hf

theorem Unseen.swapView (h : Unseen q s s') (vaddr : Nat) : swapView q vaddr s' = swapView q vaddr s := by
  unfold DemandPaging.swapView
  rw [h.list]
  cases hl : (s.ptable q).swapList with
  | none => rfl
  | some x =>
    have hslot : ∀ i, s.swap.Reaches x i → SameSlot s.swap s'.swap i := fun i hi => h.slot i ⟨x, hl, hi⟩
    cases hlk : s.swap.lk with
    | true =>
      have hlk' : s'.swap.lk = true := h.lk.trans hlk
      simp only [swapCheck, Swap.acquire, hlk, hlk', if_true]
      rfl
    | false =>
      have hlk' : s'.swap.lk = false := h.lk.trans hlk
      have hcheck : Prod.fst <$> swapCheck vaddr (some x) s'.swap = Prod.fst <$> swapCheck vaddr (some x) s.swap := by
        obtain ⟨hv, hn, hk⟩ := hslot x .refl
        rw [swapCheck_fst hlk', swapCheck_fst hlk, hv, hn, hk, checkSlot_congr hslot]
      have htake : Prod.fst <$> takeSlot vaddr (some x) s'.swap = Prod.fst <$> takeSlot vaddr (some x) s.swap := by
        rw [takeSlot_fst hlk', takeSlot_fst hlk, findSlot_congr hslot]
        cases hf : findSlot s.swap vaddr maxFrameSwap x none with
        | error e => rfl
        | ok r =>
          show Except.ok (if (s'.swap.frames r.1).vaddr = vaddr then some r.1 else none) =
            Except.ok (if (s.swap.frames r.1).vaddr = vaddr then some r.1 else none)
          rw [(hslot r.1 (findSlot_ok hf).1).1]
      rw [hcheck, htake]
      cases hc : Prod.fst <$> swapCheck vaddr (some x) s.swap with
      | error e => rfl
      | ok k =>
        cases k with
        | none => rfl
        | some kind =>
          cases ht : Prod.fst <$> takeSlot vaddr (some x) s.swap with
          | error e => rfl
          | ok slot =>
            cases slot with
            | none => rfl
            | some y =>
              obtain ⟨hr, rfl⟩ := swapView_slot hlk hc ht
              have hpage := h.page y ⟨x, hl, hr⟩
              rw [Swap.firstBlock] at hpage
              show Except.ok (some (_, diskPage s'.disk _)) = Except.ok (some (_, diskPage s.disk _))
              rw [hpage]

end View

/-! ## Runs of one process -/

/-- A page swapped out or in. -/
inductive SwapOp
  | out (kind : SwapKind) (vaddr : Nat)
  | take (kind : SwapKind) (vaddr : Nat)

namespace SwapOp

/-- The operation, made by `p`, and returning. -/
def Does (p : ProcIdx) (s s' : Kernel) : SwapOp → Prop
  | .out kind vaddr => ∃ r, swapOutFunc kind p vaddr s = .ok (r, s')
  | .take kind vaddr => ∃ r, swapInFunc kind p vaddr s = .ok (r, s')

/-- The operation of `p` spares the list of `q`: a page goes to a slot that is there, not on the list
of `q` and clear of its blocks, behind a slot that is not on the list of `q` either; and no slot is
cut out behind one of `q`. -/
def Spares (p q : ProcIdx) (s : Kernel) : SwapOp → Prop
  | .out kind _ => ∃ f, freeSlot? s.swap = some f ∧ ¬ Lists s q f ∧
      (∀ z, Lists s p z → (s.swap.frames z).next = none → ¬ Lists s q z) ∧
      ∀ i, Lists s q i → Disjoint (Finset.Ico (kind.start + f * 8) (kind.start + f * 8 + 8)) (s.swap.extent i)
  | .take _ vaddr => ∀ z y, Lists s p z → (s.swap.frames z).next = some y → (s.swap.frames y).vaddr = vaddr →
      (s.swap.frames y).count = 1 → ¬ Lists s q z

end SwapOp

section Run

variable {s s' : Kernel} {p q : ProcIdx}

/-- One step. -/
theorem unseen_step {op : SwapOp} (hqp : q ≠ p) (hd : op.Does p s s') (hsp : op.Spares p q s) : Unseen q s s' := by
  cases op with
  | out kind vaddr =>
    obtain ⟨r, hout⟩ := hd
    obtain ⟨f, hfree, hf, hend, hblocks⟩ := hsp
    rw [swapOutFunc_eq] at hout
    obtain ⟨slot, list, sw, hlink, rfl, hframe, -, hdisk⟩ := swapOutWith_ok hout
    obtain ⟨hlk, -⟩ := linkSlot_inv hlink
    obtain rfl : slot = some f := (linkSlot_ok hlink).1.trans hfree
    obtain ⟨hlk', hwrites⟩ := linkSlot_writes hlink
    refine ⟨by rw [hframe.other q hqp], hlk'.trans hlk.symm, fun i hi => ?_, fun i hi => ?_⟩
    · rcases hwrites i with rfl | heq | ⟨x, hx, hr, hn⟩
      · exact absurd hi hf
      · rw [SameSlot, heq]; exact ⟨rfl, rfl, rfl⟩
      · exact absurd hi (hend i ⟨x, hx, hr⟩ hn)
    · rw [(hdisk f rfl).2]
      exact diskPage_writeswap (hblocks i hi) _ _
  | take kind vaddr =>
    obtain ⟨r, htake⟩ := hd
    rw [swapInFunc_eq] at htake
    obtain ⟨slot, list, sw, htake, rfl, hdisk, hframe⟩ := swapInWith_ok htake
    obtain ⟨hlk, hwrites⟩ := takeSlot_writes htake
    refine ⟨by rw [hframe.other q hqp], hlk, fun i hi => ?_, fun i _ => by rw [hdisk]⟩
    rcases hwrites i with hsame | ⟨x, y, hx, hr, hn, hv, hc⟩
    · exact hsame
    · exact absurd hi (hsp i y ⟨x, hx, hr⟩ hn hv hc)

theorem unseen_run (hqp : q ≠ p) (hrun : ReflTransGen (fun t t' => ∃ op : SwapOp, op.Does p t t' ∧ op.Spares p q t) s s')
    (vaddr : Nat) : swapView q vaddr s' = swapView q vaddr s := by
  induction hrun with
  | refl => rfl
  | tail _ hstep ih =>
    obtain ⟨op, hd, hsp⟩ := hstep
    rw [(unseen_step hqp hd hsp).swapView, ih]

/-- Right after a fork the child sees on the swap space what the parent sees; and however one of them
swaps pages out and in then, if each operation spares the list of the other, the other goes on
seeing every page as right after the fork. -/
theorem fork_isolated {s s₀ : Kernel} {p c : ProcIdx} {r : Int} (hp : Live s p) (hc : (allocproc s).1 = some c)
    (hfork : fork p s = .ok (r, s₀)) (hr : r ≠ -1) :
    (∀ vaddr, swapView c vaddr s₀ = swapView p vaddr s₀) ∧
    (∀ s₁, ReflTransGen (fun t t' => ∃ op : SwapOp, op.Does p t t' ∧ op.Spares p c t) s₀ s₁ →
      ∀ vaddr, swapView c vaddr s₁ = swapView c vaddr s₀) ∧
    ∀ s₁, ReflTransGen (fun t t' => ∃ op : SwapOp, op.Does c t t' ∧ op.Spares c p t) s₀ s₁ →
      ∀ vaddr, swapView p vaddr s₁ = swapView p vaddr s₀ := by
  rcases fork_ok hfork with ⟨hr', -⟩ | ⟨np, s₁, s₂, hal, ⟨hr', -⟩ | ⟨d, hcopy, hcommit, -⟩⟩
  · exact absurd hr' hr
  · exact absurd hr' hr
  obtain rfl : np = c := by rw [hal] at hc; exact Option.some.inj hc
  have hne : np ≠ p := by
    rintro rfl
    exact hp (by simpa using Fin.eq_true_of_find?_eq_some (allocproc_some hal).1)
  refine ⟨fun vaddr => ?_, fun _ hrun => unseen_run hne hrun, fun _ hrun => unseen_run hne.symm hrun⟩
  have hlist : (s₀.ptable np).swapList = (s₀.ptable p).swapList := by
    obtain ⟨sw, -, rfl⟩ := forkCommit_eq hne hcommit
    simp [hne.symm]
  unfold swapView
  rw [hlist]

end Run

theorem smallSwapped_alloc : (allocproc smallSwapped).1 = some 1 := by
  unfold allocproc
  rw [smallSwapped_find]
  rfl

/-- After the fork the parent takes its page back in: the child still finds it in the slot. -/
theorem fork_isolated_take : ∃ s₀ s₁, fork 0 smallSwapped = .ok (2, s₀) ∧ swapInFunc .heap 0 0 s₀ = .ok (0, s₁) ∧
    ∀ vaddr, swapView 1 vaddr s₁ = swapView 1 vaddr s₀ := by
  obtain ⟨s₀, E, hfork, hforked, -, -, hfree⟩ := smallSwapped_fork
  have hparent := hforked.parent
  have hlist : SwapList s₀.swap (s₀.ptable 0).swapList ([] ++ 0 :: []) := by
    rw [hparent, hforked.swap]
    exact ⟨rfl, rfl⟩
  have htake : takeSlot 0 (s₀.ptable 0).swapList s₀.swap = _ :=
    takeSlot_shared hlist (by rw [hforked.swap]; rfl) (by simp) (by rw [hforked.swap]; rfl) (by rw [hforked.swap]; decide)
  cases hfl : s₀.phys.freelist with
  | nil => simp [hfl] at hfree
  | cons f fl =>
    rcases mappages_page_cases (f * pgSize) ⟨false, true, true⟩ true (smallDir.setPte 0 ⟨⟨false, true, true⟩, 0⟩)
      ({ s₀.phys with freelist := fl }.setPage f (diskPage s₀.disk (SwapKind.heap.start + (0 : SlotIdx) * 8)))
      (show 0 % pgSize = 0 by decide) (by decide) with ⟨-, hno, -⟩ | ⟨pd', m, hmap, -⟩
    · exact absurd (by decide +kernel) hno
    · have hin := swapInWith_eq (p := 0) htake (by rw [hparent]; rfl) hfl hmap
      refine ⟨s₀, _, hfork, by rw [swapInFunc_eq]; exact hin, ?_⟩
      refine (fork_isolated (by decide) smallSwapped_alloc hfork (by decide)).2.1 _
        (.single ⟨.take .heap 0, ⟨0, by rw [swapInFunc_eq]; exact hin⟩, ?_⟩)
      -- the list has one slot, so none stands behind another
      intro z y hz hn
      obtain rfl : z = 0 := by simpa using hlist.mem_iff_reach.2 hz
      rw [hforked.swap] at hn
      cases hn

/-- The parent swaps out a page after the fork, and the child finds it on its own list. -/
theorem fork_isolated_fails : ∃ s₀ s₁, (allocproc smallSwapped).1 = some 1 ∧ fork 0 smallSwapped = .ok (2, s₀) ∧
    (SwapOp.out .heap pgSize).Does 0 s₀ s₁ ∧ swapView 1 pgSize s₁ ≠ swapView 1 pgSize s₀ := by
  obtain ⟨s₀, s₁, hfork, hforked, hout, hs₁⟩ := smallSwapped_shared
  obtain ⟨d, k, hchild⟩ := hforked.child
  have hsee₀ : swapView 1 pgSize s₀ = .ok none := by
    unfold swapView
    rw [hchild, hforked.swap]
    rfl
  have hsee₁ : swapView 1 pgSize s₁ = .ok (some (.heap, diskPage s₁.disk (SwapKind.heap.start + (1 : SlotIdx) * 8))) := by
    unfold swapView
    rw [show (s₁.ptable 1).swapList = some 0 by rw [hs₁, swappedOut_other (by decide), hchild]; rfl,
      show s₁.swap = (smallSwapped.swap.counted [0]).linked [0] .heap pgSize 1 by rw [hs₁, ← hforked.swap]; rfl]
    rfl
  refine ⟨s₀, s₁, smallSwapped_alloc, hfork, ⟨1, hout⟩, ?_⟩
  rw [hsee₀, hsee₁]
  exact fun h => by cases h

end DemandPaging
