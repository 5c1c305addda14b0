/-
Where the slots lie on disk. The three swap spaces are laid out from different blocks but take
their slots from one table, so that slots of different kinds can overlap: exactly those whose
indices are 35, 250 or 285 apart in the right order. A run in which no slot is taken while such a
partner is in use keeps all slots in use apart, and the first one that is not so breaks this.
-/
import DemandPaging.Swap.Steps

namespace DemandPaging

/-! ## Blocks of a slot -/

/-- The first block of a slot. -/
def Swap.firstBlock (sw : Swap) (f : SlotIdx) : Nat := (sw.frames f).swap.start + f * 8

/-- The blocks of a slot. -/
def Swap.extent (sw : Swap) (f : SlotIdx) : Finset Nat := Finset.Ico (sw.firstBlock f) (sw.firstBlock f + 8)

/-- Slots of two kinds that share their blocks. -/
def collide : SwapKind → Nat → SwapKind → Nat → Prop
  | .generic, f, .stack, g => f = g + 250
  | .generic, f, .heap, g => f = g + 285
  | .stack, f, .heap, g => f = g + 35
  | .stack, f, .generic, g => g = f + 250
  | .heap, f, .generic, g => g = f + 285
  | .heap, f, .stack, g => g = f + 35
  | _, _, _, _ => False

theorem disjoint_iff_not_collide {k l : SwapKind} {f g : Nat} (hfg : f ≠ g) :
    Disjoint (Finset.Ico (k.start + f * 8) (k.start + f * 8 + 8)) (Finset.Ico (l.start + g * 8) (l.start + g * 8 + 8)) ↔
      ¬ collide k f l g := by
  rw [Finset.disjoint_left]
  constructor
  · intro h hc
    refine h (a := k.start + f * 8) (by simp) ?_
    cases k <;> cases l <;> simp only [collide] at hc <;>
      simp only [SwapKind.start, swap1Start, swap2Start, swap3Start, Finset.mem_Ico] <;> omega
  · intro h b hb hb'
    rw [Finset.mem_Ico] at hb hb'
    cases k <;> cases l <;>
      simp only [SwapKind.start, swap1Start, swap2Start, swap3Start, collide] at h hb hb' <;> omega

/-- A write to other blocks leaves the page that `readswap` finds. -/
theorem diskPage_writeswap {b c : Nat} (h : Disjoint (Finset.Ico b (b + 8)) (Finset.Ico c (c + 8))) (pg : Page)
    (disk : Nat → Block) : diskPage (writeswap pg b disk) c = diskPage disk c := by
  funext i
  have hi := i.isLt
  simp only [pgSize] at hi
  have hc : c + i / bSize ∈ Finset.Ico c (c + 8) := by
    rw [Finset.mem_Ico]; simp only [bSize]; omega
  have hb : ¬(b ≤ c + i / bSize ∧ c + i / bSize < b + 8) := fun hb =>
    Finset.disjoint_left.1 h (Finset.mem_Ico.2 hb) hc
  simp only [diskPage, writeswap, dif_neg hb]

/-- What has been written is read back. -/
theorem diskPage_writeswap_self (pg : Page) (b : Nat) (disk : Nat → Block) : diskPage (writeswap pg b disk) b = pg := by
  funext i
  have hi := i.isLt
  simp only [pgSize] at hi
  have hb : b ≤ b + i / bSize ∧ b + i / bSize < b + 8 := by simp only [bSize]; omega
  simp only [diskPage, writeswap, dif_pos hb, pageBlock]
  congr 1
  apply Fin.ext
  simp only [bSize]
  omega

/-! ## Slots in use -/

/-- Slots in use share no blocks, and so a write to one leaves what is read from another. -/
structure SlotsApart (sw : Swap) : Prop where
  disjoint : ∀ f g, f ≠ g → sw.bitmap f ≠ -1 → sw.bitmap g ≠ -1 → Disjoint (sw.extent f) (sw.extent g)
  kept : ∀ f g, f ≠ g → sw.bitmap f ≠ -1 → sw.bitmap g ≠ -1 → ∀ pg disk,
    diskPage (writeswap pg (sw.firstBlock f) disk) (sw.firstBlock g) = diskPage disk (sw.firstBlock g)

/-- No two slots in use are of kinds and indices that collide. -/
theorem slotsApart_iff {sw : Swap} : SlotsApart sw ↔ ∀ f g, f ≠ g → sw.bitmap f ≠ -1 → sw.bitmap g ≠ -1 →
    ¬ collide (sw.frames f).swap f (sw.frames g).swap g := by
  have hiff : ∀ f g : SlotIdx, f ≠ g → (Disjoint (sw.extent f) (sw.extent g) ↔
      ¬ collide (sw.frames f).swap f (sw.frames g).swap g) := fun f g hfg =>
    disjoint_iff_not_collide fun h => hfg (Fin.ext h)
  constructor
  · intro h f g hfg hf hg
    exact (hiff f g hfg).1 (h.disjoint f g hfg hf hg)
  · intro h
    have hd : ∀ f g, f ≠ g → sw.bitmap f ≠ -1 → sw.bitmap g ≠ -1 → Disjoint (sw.extent f) (sw.extent g) :=
      fun f g hfg hf hg => (hiff f g hfg).2 (h f g hfg hf hg)
    exact ⟨hd, fun f g hfg hf hg => diskPage_writeswap (hd f g hfg hf hg)⟩

theorem collide_symm {k l : SwapKind} {f g : Nat} (h : collide k f l g) : collide l g k f := by
  cases k <;> cases l <;> exact h

/-- A step that takes no slot keeps the slots apart. -/
theorem SlotsApart.shrinks {sw sw' : Swap} (h : SlotsApart sw) (hs : sw.Shrinks sw') : SlotsApart sw' := by
  rw [slotsApart_iff] at h ⊢
  intro f g hfg hf hg
  rw [hs.kinds f, hs.kinds g]
  exact h f g hfg (hs.used f hf) (hs.used g hg)

/-! ## Runs -/

/-- The steps of the kernel that work on the swap table, and every other step. -/
inductive SwapAct
  | out (kind : SwapKind) (p : ProcIdx) (vaddr : Nat)
  | take (kind : SwapKind) (p : ProcIdx) (vaddr : Nat)
  | free (pid : Int)
  | share (p np : ProcIdx) (d : PageDir)
  | other

def SwapAct.Does : SwapAct → Kernel → Kernel → Prop
  | .out kind p vaddr, s, s' => ∃ r, swapOutFunc kind p vaddr s = .ok (r, s')
  | .take kind p vaddr, s, s' => ∃ r, swapInFunc kind p vaddr s = .ok (r, s')
  | .free pid, s, s' => swapFree pid s = .ok s'
  | .share p np d, s, s' => forkCommit p np d s = .ok s'
  | .other, s, s' => s'.swap = s.swap

/-- The slot `swap_out*` is about to take has no colliding partner in use. -/
def SwapAct.Clear : SwapAct → Kernel → Prop
  | .out kind _ _, s => ∀ f, freeSlot? s.swap = some f → ∀ g, s.swap.bitmap g ≠ -1 →
      ¬ collide kind f (s.swap.frames g).swap g
  | _, _ => True

theorem swapFree_ok {pid : Int} {s s' : Kernel} (h : swapFree pid s = .ok s') : s.swap.Shrinks s'.swap := by
  unfold swapFree at h
  split at h
  · cases h; exact .refl _
  · split at h
    · cases h; exact .refl _
    · obtain ⟨⟨list, sw⟩, hfree, h⟩ := bind_eq_ok.1 h
      cases h; exact freeSlots_shrinks hfree

theorem forkCommit_ok {p np : ProcIdx} {d : PageDir} {s s' : Kernel} (h : forkCommit p np d s = .ok s') :
    s.swap.Shrinks s'.swap := by
  unfold forkCommit at h
  obtain ⟨sw, hsw, h⟩ := bind_eq_ok.1 h
  cases h; exact swapFork_shrinks hsw

/-- One step from slots that are apart: they stay apart exactly when the step is clear. -/
theorem slotsApart_step {a : SwapAct} {s s' : Kernel} (h : SlotsApart s.swap) (hd : a.Does s s') :
    SlotsApart s'.swap ↔ a.Clear s := by
  cases a with
  | out kind p vaddr =>
    obtain ⟨r, hd⟩ := hd
    rw [swapOutFunc_eq] at hd
    obtain ⟨slot, list, sw, hlink, rfl, -⟩ := swapOutWith_ok hd
    obtain ⟨hslot, hnone, hsome⟩ := linkSlot_ok hlink
    cases slot with
    | none =>
      have hf := hslot.symm
      obtain ⟨-, hb, hfr⟩ := hnone rfl
      refine ⟨fun _ f hf' => ?_, fun _ => h.shrinks ⟨fun j => by rw [hfr], fun j => by rw [hb]; exact id⟩⟩
      rw [hf] at hf'; cases hf'
    | some f =>
      have hf := hslot.symm
      obtain ⟨hb, hk⟩ := hsome f rfl
      have hfree := freeSlot?_some hf
      rw [slotsApart_iff] at h ⊢
      simp only [SwapAct.Clear, hf, Option.some.injEq, forall_eq', hb, hk]
      constructor
      · intro h' g hg
        have hgf : g ≠ f := by rintro rfl; exact hg hfree
        have := h' f g (Ne.symm hgf) (by simp) (by simpa [hgf] using hg)
        simpa [hgf] using this
      · intro hc x y hxy hx hy
        by_cases hxf : x = f
        · subst hxf
          have hyx : y ≠ x := Ne.symm hxy
          simpa [hyx] using hc y (by simpa [hyx] using hy)
        · by_cases hyf : y = f
          · subst hyf
            simpa [hxy] using fun hcol => hc x (by simpa [hxy] using hx) (collide_symm hcol)
          · simpa [hxf, hyf] using h x y hxy (by simpa [hxf] using hx) (by simpa [hyf] using hy)
  | take kind p vaddr =>
    obtain ⟨r, hd⟩ := hd
    rw [swapInFunc_eq] at hd
    obtain ⟨slot, list, sw, htake, rfl, -⟩ := swapInWith_ok hd
    exact ⟨fun _ => trivial, fun _ => h.shrinks (takeSlot_shrinks htake)⟩
  | free pid => exact ⟨fun _ => trivial, fun _ => h.shrinks (swapFree_ok hd)⟩
  | share p np d => exact ⟨fun _ => trivial, fun _ => h.shrinks (forkCommit_ok hd)⟩
  | other =>
    have hd : s'.swap = s.swap := hd
    rw [hd]; exact ⟨fun _ => trivial, fun _ => h⟩

theorem slotsApart_init : SlotsApart swapInit := slotsApart_iff.2 fun _ _ _ hf => absurd rfl hf

/-- Pages of one process swapped out one after the other. -/
def swapOuts (p : ProcIdx) : List (SwapKind × Nat) → Kernel → Except Stuck Kernel
  | [], s => .ok s
  | (kind, vaddr) :: l, s => do
    let (_, s) ← swapOutFunc kind p vaddr s
    swapOuts p l s

theorem swapOuts_run {p : ProcIdx} : ∀ {l : List (SwapKind × Nat)} {s s' : Kernel}, swapOuts p l s = .ok s' →
    Relation.ReflTransGen (fun s s' => ∃ a : SwapAct, a.Does s s') s s'
  | [], s, s', h => by cases h; exact .refl
  | (kind, vaddr) :: l, s, s', h => by
    obtain ⟨⟨r, s₁⟩, h₁, h⟩ := bind_eq_ok.1 h
    exact .head ⟨.out kind p vaddr, r, h₁⟩ (swapOuts_run h)

end DemandPaging
