/-
A process that shrinks and grows back. `growproc(-n)` frees the pages that are present and clears their
entries; the swap list and the LRU ring keep what they have of the pages removed. The pages that come back
hold zeros where there was nothing of them on the list and in the ring.
-/
import DemandPaging.Paging.Growth

namespace DemandPaging

variable {p : ProcIdx} {s s₁ s₂ : Kernel} {pd : PageDir} {L : List SlotIdx} {E : List (Int × Nat)} {n : Nat}

/-- The size that `growproc(-n)` leaves when it succeeds: below zero the unsigned size wraps around, and `deallocuvm`
removes nothing. -/
def shrunkSize (sz n : Nat) : Nat := if n < sz then sz - n else sz

/-- What a shrink does not touch, and the tables and free pages it keeps. -/
structure Shrunk (p : ProcIdx) (lo : Nat) (pd : PageDir) (s s₁ : Kernel) : Prop where
  sz : (s₁.ptable p).sz = lo
  pid : (s₁.ptable p).pid = (s.ptable p).pid
  list : (s₁.ptable p).swapList = (s.ptable p).swapList
  swap : s₁.swap = s.swap
  lru : s₁.lru = s.lru
  dir : ∃ pd₁, (s₁.ptable p).pgdir = some pd₁ ∧ pd₁.present = pd.present
  pages : s.phys.freelist.length ≤ s₁.phys.freelist.length

theorem Deallocated.length_le {lo hi : Nat} {pd pd' : PageDir} {m m' : Phys} (h : Deallocated lo hi pd m pd' m') :
    m.freelist.length ≤ m'.freelist.length :=
  (List.subperm_ext_iff.2 fun f _ => h.free f).length_le

theorem growproc_shrinks (hpd : (s.ptable p).pgdir = some pd) (hsz : (s.ptable p).sz ≤ kernBase) (hn : 0 < n) (hint : n < 2 ^ 31)
    (h : growproc p (-n) s = .ok (0, s₁)) : Shrunk p (shrunkSize (s.ptable p).sz n) pd s s₁ := by
  generalize hsz₀ : (s.ptable p).sz = sz at *
  generalize hnew : ((sz + (-n : Int)) % wordSize).toNat = newsz at *
  unfold growproc at h
  dsimp only at h
  rw [if_neg (by omega), hpd, deref_some, ok_bind, if_neg (by omega), hsz₀, hnew] at h
  obtain ⟨⟨r, pd₁, m₁⟩, hde, h⟩ := bind_eq_ok.1 h
  dsimp only at h
  split at h
  · cases h
  next hr =>
  obtain ⟨-, -, h⟩ := bind_eq_ok.1 h
  cases h
  have hfacts : r = shrunkSize sz n ∧ pd₁.present = pd.present ∧ s.phys.freelist.length ≤ m₁.freelist.length := by
    unfold deallocuvm at hde
    split at hde
    · next hle =>
      cases hde
      refine ⟨?_, rfl, le_rfl⟩
      unfold shrunkSize
      simp only [kernBase, wordSize] at *
      split <;> omega
    · next hlt =>
      obtain ⟨⟨pd₂, m₂⟩, hl, hde⟩ := bind_eq_ok.1 hde
      cases hde
      have hd := deallocuvmLoop_uses hsz (by simp only [pgRoundUp, pgSize] at *; omega) hl
      refine ⟨?_, hd.present, hd.length_le⟩
      unfold shrunkSize
      simp only [kernBase, wordSize] at *
      split <;> omega
  obtain ⟨rfl, hpres, hlen⟩ := hfacts
  refine ⟨?_, ?_, ?_, rfl, rfl, ⟨pd₁, ?_, hpres⟩, hlen⟩ <;> simp [Kernel.setPgdir]

/-- Neither the swap list of the process nor the ring has an entry for a page at or above an address. -/
def Forgotten (p : ProcIdx) (lo : Nat) (s : Kernel) : Prop :=
  ∀ L E, SwapList s.swap (s.ptable p).swapList L → Queue s.lru E →
    (∀ g ∈ L, (s.swap.frames g).vaddr < lo) ∧ ∀ e ∈ E, ¬(e.1 = (s.ptable p).pid ∧ lo ≤ e.2)

/-- The two calls have forgotten the pages in between: nothing is left of them after the first, and they are read as
zeros after the second. -/
def GrownBack (p : ProcIdx) (s₁ s₂ : Kernel) : Prop :=
  Forgotten p (s₁.ptable p).sz s₁ ∧ ∀ a, (s₁.ptable p).sz ≤ a → a < (s₂.ptable p).sz → ∃ t, userLoad p a s₂ = .ok (0, t)

theorem Shrunk.forgotten_iff {lo : Nat} (h : Shrunk p lo pd s s₁) : Forgotten p lo s₁ ↔ Forgotten p lo s := by
  unfold Forgotten
  rw [h.swap, h.lru, h.list, h.pid]

theorem smallKernel_forgotten (lo : Nat) : Forgotten 0 lo smallKernel := by
  intro L E hL hE
  obtain rfl : L = [] := Chain.path_none.1 hL
  have hlen := hE.freeEntries_eq
  have hzero := lruInit_queue.freeEntries_eq
  obtain rfl : E = [] := by
    rw [← List.length_eq_zero_iff]
    change freeEntries lruInit + E.length = _ at hlen
    rw [List.length_nil] at hzero
    omega
  simp

theorem smallDir_room {a b : Nat} (ha : a % pgSize = 0) (hb : a < wordSize ∧ a ≤ b ∧ b < a + pgSize) :
    tablesNeeded smallDir a b < smallKernel.phys.freelist.length := by
  have hlen : smallKernel.phys.freelist.length = 200 := List.length_range'
  rw [hlen, tablesNeeded_page ha hb.1 hb.2.1 hb.2.2]
  split <;> omega

end DemandPaging
