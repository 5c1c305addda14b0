/-
The size of a process. No call sets it to the kernel's half of the address space, in any run of any
number of processes on the CPUs; and with a size below `KERNBASE` the checks of `syscall.c` cannot be
got around by an address, an argument or a length that wraps.
-/
import DemandPaging.Kernel.Syscall
import DemandPaging.Paging.Conservation
import DemandPaging.Paging.Translation

namespace DemandPaging

variable {s s' s₁ : Kernel} {p q : ProcIdx}

/-! ## Functions that leave the sizes alone -/

def SameSizes (s s' : Kernel) : Prop := ∀ q, (s'.ptable q).sz = (s.ptable q).sz

theorem SameSizes.trans (h : SameSizes s s₁) (h' : SameSizes s₁ s') : SameSizes s s' := fun q => (h' q).trans (h q)

theorem SameSizes.of_update {pr : Proc} (h : s'.ptable = Function.update s.ptable p pr) (hsz : pr.sz = (s.ptable p).sz) :
    SameSizes s s' := by
  intro q
  rw [h, Function.update_apply]
  split
  · next hq => rw [hsz, hq]
  · rfl

theorem sameSizes_setProc {pr : Proc} (h : pr.sz = (s.ptable p).sz) : SameSizes s (s.setProc p pr) := .of_update rfl h

theorem sameSizes_setPgdir (pd : PageDir) : SameSizes s (s.setPgdir p pd) := sameSizes_setProc rfl

theorem sameSizes_setSwap (list : Option SlotIdx) (sw : Swap) : SameSizes s (s.setSwap p list sw) := sameSizes_setProc rfl

theorem demappagesSwapOut_sizes {v : Nat} (h : demappagesSwapOut p v s = .ok s') : SameSizes s s' := by
  rw [demappagesSwapOut] at h
  obtain ⟨pd, -, h⟩ := bind_eq_ok.1 h
  split at h
  · cases h
  · cases h
    exact sameSizes_setPgdir _

theorem klruFreeSwap_sizes {v : Nat} (h : klruFreeSwap p v s = .ok s') : SameSizes s s' := by
  rw [klruFreeSwap] at h
  split at h
  · obtain ⟨l, -, h⟩ := bind_eq_ok.1 h
    cases h
    exact fun _ => rfl
  · cases h
    exact fun _ => rfl

theorem swapFree_sizes {pid : Int} (h : swapFree pid s = .ok s') : SameSizes s s' := by
  rw [swapFree] at h
  split at h
  · cases h
    exact fun _ => rfl
  · split at h
    · cases h
      exact sameSizes_setSwap _ _
    · obtain ⟨⟨list, sw⟩, -, h⟩ := bind_eq_ok.1 h
      cases h
      exact sameSizes_setSwap _ _

theorem readVaddr_sizes {v : Nat} {r : Int} (h : readVaddr p v s = .ok (r, s')) : SameSizes s s' := by
  rw [readVaddr] at h
  obtain ⟨pd, -, h⟩ := bind_eq_ok.1 h
  split at h
  · cases h
    exact fun _ => rfl
  · split at h
    · cases h
      exact fun _ => rfl
    · cases h
      exact sameSizes_setProc rfl

theorem mappagesProc_sizes {va size pa : Nat} {perm : Flags} {setPte : Bool} {r : Int}
    (h : mappagesProc p va size pa perm setPte s = .ok (r, s')) : SameSizes s s' := by
  rw [mappagesProc] at h
  obtain ⟨pd, -, h⟩ := bind_eq_ok.1 h
  cases h
  exact sameSizes_setPgdir _

/-- `allocuvm` as it is always called, without pages: only memory changes, and a size that is returned is small. -/
theorem allocuvmLoop_sizes : ∀ {n a : Nat} {pd pd' : PageDir} {s s' : Kernel} {done : Bool},
    allocuvmLoop p false n a pd s = .ok (done, pd', s') → SameSizes s s'
  | 0, a, pd, pd', s, s', done, h => by
    cases h
    exact fun _ => rfl
  | n + 1, a, pd, pd', s, s', done, h => by
    rw [allocuvmLoop] at h
    obtain ⟨⟨f, s₁⟩, hf, h⟩ := bind_eq_ok.1 h
    cases hf
    dsimp only at h
    split at h
    · cases h
      exact fun _ => rfl
    · exact fun q => allocuvmLoop_sizes h q

theorem allocuvm_sizes {pd pd' : PageDir} {oldsz newsz r : Nat} (h : allocuvm p pd oldsz newsz false s = .ok (r, pd', s')) :
    SameSizes s s' ∧ (oldsz < kernBase → r < kernBase) ∧ (r = 0 ∨ newsz < kernBase) := by
  rw [allocuvm] at h
  split at h
  · cases h
    exact ⟨fun _ => rfl, fun _ => by decide, .inl rfl⟩
  · next hn =>
    split at h
    · cases h
      exact ⟨fun _ => rfl, id, .inr (not_le.1 hn)⟩
    · obtain ⟨⟨done, pd₁, s₁⟩, hloop, h⟩ := bind_eq_ok.1 h
      cases h
      refine ⟨allocuvmLoop_sizes hloop, fun _ => ?_, .inr (not_le.1 hn)⟩
      split
      · exact not_le.1 hn
      · decide

theorem execBad_sizes {pd : PageDir} {r : Int} (h : execBad p pd s = .ok (r, s')) : SameSizes s s' := by
  rw [execBad] at h
  obtain ⟨l, -, h⟩ := bind_eq_ok.1 h
  obtain ⟨s₁, hfree, h⟩ := bind_eq_ok.1 h
  obtain ⟨m, -, h⟩ := bind_eq_ok.1 h
  cases h
  exact fun q => swapFree_sizes hfree q

theorem evictStart_sizes {e : Event} {r : Option (ProcIdx × Nat)} (h : Threaded.evictStart s = .ok (e, r, s')) : SameSizes s s' := by
  rw [Threaded.evictStart] at h
  obtain ⟨⟨index, l⟩, -, h⟩ := bind_eq_ok.1 h
  cases index with
  | none => cases h
  | some index =>
    obtain ⟨pid, -, h⟩ := bind_eq_ok.1 h
    obtain ⟨v, -, h⟩ := bind_eq_ok.1 h
    obtain ⟨l', -, h⟩ := bind_eq_ok.1 h
    dsimp only at h
    split at h
    · obtain ⟨l'', -, h⟩ := bind_eq_ok.1 h
      obtain ⟨s₁, hfree, h⟩ := bind_eq_ok.1 h
      cases h
      exact fun q => swapFree_sizes hfree q
    · obtain ⟨⟨r', s₁⟩, hread, h⟩ := bind_eq_ok.1 h
      have hs : SameSizes s s₁ := fun q => readVaddr_sizes hread q
      dsimp only at h
      split at h
      · cases h
        exact hs
      · cases h
        exact hs

theorem allocproc_sizes {o : Option ProcIdx} (h : allocproc s = (o, s')) : SameSizes s s' := by
  cases o with
  | none =>
    obtain rfl | ⟨np, -, rfl⟩ := allocproc_none h
    · exact fun _ => rfl
    · exact .of_update rfl rfl
  | some np =>
    obtain ⟨-, f, fl, -, rfl⟩ := allocproc_some h
    exact .of_update rfl rfl

theorem reap_sizes {pid : Int} {c : ProcIdx} (h : reap c s = .ok (pid, s')) : SameSizes s s' := by
  rw [reap] at h
  dsimp only at h
  split at h
  · cases h
  obtain ⟨m, -, h⟩ := bind_eq_ok.1 h
  obtain ⟨l, -, h⟩ := bind_eq_ok.1 h
  obtain ⟨s₁, hfree, h⟩ := bind_eq_ok.1 h
  have h₁ : SameSizes s (s.setProc c { s.ptable c with kstack := none }) := sameSizes_setProc rfl
  have h₂ : SameSizes s s₁ := fun q => (swapFree_sizes hfree q).trans (h₁ q)
  split at h
  · cases h
  obtain ⟨m', -, h⟩ := bind_eq_ok.1 h
  cases h
  exact h₂.trans (.of_update rfl rfl)

theorem wait_sameSizes {r : Option Int} (h : wait p s = .ok (r, s')) : SameSizes s s' := by
  unfold wait at h
  split at h
  · obtain ⟨⟨pid, s₁⟩, hreap, h⟩ := bind_eq_ok.1 h
    cases h
    exact reap_sizes hreap
  · split at h
    · cases h
      exact fun _ => rfl
    · cases h
      exact fun _ => rfl

/-! ## Threads -/

/-- The sizes have the property. -/
def Sizes (P : (ProcIdx → Nat) → Prop) (s : Kernel) : Prop := P fun q => (s.ptable q).sz

theorem SameSizes.sizes {P : (ProcIdx → Nat) → Prop} (h : SameSizes s s') (hs : Sizes P s) : Sizes P s' := by
  have : (fun q => (s'.ptable q).sz) = fun q => (s.ptable q).sz := funext h
  rwa [Sizes, this]

/-- The size of every process is below the kernel's addresses. -/
abbrev BelowKernel : Kernel → Prop := Sizes fun sz => ∀ q, sz q < kernBase

/-- The thread keeps what holds of the sizes. -/
abbrev KeepsSizes {α : Type} (P : (ProcIdx → Nat) → Prop) (t : KThread α) : Prop := t.Keeps (Sizes P) fun _ => True

namespace Threaded

open Thread

variable {α β : Type} {P : (ProcIdx → Nat) → Prop}

theorem atomic_sizes {e : Event} {f : Kernel → Except Stuck (α × Kernel)} (h : ∀ s a s', f s = .ok (a, s') → SameSizes s s') :
    KeepsSizes P (Thread.atomic e f) :=
  .atomic fun s a s' hs hf => ⟨(h s a s' hf).sizes hs, trivial⟩

theorem bind_sizes {t : KThread α} {k : α → KThread β} (h : KeepsSizes P t) (hk : ∀ a, KeepsSizes P (k a)) :
    KeepsSizes P (t >>= k) := h.bind fun a _ => hk a

theorem get_keeps {I : Kernel → Prop} : get.Keeps I I := by
  refine .atomic fun s a s' hs hf => ?_
  cases hf
  exact ⟨hs, hs⟩

theorem get_sizes : KeepsSizes P get :=
  atomic_sizes fun s a s' hf q => by cases hf; rfl

theorem stop_keeps {I : Kernel → Prop} {Q : α → Prop} (x : Stuck) : (stop x : KThread α).Keeps I Q := by
  refine .atomic fun s a s' _ hf => ?_
  cases hf

theorem nap_sizes (miss : Bool) : KeepsSizes P (nap miss) := by
  rw [nap]
  split
  · exact atomic_sizes fun s a s' hf q => by cases hf; rfl
  · exact trivial

theorem writeswap_sizes (kind : SwapKind) (p : ProcIdx) (bno : Nat) : ∀ is, KeepsSizes P (writeswap kind p bno is)
  | [] => trivial
  | i :: is => by
    refine bind_sizes (atomic_sizes fun s a s' hf => ?_) fun _ => writeswap_sizes kind p bno is
    cases hf
    exact fun _ => rfl

theorem swapOut_sizes (kind : SwapKind) (p : ProcIdx) (vaddr : Nat) : KeepsSizes P (swapOut kind p vaddr) := by
  refine bind_sizes (atomic_sizes fun s a s' hf => ?_) fun slot => ?_
  · obtain ⟨⟨slot, list, sw⟩, -, hf⟩ := bind_eq_ok.1 hf
    cases hf
    exact sameSizes_setSwap _ _
  · cases slot with
    | none => exact trivial
    | some findex =>
      refine bind_sizes (writeswap_sizes _ _ _ _) fun _ => bind_sizes (atomic_sizes fun s a s' hf => ?_) fun _ =>
        bind_sizes (atomic_sizes fun s a s' hf => ?_) fun _ => trivial
      · obtain ⟨s₁, hdemap, hf⟩ := bind_eq_ok.1 hf
        cases hf
        exact demappagesSwapOut_sizes hdemap
      · obtain ⟨s₁, hfree, hf⟩ := bind_eq_ok.1 hf
        cases hf
        exact klruFreeSwap_sizes hfree

theorem evict_sizes : KeepsSizes P evict := by
  refine bind_sizes (fun s e b s' hs hf => ⟨(evictStart_sizes hf).sizes hs, trivial⟩) fun o => ?_
  cases o with
  | none => exact trivial
  | some page =>
    refine bind_sizes (swapOut_sizes _ _ _) fun r => ?_
    split
    · exact stop_keeps _
    · exact trivial

theorem getLru_sizes (pid : Int) (vaddr : Nat) : ∀ rounds, KeepsSizes P (getLru pid vaddr rounds)
  | 0 => stop_keeps _
  | rounds + 1 => by
    refine bind_sizes (atomic_sizes fun s a s' hf => ?_) fun r => ?_
    · obtain ⟨⟨r, l⟩, -, hf⟩ := bind_eq_ok.1 hf
      cases hf
      exact fun _ => rfl
    · split
      · exact bind_sizes evict_sizes fun _ => getLru_sizes pid vaddr rounds
      · exact trivial

theorem kalloc_sizes (rounds : Nat) (pid lru : Int) : KeepsSizes P (kalloc rounds pid lru) := by
  refine bind_sizes (atomic_sizes fun s a s' hf => ?_) fun mem => ?_
  · cases hf
    exact fun _ => rfl
  · cases mem with
    | none => exact trivial
    | some f =>
      dsimp only
      split
      · exact bind_sizes (getLru_sizes _ _ _) fun _ => trivial
      · exact trivial

theorem readswapLoop_sizes (miss : Nat → Bool) (f bno : Nat) : ∀ is, KeepsSizes P (readswapLoop miss f bno is)
  | [] => trivial
  | i :: is => by
    refine bind_sizes (nap_sizes _) fun _ => bind_sizes (atomic_sizes fun s a s' hf => ?_) fun _ =>
      readswapLoop_sizes miss f bno is
    cases hf
    exact fun _ => rfl

theorem readswap_sizes (miss : Nat → Bool) (p : ProcIdx) (bno : Nat) : KeepsSizes P (readswap miss p bno) := by
  refine bind_sizes get_sizes fun s => bind_sizes (kalloc_sizes _ _ _) fun mem => ?_
  cases mem with
  | none => exact stop_keeps _
  | some f => exact bind_sizes (readswapLoop_sizes _ _ _ _) fun _ => trivial

theorem swapIn_sizes (miss : Nat → Bool) (kind : SwapKind) (p : ProcIdx) (vaddr : Nat) :
    KeepsSizes P (swapIn miss kind p vaddr) := by
  refine bind_sizes (atomic_sizes fun s a s' hf => ?_) fun slot => ?_
  · obtain ⟨⟨slot, list, sw⟩, -, hf⟩ := bind_eq_ok.1 hf
    cases hf
    exact sameSizes_setSwap _ _
  · cases slot with
    | none => exact trivial
    | some findex =>
      refine bind_sizes (readswap_sizes _ _ _) fun f => atomic_sizes fun s a s' hf => ?_
      obtain ⟨⟨r, s₁⟩, hmap, hf⟩ := bind_eq_ok.1 hf
      cases hf
      exact mappagesProc_sizes hmap

theorem fillRound_sizes (miss : Bool) (p : ProcIdx) (addr f : Nat) : KeepsSizes P (fillRound miss p addr f) := by
  refine bind_sizes (nap_sizes _) fun _ => atomic_sizes fun s a s' hf => ?_
  obtain ⟨pd, -, hf⟩ := bind_eq_ok.1 hf
  obtain ⟨m, -, hf⟩ := bind_eq_ok.1 hf
  cases hf
  exact fun _ => rfl

theorem pgfltHandler_sizes (tm : Timing) (p : ProcIdx) (cr2 : Nat) : KeepsSizes P (pgfltHandler tm p cr2) := by
  rw [pgfltHandler]
  dsimp only
  split
  · exact stop_keeps _
  refine bind_sizes (atomic_sizes fun s a s' hf => ?_) fun swapno => ?_
  · obtain ⟨⟨swapno, sw⟩, -, hf⟩ := bind_eq_ok.1 hf
    cases hf
    exact fun _ => rfl
  cases swapno with
  | some kind =>
    refine bind_sizes get_sizes fun s => bind_sizes (getLru_sizes _ _ _) fun _ => bind_sizes (swapIn_sizes _ _ _ _) fun r => ?_
    split
    · exact stop_keeps _
    · exact trivial
  | none =>
    refine bind_sizes (kalloc_sizes _ _ _) fun mem => ?_
    cases mem with
    | none => exact stop_keeps _
    | some f =>
      refine bind_sizes (atomic_sizes fun s a s' hf => mappagesProc_sizes hf) fun r => ?_
      split
      · exact stop_keeps _
      · exact bind_sizes (fillRound_sizes _ _ _ _) fun _ => fillRound_sizes _ _ _ _

theorem growprocLoop_sizes (p : ProcIdx) : ∀ n i, KeepsSizes P (growprocLoop p n i)
  | 0, _ => trivial
  | n + 1, i => by
    refine bind_sizes (atomic_sizes fun s a s' hf => ?_) fun s => bind_sizes (swapOut_sizes _ _ _) fun r => ?_
    · cases hf
      exact sameSizes_setProc rfl
    · split
      · exact trivial
      · exact growprocLoop_sizes p n (i + 1)

theorem switchuvm_sizes (p : ProcIdx) : KeepsSizes P (switchuvm p) := by
  refine atomic_sizes fun s a s' hf => ?_
  obtain ⟨u, -, hf⟩ := bind_eq_ok.1 hf
  cases hf
  exact fun _ => rfl

theorem copyuvmLoop_sizes (rounds : Nat) (old new : ProcIdx) : ∀ n i mem d, KeepsSizes P (copyuvmLoop rounds old new n i mem d)
  | 0, _, _, _ => trivial
  | n + 1, i, mem, d => by
    refine bind_sizes (atomic_sizes fun s a s' hf => ?_) fun pd => ?_
    · obtain ⟨pd, -, hf⟩ := bind_eq_ok.1 hf
      cases hf
      exact fun _ => rfl
    cases hpte : pd.pte? i with
    | none => exact stop_keeps _
    | some pte =>
      dsimp only
      split
      · refine bind_sizes (atomic_sizes fun s a s' hf => ?_) fun r => ?_
        · cases hf
          exact fun _ => rfl
        · split
          · exact trivial
          · exact copyuvmLoop_sizes rounds old new n _ _ _
      · refine bind_sizes get_sizes fun s => bind_sizes (kalloc_sizes _ _ _) fun f => ?_
        cases f with
        | none => exact trivial
        | some f =>
          refine bind_sizes (atomic_sizes fun s a s' hf => ?_) fun r => ?_
          · obtain ⟨pd, -, hf⟩ := bind_eq_ok.1 hf
            split at hf
            · cases hf
            · cases hf
              exact fun _ => rfl
          · split
            · refine bind_sizes (atomic_sizes fun s a s' hf => ?_) fun _ => trivial
              obtain ⟨s₁, hfree, hf⟩ := bind_eq_ok.1 hf
              cases hf
              exact klruFreeSwap_sizes hfree
            · exact copyuvmLoop_sizes rounds old new n _ _ _

theorem copyuvm_sizes (rounds : Nat) (old new : ProcIdx) : KeepsSizes P (copyuvm rounds old new) := by
  refine bind_sizes (atomic_sizes fun s a s' hf => ?_) fun d => ?_
  · obtain ⟨⟨d, m⟩, -, hf⟩ := bind_eq_ok.1 hf
    cases hf
    exact fun _ => rfl
  cases d with
  | none => exact trivial
  | some d =>
    refine bind_sizes get_sizes fun s => bind_sizes (copyuvmLoop_sizes _ _ _ _ _ _ _) fun r => ?_
    dsimp only
    split
    · exact trivial
    · refine atomic_sizes fun s a s' hf => ?_
      obtain ⟨l, -, hf⟩ := bind_eq_ok.1 hf
      obtain ⟨s₁, hfree, hf⟩ := bind_eq_ok.1 hf
      obtain ⟨m, -, hf⟩ := bind_eq_ok.1 hf
      cases hf
      exact fun q => swapFree_sizes hfree q

theorem wait_sizes (p : ProcIdx) : ∀ rounds, KeepsSizes P (wait p rounds)
  | 0 => stop_keeps _
  | rounds + 1 => by
    refine bind_sizes (atomic_sizes fun s a s' hf => wait_sameSizes hf) fun pid => ?_
    cases pid with
    | some pid => exact trivial
    | none => exact bind_sizes (nap_sizes _) fun _ => wait_sizes p rounds

/-! ## Calls that set a size -/

theorem kernBase_pos : 0 < kernBase := by decide

theorem small_setProc {pr : Proc} (hs : BelowKernel s) (h : pr.sz < kernBase) : BelowKernel (s.setProc p pr) := by
  intro q
  dsimp only
  rw [Kernel.setProc_ptable]
  split
  · exact h
  · exact hs q

theorem growprocEnd_small (p : ProcIdx) {sz : Nat} (h : sz < kernBase) :
    (growprocEnd p sz).Keeps BelowKernel fun _ => True := by
  refine Keeps.bind (Q := fun _ => True) (R := fun _ => True) (.atomic fun s a s' hs hf => ?_) fun _ _ =>
    bind_sizes (switchuvm_sizes p) fun _ => trivial
  cases hf
  exact ⟨small_setProc hs h, trivial⟩

theorem deallocuvm_le {pd pd' : PageDir} {oldsz newsz r : Nat} {m m' : Phys} (h : deallocuvm pd oldsz newsz m = .ok (r, pd', m')) :
    r ≤ oldsz := by
  rw [deallocuvm] at h
  split at h
  · cases h
    exact le_rfl
  · next hlt =>
    obtain ⟨⟨pd₁, m₁⟩, -, h⟩ := bind_eq_ok.1 h
    cases h
    exact (not_le.1 hlt).le

/-- Whatever `n` is, and wherever `sz + n` wraps. -/
theorem growproc_small (p : ProcIdx) (n : Int) : (growproc p n).Keeps BelowKernel fun _ => True := by
  refine get_keeps.bind fun s hs => ?_
  have hsz : (s.ptable p).sz < kernBase := hs p
  dsimp only
  split
  · exact trivial
  split
  · refine Keeps.bind (R := fun sz => sz < kernBase) (.atomic fun s₁ a s₂ hs₁ hf => ?_) fun sz hlt => ?_
    · obtain ⟨pd, -, hf⟩ := bind_eq_ok.1 hf
      obtain ⟨⟨sz, pd', s₃⟩, halloc, hf⟩ := bind_eq_ok.1 hf
      cases hf
      obtain ⟨hsame, hr, -⟩ := allocuvm_sizes halloc
      exact ⟨(hsame.trans (sameSizes_setPgdir pd')).sizes hs₁, hr hsz⟩
    · split
      · exact trivial
      · refine bind_sizes (growprocLoop_sizes _ _ _) fun r => ?_
        split
        · exact trivial
        · exact growprocEnd_small p hlt
  · refine Keeps.bind (R := fun sz => sz < kernBase) (.atomic fun s₁ a s₂ hs₁ hf => ?_) fun sz hlt => ?_
    · obtain ⟨pd, -, hf⟩ := bind_eq_ok.1 hf
      obtain ⟨⟨sz, pd', m⟩, hdealloc, hf⟩ := bind_eq_ok.1 hf
      cases hf
      exact ⟨(sameSizes_setPgdir pd').sizes hs₁, (deallocuvm_le hdealloc).trans_lt hsz⟩
    · split
      · exact trivial
      · exact growprocEnd_small p hlt

theorem forkCommit_small {p np : ProcIdx} {d : PageDir} (hs : BelowKernel s) (h : forkCommit p np d s = .ok s') : BelowKernel s' := by
  rw [forkCommit] at h
  obtain ⟨sw, -, h⟩ := bind_eq_ok.1 h
  cases h
  have hp : (s.ptable p).sz < kernBase := hs p
  intro q
  have hq : (s.ptable q).sz < kernBase := hs q
  simp only [Kernel.setProc_ptable]
  split_ifs
  all_goals assumption

theorem fork_small (rounds : Nat) (p : ProcIdx) : (fork rounds p).Keeps BelowKernel fun _ => True := by
  refine bind_sizes (atomic_sizes fun s a s' hf => allocproc_sizes (Except.ok.inj hf)) fun o => ?_
  cases o with
  | none => exact trivial
  | some np =>
    refine bind_sizes (copyuvm_sizes _ _ _) fun d => ?_
    cases d with
    | none =>
      refine atomic_sizes fun s a s' hf => ?_
      obtain ⟨f, -, hf⟩ := bind_eq_ok.1 hf
      obtain ⟨m, -, hf⟩ := bind_eq_ok.1 hf
      cases hf
      exact .of_update rfl rfl
    | some d =>
      refine .atomic fun s a s' hs hf => ?_
      obtain ⟨s₁, hcommit, hf⟩ := bind_eq_ok.1 hf
      cases hf
      exact ⟨forkCommit_small hs hcommit, trivial⟩

theorem execLoad_small (miss : Nat → Bool) (p : ProcIdx) (file : File) : ∀ (n off sz : Nat) (pd : PageDir), sz < kernBase →
    (execLoad miss p file n off sz pd).Keeps BelowKernel fun r => ∀ sz, r.1 = some sz → sz < kernBase
  | 0, _, sz, pd, h => by
    intro sz' heq
    cases heq
    exact h
  | n + 1, off, sz, pd, h => by
    have hnone : ∀ pd : PageDir, ∀ sz, (none, pd).1 = some sz → sz < kernBase := fun pd sz heq => by cases heq
    refine (nap_sizes _).bind fun _ _ => ?_
    split
    · exact hnone pd
    split
    · exact execLoad_small miss p file n _ sz pd h
    split
    · exact hnone pd
    split
    · exact hnone pd
    split
    · exact hnone pd
    refine Keeps.bind (R := fun r => r.1 < kernBase) (.atomic fun s a s' hs hf => ?_) fun r hr => ?_
    · obtain ⟨⟨sz', pd', s₁⟩, halloc, hf⟩ := bind_eq_ok.1 hf
      cases hf
      obtain ⟨hsame, hr, -⟩ := allocuvm_sizes halloc
      exact ⟨hsame.sizes (small_setProc hs (hs p)), hr h⟩
    · dsimp only
      split
      · exact hnone r.2
      · exact execLoad_small miss p file n _ r.1 r.2 hr

theorem execCommit_small (p : ProcIdx) (path : List UInt8) (elf : ElfHdr) (pd : PageDir) {sz : Nat} (sp base : Nat) (h : sz < kernBase) :
    (execCommit p path elf pd sz sp base).Keeps BelowKernel fun _ => True := by
  rw [execCommit]
  split
  · exact stop_keeps _
  refine Keeps.bind (R := fun _ => True) (.atomic fun s a s' hs hf => ?_) fun old _ => ?_
  · cases hf
    exact ⟨small_setProc hs h, trivial⟩
  refine bind_sizes (switchuvm_sizes p) fun _ => bind_sizes (swapOut_sizes _ _ _) fun r => ?_
  split
  · exact stop_keeps _
  cases old with
  | none => exact stop_keeps _
  | some old =>
    refine atomic_sizes fun s a s' hf => ?_
    obtain ⟨m, -, hf⟩ := bind_eq_ok.1 hf
    cases hf
    exact fun _ => rfl

theorem execStack_small (p : ProcIdx) (path : List UInt8) (argv : List (List UInt8)) (elf : ElfHdr) (pd : PageDir) (sz : Nat) :
    (execStack p path argv elf pd sz).Keeps BelowKernel fun _ => True := by
  refine Keeps.bind (R := fun r => r.1 < kernBase) (.atomic fun s a s' hs hf => ?_) fun r hr => ?_
  · obtain ⟨⟨sz', pd', s₁⟩, halloc, hf⟩ := bind_eq_ok.1 hf
    cases hf
    obtain ⟨hsame, hr, hsmall⟩ := allocuvm_sizes halloc
    refine ⟨hsame.sizes (small_setProc hs (hs p)), ?_⟩
    rcases hsmall with rfl | hlt
    · exact kernBase_pos
    · exact hr (by omega)
  have hbad : ∀ pd, KeepsSizes (fun sz => ∀ q, sz q < kernBase) (doing fun s => execBad p pd s) := fun pd =>
    atomic_sizes fun s a s' hf => execBad_sizes hf
  dsimp only
  split
  · exact hbad _
  refine bind_sizes (atomic_sizes fun s a s' hf => ?_) fun x => ?_
  · obtain ⟨pd₁, -, hf⟩ := bind_eq_ok.1 hf
    obtain ⟨⟨r₁, buf⟩, -, hf⟩ := bind_eq_ok.1 hf
    cases hf
    exact sameSizes_setProc rfl
  · split
    · exact hbad _
    · refine bind_sizes (atomic_sizes fun s a s' hf => ?_) fun _ => execCommit_small p path elf _ _ _ hr
      obtain ⟨buf, -, hf⟩ := bind_eq_ok.1 hf
      cases hf
      exact sameSizes_setProc rfl

theorem exec_small (miss : Nat → Bool) (p : ProcIdx) (path : List UInt8) (argv : List (List UInt8)) :
    (exec miss p path argv).Keeps BelowKernel fun _ => True := by
  refine bind_sizes get_sizes fun s => ?_
  split
  · exact trivial
  refine bind_sizes (atomic_sizes fun s a s' hf => ?_) fun file => bind_sizes (nap_sizes _) fun _ => ?_
  · cases hf
    exact sameSizes_setProc rfl
  split
  · exact trivial
  split
  · exact trivial
  refine bind_sizes (atomic_sizes fun s a s' hf => ?_) fun pd => ?_
  · obtain ⟨⟨pd, m⟩, -, hf⟩ := bind_eq_ok.1 hf
    cases hf
    exact fun _ => rfl
  cases pd with
  | none => exact trivial
  | some pd =>
    refine (execLoad_small miss p file _ _ 0 pd (by decide)).bind fun r _ => ?_
    obtain ⟨_ | sz, pd⟩ := r
    · exact atomic_sizes fun s a s' hf => execBad_sizes hf
    · exact execStack_small p path argv _ pd sz

end Threaded

theorem SysCall.thread_small (tm : Timing) (c : SysCall) : (c.thread tm).Keeps BelowKernel fun _ => True := by
  cases c with
  | fork p => exact Threaded.bind_sizes (Threaded.fork_small _ p) fun _ => trivial
  | exec p path argv => exact Threaded.bind_sizes (Threaded.exec_small _ p path argv) fun _ => trivial
  | growproc p n => exact Threaded.bind_sizes (Threaded.growproc_small p n) fun _ => trivial
  | fault p cr2 => exact Threaded.pgfltHandler_sizes tm p cr2
  | exit p =>
    refine Threaded.atomic_sizes fun s a s' hf => ?_
    obtain ⟨s₁, hexit, hf⟩ := bind_eq_ok.1 hf
    cases hf
    rw [DemandPaging.exit] at hexit
    split at hexit
    · cases hexit
    · cases hexit
      exact fun _ => rfl
  | wait p => exact Threaded.bind_sizes (Threaded.wait_sizes p _) fun _ => trivial

/-! ## Runs -/

theorem pgSize_lt_kernBase : pgSize < kernBase := by decide

theorem userinit_small {init : List UInt8} (hs : BelowKernel s) (h : userinit init s = .ok s') : BelowKernel s' := by
  unfold userinit at h
  rcases hal : allocproc s with ⟨o, s₁⟩
  rw [hal] at h
  dsimp only at h
  obtain ⟨p, -, h⟩ := bind_eq_ok.1 h
  obtain ⟨⟨d, m⟩, -, h⟩ := bind_eq_ok.1 h
  cases d with
  | none => cases h
  | some d =>
    obtain ⟨⟨d', m'⟩, -, h⟩ := bind_eq_ok.1 h
    obtain rfl := Except.ok.inj h
    exact Threaded.small_setProc ((allocproc_sizes hal).sizes hs) pgSize_lt_kernBase

theorem boot_small {ncpu : Nat} {init : List UInt8} {l : Layout} {mem : Nat → Page} {disk : Nat → Block} {fs : Fs} {t : Machine}
    (h : boot ncpu init (loadedKernel l mem disk fs) = .ok t) : BelowKernel t.kernel := by
  rw [boot] at h
  obtain ⟨m₁, -, h⟩ := bind_eq_ok.1 h
  obtain ⟨⟨d, m₂⟩, -, h⟩ := bind_eq_ok.1 h
  obtain ⟨kpgdir, -, h⟩ := bind_eq_ok.1 h
  obtain ⟨⟨cpuStacks, m₃⟩, -, h⟩ := bind_eq_ok.1 h
  obtain ⟨m₄, -, h⟩ := bind_eq_ok.1 h
  obtain ⟨s, hinit, h⟩ := bind_eq_ok.1 h
  cases h
  refine userinit_small (fun q => ?_) hinit
  exact Threaded.kernBase_pos

namespace Smp

/-- The sizes are small, and no call that is under way makes one large. -/
structure AllSmall (m : Smp) : Prop where
  kernel : BelowKernel m.kernel
  threads : ∀ q, (m.threads q).Keeps BelowKernel fun _ => True

theorem AllSmall.step {a : CpuAct} {m m' : Smp} (h : m.AllSmall) (hstep : step a m = .ok m') : m'.AllSmall := by
  cases a with
  | dispatch c q =>
    rw [Smp.step] at hstep
    split at hstep
    · split at hstep
      · cases hstep
      · cases hstep
        exact ⟨h.kernel, h.threads⟩
    · cases hstep
      exact h
  | yield c =>
    cases hstep
    exact ⟨h.kernel, h.threads⟩
  | walk c n =>
    rw [Smp.step] at hstep
    split at hstep
    · cases hstep
      exact h
    · cases hstep
      exact ⟨h.kernel, h.threads⟩
  | access c a byte =>
    simp only [Smp.step] at hstep
    split at hstep
    · cases hstep
      exact ⟨h.kernel, h.threads⟩
    · cases hstep
      exact h
  | call c tm call =>
    rw [Smp.step] at hstep
    split at hstep
    · cases hstep
      refine ⟨h.kernel, fun q => ?_⟩
      dsimp only
      rw [Function.update_apply]
      split
      · exact call.thread_small tm
      · exact h.threads q
    · cases hstep
      exact h
  | kernel c =>
    rw [Smp.step] at hstep
    split at hstep
    · cases hstep
      exact h
    · next p _ =>
      split at hstep
      · cases hstep
        exact h
      · next f k hthread =>
        split at hstep
        · cases hstep
        · next e b s hf =>
          cases hstep
          have hp := h.threads p
          rw [hthread] at hp
          obtain ⟨hs, hk⟩ := hp m.kernel e b s h.kernel hf
          have hthreads : ∀ q, (Function.update m.threads p (k b) q).Keeps BelowKernel fun _ => True := by
            intro q
            rw [Function.update_apply]
            split
            · exact hk
            · exact h.threads q
          cases e <;> exact ⟨hs, hthreads⟩

theorem AllSmall.run : ∀ {acts : List CpuAct} {m m' : Smp}, m.AllSmall → acts.foldlM (fun m a => Smp.step a m) m = .ok m' → m'.AllSmall
  | [], m, m', h, hrun => by
    cases hrun
    exact h
  | a :: acts, m, m', h, hrun => by
    rw [List.foldlM_cons] at hrun
    cases hstep : Smp.step a m with
    | error x => rw [hstep] at hrun; cases hrun
    | ok m₁ =>
      rw [hstep] at hrun
      exact (h.step hstep).run hrun

end Smp

/-! ## The arguments of a system call -/

theorem pgfltHandler_sameSizes {cr2 : Nat} (h : pgfltHandler p cr2 s = .ok s') : SameSizes s s' := by
  have hrun : (Threaded.pgfltHandler ⟨2, fun _ => false⟩ p cr2).run s = .ok ((), s') := by
    rw [Threaded.pgfltHandler_run _ rfl, h]
    rfl
  have hkeeps := (Threaded.pgfltHandler_sizes ⟨2, fun _ => false⟩ p cr2).run (I := Sizes fun sz => ∀ q, sz q = (s.ptable q).sz)
    (fun _ => rfl) hrun
  exact hkeeps.1

theorem kernelLoad_sameSizes {a : Nat} {b : UInt8} (h : kernelLoad p a s = .ok (b, s')) : SameSizes s s' := by
  rw [kernelLoad] at h
  split at h
  · cases h
    exact fun _ => rfl
  · obtain ⟨s₁, hfault, h⟩ := bind_eq_ok.1 h
    split at h
    · cases h
      exact pgfltHandler_sameSizes hfault
    · cases h

theorem kernelLoads_sameSizes : ∀ {as : List Nat} {bs : List UInt8} {s : Kernel}, kernelLoads p as s = .ok (bs, s') → SameSizes s s'
  | [], _, _, h => by
    cases h
    exact fun _ => rfl
  | a :: as, _, s, h => by
    rw [kernelLoads] at h
    obtain ⟨⟨b, s₁⟩, hb, h⟩ := bind_eq_ok.1 h
    obtain ⟨⟨bs, s₂⟩, hbs, h⟩ := bind_eq_ok.1 h
    cases h
    exact (kernelLoad_sameSizes hb).trans (kernelLoads_sameSizes hbs)

theorem wordAddrs_eq {addr : Nat} (h : addr + 4 ≤ wordSize) : wordAddrs addr = List.range' addr 4 := by
  rw [wordAddrs, List.range'_eq_map_range]
  refine List.map_congr_left fun i hi => Nat.mod_eq_of_lt ?_
  have := List.mem_range.1 hi
  omega

/-- What `fetchint` reads: the size is small, so that the end of the word has not wrapped. -/
theorem fetchint_inside {addr v : Nat} (hs : (s.ptable p).sz < kernBase) (h : fetchint p addr s = .ok (some v, s')) :
    addr + 4 ≤ (s.ptable p).sz ∧ SameSizes s s' ∧
      ∃ bs, kernelLoads p (List.range' addr 4) s = .ok (bs, s') ∧ v = Bytes.leVal bs := by
  rw [fetchint] at h
  dsimp only at h
  split at h
  · cases h
  · next hin =>
    obtain ⟨hlt, hend⟩ := not_or.1 hin
    have hword : addr + 4 < wordSize := lt_of_lt_of_le (Nat.add_lt_add_right ((not_le.1 hlt).trans hs) 4) (by decide)
    rw [Nat.mod_eq_of_lt hword] at hend
    obtain ⟨⟨bs, s₁⟩, hbs, h⟩ := bind_eq_ok.1 h
    cases h
    rw [wordAddrs_eq hword.le] at hbs
    exact ⟨not_lt.1 hend, kernelLoads_sameSizes hbs, bs, hbs, rfl⟩

theorem fetchstrLoop_inside {addr : Nat} : ∀ {n a len : Nat} {s : Kernel}, addr ≤ a → fetchstrLoop p addr n a s = .ok (some len, s') →
    a ≤ addr + len ∧ addr + len < a + n ∧
      ∃ bs, kernelLoads p (List.range' a (addr + len - a + 1)) s = .ok (bs ++ [0], s') ∧ 0 ∉ bs
  | 0, a, len, s, _, h => by cases h
  | n + 1, a, len, s, ha, h => by
    rw [fetchstrLoop] at h
    obtain ⟨⟨b, s₁⟩, hb, h⟩ := bind_eq_ok.1 h
    dsimp only at h
    split at h
    · next h0 =>
      cases h
      have hlen : addr + (a - addr) = a := by omega
      rw [hlen, Nat.sub_self]
      refine ⟨le_rfl, by omega, [], ?_, List.not_mem_nil⟩
      rw [List.range'_succ, kernelLoads, hb, h0]
      rfl
    · next h0 =>
      obtain ⟨hle, hlt, bs, hbs, hmem⟩ := fetchstrLoop_inside (Nat.le_succ_of_le ha) h
      refine ⟨by omega, by omega, b :: bs, ?_, ?_⟩
      · have hlen : addr + len - a + 1 = (addr + len - (a + 1) + 1) + 1 := by omega
        rw [hlen, List.range'_succ, kernelLoads, hb, ok_bind]
        simp only [hbs, ok_bind]
        rfl
      · rw [List.mem_cons, not_or]
        exact ⟨Ne.symm h0, hmem⟩

/-- What `fetchstr` reads: a string with its end. -/
theorem fetchstr_inside {addr len : Nat} (h : fetchstr p addr s = .ok (some len, s')) :
    addr + len < (s.ptable p).sz ∧ ∃ bs, kernelLoads p (List.range' addr (len + 1)) s = .ok (bs ++ [0], s') ∧ 0 ∉ bs := by
  rw [fetchstr] at h
  split at h
  · cases h
  · obtain ⟨-, hlt, bs, hbs, hmem⟩ := fetchstrLoop_inside le_rfl h
    rw [Nat.add_sub_cancel_left] at hbs
    exact ⟨by omega, bs, hbs, hmem⟩

/-- The buffer that `argptr` accepts: the size is an `int`, so that its end has not wrapped either. -/
theorem argptr_inside {n size : Int} {i : Nat} (hs : (s.ptable p).sz < kernBase) (hsize : size < 2 ^ 31)
    (h : argptr p n size s = .ok (some i, s')) :
    0 ≤ size ∧ i + size ≤ (s.ptable p).sz ∧ SameSizes s s' := by
  rw [argptr] at h
  obtain ⟨⟨v, s₁⟩, hv, h⟩ := bind_eq_ok.1 h
  cases v with
  | none => cases h
  | some v =>
    obtain ⟨-, hsame, -⟩ := fetchint_inside hs hv
    dsimp only at h
    rw [hsame p] at h
    split at h
    · cases h
    · next hin =>
      cases h
      obtain ⟨hpos, hin⟩ := not_or.1 hin
      obtain ⟨hlt, hend⟩ := not_or.1 hin
      have hk : kernBase = 2 ^ 31 := rfl
      have hend' : ((i : Int) + size) % ((wordSize : Nat) : Int) = i + size :=
        Int.emod_eq_of_lt (by omega) (lt_of_lt_of_le (b := 2 ^ 31 + 2 ^ 31) (by omega) (by decide))
      rw [hend'] at hend
      exact ⟨not_lt.1 hpos, by omega, hsame⟩

theorem argstr_inside {n : Int} {addr len : Nat} (hs : (s.ptable p).sz < kernBase) (h : argstr p n s = .ok (some (addr, len), s')) :
    addr + len < (s.ptable p).sz ∧
      ∃ s₁ bs, argint p n s = .ok (some addr, s₁) ∧ kernelLoads p (List.range' addr (len + 1)) s₁ = .ok (bs ++ [0], s') ∧ 0 ∉ bs := by
  rw [argstr] at h
  obtain ⟨⟨v, s₁⟩, hv, h⟩ := bind_eq_ok.1 h
  cases v with
  | none => cases h
  | some v =>
    obtain ⟨-, hsame, -⟩ := fetchint_inside hs hv
    obtain ⟨⟨o, s₂⟩, hstr, h⟩ := bind_eq_ok.1 h
    cases o with
    | none => cases h
    | some l =>
      cases h
      obtain ⟨hlt, bs, hbs, hmem⟩ := fetchstr_inside hstr
      rw [hsame p] at hlt
      exact ⟨hlt, s₁, bs, hv, hbs, hmem⟩

end DemandPaging
