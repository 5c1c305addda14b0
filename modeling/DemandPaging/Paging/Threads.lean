/-
Run without interruption, the threads of the kernel's calls are the calls of the sequential model.
-/
import DemandPaging.Kernel.Threads

namespace DemandPaging.Threaded

variable {s : Kernel} {p : ProcIdx}

@[simp] theorem run_get : get.run s = .ok (s, s) := rfl

@[simp] theorem run_stop {α : Type} (x : Stuck) : (stop x : KThread α).run s = .error x := rfl

@[simp] theorem run_nap (miss : Bool) : (nap miss).run s = .ok ((), s) := by cases miss <;> rfl

/-! ## Swapping out -/

theorem writeswap_run (kind : SwapKind) (bno : Nat) : ∀ (is : List (Fin 8)) (s : Kernel),
    (writeswap kind p bno is).run s =
      .ok ((), { s with disk := is.foldl (storeBlock (kind.buffer (s.ptable p)) bno) s.disk })
  | [], _ => rfl
  | i :: is, s => by
    rw [writeswap, Thread.run_bind, Thread.run_atomic]
    exact writeswap_run kind bno is _

theorem foldl_storeBlock (pg : Page) (bno n : Nat) : ∀ (is : List (Fin 8)) (disk : Nat → Block),
    is.foldl (storeBlock pg bno) disk n =
      if h : ∃ i ∈ is, bno + i.val = n then pageBlock pg ⟨n - bno, by obtain ⟨i, -, hi⟩ := h; omega⟩ else disk n
  | [], _ => by simp
  | i :: is, disk => by
    rw [List.foldl_cons, foldl_storeBlock pg bno n is]
    by_cases hi : bno + i.val = n
    · have hidx : (⟨n - bno, by omega⟩ : Fin 8) = i := by ext; simp only; omega
      split
      · rw [dif_pos ⟨i, List.mem_cons_self, hi⟩]
      · rw [dif_pos ⟨i, List.mem_cons_self, hi⟩, hidx, storeBlock, hi, Function.update_self]
    · have hmem : (∃ j ∈ i :: is, bno + j.val = n) ↔ ∃ j ∈ is, bno + j.val = n := by simp [hi]
      simp only [hmem, storeBlock, Function.update_of_ne (Ne.symm hi)]

/-- Eight blocks written one after another are the page. -/
theorem foldl_storeBlock_page (pg : Page) (bno : Nat) (disk : Nat → Block) :
    (List.finRange 8).foldl (storeBlock pg bno) disk = DemandPaging.writeswap pg bno disk := by
  funext n
  rw [foldl_storeBlock, DemandPaging.writeswap]
  by_cases hn : bno ≤ n ∧ n < bno + 8
  · rw [dif_pos hn, dif_pos ⟨⟨n - bno, by omega⟩, List.mem_finRange _, by simp only; omega⟩]
  · rw [dif_neg hn, dif_neg (by rintro ⟨i, -, hi⟩; exact hn ⟨by omega, by omega⟩)]

theorem swapOut_run (kind : SwapKind) (vaddr : Nat) : (swapOut kind p vaddr).run s = swapOutFunc kind p vaddr s := by
  have hkind : swapOutFunc kind = swapOutWith kind := by cases kind <;> rfl
  rw [hkind, swapOut, swapOutWith, Thread.run_bind, Thread.run_atomic]
  cases linkSlot kind vaddr (s.ptable p).swapList s.swap with
  | error x => rfl
  | ok r =>
    obtain ⟨_ | findex, list, sw⟩ := r
    · rfl
    · simp only [ok_bind, Thread.run_bind, Thread.run_atomic, writeswap_run, foldl_storeBlock_page, bind_assoc, pure_bind,
        Thread.run_pure]
      rfl

theorem evict_run : evict.run s = do return ((), ← DemandPaging.evict s) := by
  rw [evict, DemandPaging.evict, Thread.run_bind]
  show (do let r ← (do let (_, b, s) ← evictStart s; Except.ok (b, s)); _) = _
  unfold evictStart
  cases lruDelete s.lru with
  | error x => rfl
  | ok r =>
    obtain ⟨_ | index, lru⟩ := r
    · rfl
    simp only [ok_bind]
    cases lruGetPidFrame index lru with
    | error x => rfl
    | ok pid =>
    simp only [ok_bind]
    cases lruGetVaddrFrame index lru with
    | error x => rfl
    | ok vaddr =>
    simp only [ok_bind]
    cases lruReleaseFrame index lru with
    | error x => rfl
    | ok lru' =>
    simp only [ok_bind]
    cases getProc pid { s with lru := lru' } with
    | none =>
      simp only [bind_assoc, pure_bind]
      rfl
    | some pr =>
      simp only []
      cases readVaddr pr vaddr { s with lru := lru' } with
      | error x => rfl
      | ok r =>
        obtain ⟨r, s₁⟩ := r
        simp only [ok_bind]
        split
        · rfl
        · simp only [pure_bind, ok_bind, Thread.run_bind, swapOut_run, bind_assoc]
          cases swapOutFunc .generic pr vaddr s₁ with
          | error x => rfl
          | ok r =>
            simp only [ok_bind]
            split <;> rfl

theorem getLru_run (pid : Int) (vaddr : Nat) : ∀ (rounds : Nat) (s : Kernel),
    (getLru pid vaddr rounds).run s = do return ((), ← getLruLoop pid vaddr rounds s)
  | 0, _ => rfl
  | rounds + 1, s => by
    rw [getLru, getLruLoop, Thread.run_bind, Thread.run_atomic]
    cases lruInsert pid vaddr s.lru with
    | error x => rfl
    | ok r =>
      obtain ⟨r, lru⟩ := r
      simp only [ok_bind, pure_bind]
      split
      · simp only [Thread.run_bind, evict_run, bind_assoc, pure_bind, getLru_run pid vaddr rounds]
      · rfl

theorem kalloc_run (pid lru : Int) (rounds : Nat) (h : pid ≠ -1 ∧ lru ≠ -1 → rounds = 2) :
    (kalloc rounds pid lru).run s = DemandPaging.kalloc pid lru s := by
  rw [kalloc, DemandPaging.kalloc, Thread.run_bind, Thread.run_atomic, ok_bind]
  rcases hk : kallocPage s.phys with ⟨_ | f, m⟩
  · have hm : m = s.phys := by
      unfold kallocPage at hk
      split at hk
      · exact (Prod.mk.inj hk).2.symm
      · cases hk
    rw [hm]
    rfl
  · simp only []
    split
    · next hc =>
      rw [h hc]
      simp only [Thread.run_bind, getLru_run, DemandPaging.getLru, bind_assoc, pure_bind, Thread.run_pure]
      rfl
    · rfl

/-! ## Swapping in -/

theorem readswapLoop_run (miss : Nat → Bool) (f bno : Nat) : ∀ (is : List (Fin 8)) (s : Kernel),
    (readswapLoop miss f bno is).run s =
      .ok ((), { s with phys := is.foldl (fun m i => copyBlock f i (s.disk (bno + i.val)) m) s.phys })
  | [], _ => rfl
  | i :: is, s => by
    rw [readswapLoop, Thread.run_bind, run_nap, ok_bind, Thread.run_bind, Thread.run_atomic]
    exact readswapLoop_run miss f bno is _

theorem foldl_copyBlock (disk : Nat → Block) (f bno : Nat) : ∀ (is : List (Fin 8)) (m : Phys),
    is.foldl (fun m i => copyBlock f i (disk (bno + i.val)) m) m = m.setPage f fun j =>
      if ∃ i ∈ is, j.val / bSize = i.val then diskPage disk bno j else m.mem f j
  | [], m => by simp [Phys.setPage]
  | i :: is, m => by
    rw [List.foldl_cons, foldl_copyBlock disk f bno is]
    simp only [copyBlock, Phys.setPage, Function.update_self, Function.update_idem]
    congr 2
    funext j
    by_cases hi : j.val / bSize = i.val
    · simp only [hi, List.mem_cons, exists_eq_or_imp, true_or, if_true, diskPage]
      split <;> rfl
    · simp only [hi, List.mem_cons, exists_eq_or_imp, false_or, if_false]

/-- Eight blocks read one after another are the page. -/
theorem foldl_copyBlock_page (disk : Nat → Block) (f bno : Nat) (m : Phys) :
    (List.finRange 8).foldl (fun m i => copyBlock f i (disk (bno + i.val)) m) m = m.setPage f (diskPage disk bno) := by
  rw [foldl_copyBlock]
  congr 1
  funext j
  rw [if_pos ⟨⟨j.val / bSize, by have := j.isLt; simp only [pgSize, bSize] at *; omega⟩, List.mem_finRange _, rfl⟩]

theorem readswap_run (miss : Nat → Bool) (bno : Nat) : (readswap miss p bno).run s = DemandPaging.readswap p bno s := by
  rw [readswap, DemandPaging.readswap, Thread.run_bind, run_get, ok_bind, Thread.run_bind, kalloc_run _ _ 0 (by simp)]
  cases DemandPaging.kalloc (s.ptable p).pid (-1) s with
  | error x => rfl
  | ok r =>
    obtain ⟨_ | f, s₁⟩ := r
    · rfl
    · simp only [ok_bind, Thread.run_bind, readswapLoop_run, foldl_copyBlock_page, Thread.run_pure]
      rfl

theorem swapIn_run (miss : Nat → Bool) (kind : SwapKind) (vaddr : Nat) :
    (swapIn miss kind p vaddr).run s = swapInFunc kind p vaddr s := by
  have hkind : swapInFunc kind = swapInWith kind := by cases kind <;> rfl
  rw [hkind, swapIn, swapInWith, Thread.run_bind, Thread.run_atomic]
  cases takeSlot vaddr (s.ptable p).swapList s.swap with
  | error x => rfl
  | ok r =>
    obtain ⟨_ | findex, list, sw⟩ := r
    · rfl
    · simp only [ok_bind, pure_bind, Thread.run_bind, readswap_run, Thread.run_atomic]

theorem pgfltHandler_run (tm : Timing) (htm : tm.rounds = 2) (cr2 : Nat) :
    (pgfltHandler tm p cr2).run s = do return ((), ← DemandPaging.pgfltHandler p cr2 s) := by
  unfold pgfltHandler DemandPaging.pgfltHandler
  simp only []
  split
  · rfl
  rw [Thread.run_bind, Thread.run_atomic]
  cases swapCheck (pgRoundDown cr2) (s.ptable p).swapList s.swap with
  | error x => rfl
  | ok r =>
    obtain ⟨_ | kind, sw⟩ := r
    · simp only [ok_bind, pure_bind, Thread.run_bind]
      rw [kalloc_run _ _ 0 (by simp)]
      cases DemandPaging.kalloc (-1) (-1) { s with swap := sw } with
      | error x => rfl
      | ok r =>
        obtain ⟨_ | f, s₁⟩ := r
        · rfl
        simp only [ok_bind, Thread.run_bind, Thread.run_atomic]
        cases mappagesProc p (pgRoundDown cr2) pgSize (f * pgSize) ⟨true, true, true⟩ true s₁ with
        | error x => rfl
        | ok r =>
          obtain ⟨r, s₂⟩ := r
          simp only [ok_bind]
          split
          · rfl
          · simp only [fillRound, Thread.run_bind, run_nap, ok_bind, Thread.run_atomic]
            cases hpd : (s₂.ptable p).pgdir with
            | none => rfl
            | some pd => simp only [hpd, deref_some, ok_bind, bind_assoc, pure_bind]
    · simp only [ok_bind, pure_bind, Thread.run_bind, run_get, getLru_run, htm, bind_assoc, swapIn_run, DemandPaging.getLru]
      refine bind_congr fun s₁ => bind_congr fun r => ?_
      split <;> rfl

/-! ## Growing -/

theorem switchuvm_run : (switchuvm p).run s = do return (← DemandPaging.switchuvm p s, s) := by
  rw [switchuvm, Thread.run_atomic]

theorem growprocLoop_run : ∀ (n i : Nat) (s : Kernel), (growprocLoop p n i).run s = DemandPaging.growprocLoop p n i s
  | 0, _, _ => rfl
  | n + 1, i, s => by
    rw [growprocLoop, DemandPaging.growprocLoop, Thread.run_bind, Thread.run_atomic]
    simp only [ok_bind, Thread.run_bind, swapOut_run]
    refine bind_congr fun r => ?_
    split
    · rfl
    · exact growprocLoop_run n (i + 1) r.2

theorem growprocEnd_run (sz : Nat) : (growprocEnd p sz).run s = (do
    DemandPaging.switchuvm p (s.setProc p { s.ptable p with sz := sz })
    return (0, s.setProc p { s.ptable p with sz := sz })) := by
  rw [growprocEnd, Thread.run_bind, Thread.run_atomic, ok_bind, Thread.run_bind, switchuvm_run]
  simp only [bind_assoc, pure_bind, Thread.run_pure]
  rfl

theorem growproc_run (n : Int) : (growproc p n).run s = DemandPaging.growproc p n s := by
  rw [growproc, DemandPaging.growproc, Thread.run_bind, run_get, ok_bind]
  simp only []
  split
  · rfl
  split
  · simp only [Thread.run_bind, Thread.run_atomic, bind_assoc, pure_bind]
    refine bind_congr fun pd => bind_congr fun r => ?_
    split
    · rfl
    · rw [Thread.run_bind, growprocLoop_run]
      refine bind_congr fun r' => ?_
      split
      · rfl
      · exact growprocEnd_run _
  · simp only [Thread.run_bind, Thread.run_atomic, bind_assoc, pure_bind]
    refine bind_congr fun pd => bind_congr fun r => ?_
    split
    · rfl
    · exact growprocEnd_run _

/-! ## Fork -/

theorem copyuvmLoop_run (old new : ProcIdx) : ∀ (n i : Nat) (mem : Option Nat) (d : PageDir) (s : Kernel),
    (copyuvmLoop 2 old new n i mem d).run s = do
      let (done, d, s) ← DemandPaging.copyuvmLoop old new n i mem d s
      return ((done, d), s)
  | 0, _, _, _, _ => rfl
  | n + 1, i, mem, d, s => by
    rw [copyuvmLoop, DemandPaging.copyuvmLoop, Thread.run_bind, Thread.run_atomic]
    simp only [bind_assoc, pure_bind]
    refine bind_congr fun pd => ?_
    cases pd.pte? i with
    | none => rfl
    | some pte =>
      simp only []
      split
      · simp only [Thread.run_bind, Thread.run_atomic, ok_bind]
        split
        · rfl
        · exact copyuvmLoop_run old new n _ _ _ _
      · simp only [Thread.run_bind, run_get, ok_bind, bind_assoc]
        rw [kalloc_run _ _ 2 fun _ => rfl]
        refine bind_congr fun r => ?_
        obtain ⟨_ | f, s₁⟩ := r
        · rfl
        simp only [Thread.run_bind, Thread.run_atomic, bind_assoc]
        refine bind_congr fun pd' => ?_
        cases pd'.pte? i with
        | none => rfl
        | some pte' =>
          simp only [pure_bind]
          split
          · simp only [Thread.run_bind, Thread.run_atomic, bind_assoc, pure_bind, Thread.run_pure]
            rfl
          · exact copyuvmLoop_run old new n _ _ _ _

theorem copyuvm_run (old new : ProcIdx) : (copyuvm 2 old new).run s = DemandPaging.copyuvm old new s := by
  rw [copyuvm, DemandPaging.copyuvm, Thread.run_bind, Thread.run_atomic]
  simp only [bind_assoc, pure_bind]
  refine bind_congr fun r => ?_
  obtain ⟨_ | d, m⟩ := r
  · rfl
  simp only [Thread.run_bind, run_get, ok_bind, copyuvmLoop_run, bind_assoc, pure_bind]
  refine bind_congr fun r => ?_
  split
  · rfl
  · exact Thread.run_atomic _ _ _

theorem fork_run : (fork 2 p).run s = DemandPaging.fork p s := by
  unfold fork DemandPaging.fork
  simp only [Thread.run_bind, Thread.run_atomic, ok_bind]
  generalize allocproc s = r
  obtain ⟨_ | np, s₁⟩ := r
  · rfl
  simp only [Thread.run_bind, copyuvm_run]
  refine bind_congr fun r => ?_
  obtain ⟨_ | d, s₂⟩ := r
  · exact Thread.run_atomic _ _ _
  · exact Thread.run_atomic _ _ _

/-! ## Exec -/

theorem execLoad_run (miss : Nat → Bool) (file : File) : ∀ (n off sz : Nat) (pd : PageDir) (s : Kernel),
    (execLoad miss p file n off sz pd).run s = do
      let (sz, pd, s) ← DemandPaging.execLoad p file n off sz pd s
      return ((sz, pd), s)
  | 0, _, _, _, _ => rfl
  | n + 1, off, sz, pd, s => by
    rw [execLoad, DemandPaging.execLoad]
    simp only [Thread.run_bind, run_nap, ok_bind]
    split
    · rfl
    split
    · exact execLoad_run miss file n _ _ _ _
    split
    · rfl
    split
    · rfl
    split
    · rfl
    simp only [Thread.run_bind, Thread.run_atomic, bind_assoc, pure_bind]
    refine bind_congr fun r => ?_
    split
    · rfl
    · exact execLoad_run miss file n _ _ _ _

theorem execCommit_run (path : List UInt8) (elf : ElfHdr) (pd : PageDir) (sz sp base : Nat) :
    (execCommit p path elf pd sz sp base).run s = DemandPaging.execCommit p path elf pd sz sp base s := by
  rw [execCommit, DemandPaging.execCommit]
  split
  · rfl
  simp only [Thread.run_bind, Thread.run_atomic, ok_bind, switchuvm_run, bind_assoc, pure_bind, swapOut_run]
  refine bind_congr fun _ => bind_congr fun r => ?_
  split
  · rfl
  · cases (s.ptable p).pgdir with
    | none => rfl
    | some old => exact Thread.run_atomic _ _ _

theorem execStack_run (path : List UInt8) (argv : List (List UInt8)) (elf : ElfHdr) (pd : PageDir) (sz : Nat) :
    (execStack p path argv elf pd sz).run s = DemandPaging.execStack p path argv elf pd sz s := by
  rw [execStack, DemandPaging.execStack]
  simp only [Thread.run_bind, Thread.run_atomic, bind_assoc, pure_bind]
  refine bind_congr fun r => ?_
  split
  · exact Thread.run_atomic _ _ _
  simp only [Thread.run_bind, Thread.run_atomic, bind_assoc, pure_bind]
  refine bind_congr fun pd' => bind_congr fun r' => ?_
  obtain ⟨_ | ⟨sp, args⟩, buf⟩ := r'
  · exact Thread.run_atomic _ _ _
  simp only [Thread.run_bind, Thread.run_atomic, bind_assoc, pure_bind, execCommit_run, Kernel.setProc_same]

theorem exec_run (miss : Nat → Bool) (path : List UInt8) (argv : List (List UInt8)) :
    (exec miss p path argv).run s = DemandPaging.exec p path argv s := by
  rw [exec, DemandPaging.exec, Thread.run_bind, run_get, ok_bind]
  simp only []
  cases s.fs.namei path with
  | none => rfl
  | some ip =>
    simp only [Thread.run_bind, Thread.run_atomic, ok_bind, run_nap]
    split
    · rfl
    split
    · rfl
    simp only [Thread.run_bind, Thread.run_atomic, bind_assoc, pure_bind]
    refine bind_congr fun r => ?_
    obtain ⟨_ | pd, m⟩ := r
    · rfl
    simp only [Thread.run_bind, execLoad_run, bind_assoc, pure_bind]
    refine bind_congr fun r => ?_
    obtain ⟨_ | sz, pd', s'⟩ := r
    · exact Thread.run_atomic _ _ _
    · exact execStack_run path argv _ _ _

theorem wait_run {pid : Int} {s' : Kernel} (rounds : Nat) (h : DemandPaging.wait p s = .ok (some pid, s')) :
    (wait p (rounds + 1)).run s = .ok (pid, s') := by
  rw [wait, Thread.run_bind, Thread.run_atomic, h]
  rfl

end DemandPaging.Threaded

namespace DemandPaging

/-- The call does not end up asleep: only a `wait` for a child that still runs does. -/
def SysCall.Returns : SysCall → Kernel → Prop
  | .wait p, s => ∀ s', DemandPaging.wait p s ≠ .ok (none, s')
  | _, _ => True

/-- A call that is not interrupted does what the sequential model says. -/
theorem SysCall.thread_run {tm : Timing} (htm : tm.rounds = 2) (c : SysCall) (s : Kernel) (h : c.Returns s) :
    (c.thread tm).run s = do return ((), ← c.run s) := by
  cases c with
  | fork p =>
    simp only [thread, run, Thread.run_bind, htm, Threaded.fork_run, bind_assoc, pure_bind]
    rfl
  | exec p path argv =>
    simp only [thread, run, Thread.run_bind, Threaded.exec_run, bind_assoc, pure_bind]
    rfl
  | growproc p n =>
    simp only [thread, run, Thread.run_bind, Threaded.growproc_run, bind_assoc, pure_bind]
    rfl
  | fault p cr2 => exact Threaded.pgfltHandler_run tm htm cr2
  | exit p => exact Thread.run_atomic _ _ _
  | wait p =>
    simp only [thread, run, Thread.run_bind, htm]
    cases hw : DemandPaging.wait p s with
    | error x =>
      rw [Threaded.wait, Thread.run_bind, Thread.run_atomic, hw]
      rfl
    | ok r =>
      obtain ⟨_ | pid, s'⟩ := r
      · exact absurd hw (h s')
      · rw [Threaded.wait_run 1 hw]
        rfl

/-- A process grows by a page. -/
theorem SysCall.thread_run_growproc : ((SysCall.growproc 0 4096).thread ⟨2, fun _ => false⟩).run smallKernel =
    do return ((), ← (SysCall.growproc 0 4096).run smallKernel) :=
  thread_run rfl _ _ trivial

end DemandPaging
