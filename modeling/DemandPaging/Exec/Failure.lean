/-
A failed `exec` and what it has changed by then. The inode is saved before anything about the file
has been checked, the segment and the size before the later checks, and the cleanup drops the LRU
entries and the swap slots of the process: only an `exec` that fails before there is a page directory,
of the file the process runs already, leaves the process as it was.
-/
import DemandPaging.Exec.Image

namespace DemandPaging

/-- The process is as it was before: its address space and its image, its slots and its LRU entries. -/
structure Intact (p : ProcIdx) (s s' : Kernel) : Prop where
  pgdir : (s'.ptable p).pgdir = (s.ptable p).pgdir
  sz : (s'.ptable p).sz = (s.ptable p).sz
  cdbSize : (s'.ptable p).cdbSize = (s.ptable p).cdbSize
  ph : (s'.ptable p).ph = (s.ptable p).ph
  ip : (s'.ptable p).ip = (s.ptable p).ip
  swapList : (s'.ptable p).swapList = (s.ptable p).swapList
  name : (s'.ptable p).name = (s.ptable p).name
  path : (s'.ptable p).path = (s.ptable p).path
  slots : ∀ L, SwapList s.swap (s.ptable p).swapList L → ∀ i ∈ L, s'.swap.bitmap i = s.swap.bitmap i
  entries : ∀ i v, (s'.lru.bitmap i ≠ -1 ∧ s'.lru.entry i = ((s.ptable p).pid, v)) ↔
    (s.lru.bitmap i ≠ -1 ∧ s.lru.entry i = ((s.ptable p).pid, v))

/-- `exec` of the file fails before it has a page directory. -/
def FailsEarly (file : File) (s : Kernel) : Prop :=
  readi file 0 elfHdrSize ≠ some elfHdrSize ∨ (elfHdr file).magic ≠ elfMagic ∨ s.phys.freelist.length < 65

/-- The process has an LRU entry, or a slot in use on its swap list. -/
def Backed (p : ProcIdx) (s : Kernel) : Prop :=
  (∃ i v, s.lru.bitmap i ≠ -1 ∧ s.lru.entry i = ((s.ptable p).pid, v)) ∨
    ∃ L, SwapList s.swap (s.ptable p).swapList L ∧ ∃ i ∈ L, s.swap.bitmap i ≠ -1

/-! ## Where `exec` fails -/

section Exec

variable {s s' : Kernel} {p : ProcIdx} {path : List UInt8} {argv : List (List UInt8)}

/-- What `exec` has not changed of the process when it goes to its cleanup. -/
structure SameOwner (pr old : Proc) : Prop where
  pid : pr.pid = old.pid
  swapList : pr.swapList = old.swapList
  forked : pr.forked = old.forked

theorem execStack_failed {elf : ElfHdr} {pd : PageDir} {c : Nat} (hc : c ≤ kernBase)
    (h : execStack p path argv elf pd c s = .ok (-1, s')) : ∃ pd₁ pr m,
      execBad p pd₁ (s.own p pr m) = .ok (-1, s') ∧ SameOwner pr (s.ptable p) := by
  unfold execStack at h
  dsimp only at h
  obtain ⟨⟨sz, pd₁, t₁⟩, halloc, h⟩ := bind_eq_ok.1 h
  obtain ⟨sz', pd₁', m₁, halloc', -⟩ := allocuvm_blank p pd (pgRoundUp c) (pgRoundUp c + 2 * pgSize)
    (s.setProc p { s.ptable p with cdbSize := c }) (by simp only [pgRoundUp, pgSize, wordSize, kernBase] at *; omega)
  cases halloc'.symm.trans halloc
  dsimp only at h
  split at h
  · exact ⟨pd₁, { s.ptable p with cdbSize := c }, m₁, h, rfl, rfl, rfl⟩
  · obtain ⟨pd₂, -, h⟩ := bind_eq_ok.1 h
    obtain ⟨⟨args, buf⟩, -, h⟩ := bind_eq_ok.1 h
    cases args with
    | none =>
      simp only [Kernel.setProc, Function.update_self, Function.update_idem] at h
      exact ⟨pd₂, { s.ptable p with cdbSize := c, stackBuffer := buf }, m₁, h, rfl, rfl, rfl⟩
    | some x =>
      -- from here on `exec` does not return `-1`
      obtain ⟨buf', -, h⟩ := bind_eq_ok.1 h
      unfold execCommit at h
      split at h
      · cases h
      · obtain ⟨-, -, h⟩ := bind_eq_ok.1 h
        obtain ⟨⟨r', t⟩, -, h⟩ := bind_eq_ok.1 h
        dsimp only at h
        split at h
        · cases h
        · split at h
          · cases h
          · obtain ⟨m, -, h⟩ := bind_eq_ok.1 h
            cases h

/-- The ways in which `exec` fails. -/
theorem exec_failed (h : exec p path argv s = .ok (-1, s')) :
    (s.fs.namei path = none ∧ s' = s) ∨ ∃ ip, s.fs.namei path = some ip ∧
      ((FailsEarly (s.fs.file ip) s ∧ ∃ m, s' = s.own p { s.ptable p with ip := ip } m) ∨
        (¬FailsEarly (s.fs.file ip) s ∧ ∃ pd pr m, execBad p pd (s.own p pr m) = .ok (-1, s') ∧ SameOwner pr (s.ptable p))) := by
  unfold exec at h
  cases hnamei : s.fs.namei path with
  | none =>
    rw [hnamei] at h
    cases h
    exact .inl ⟨rfl, rfl⟩
  | some ip =>
    rw [hnamei] at h
    refine .inr ⟨ip, rfl, ?_⟩
    dsimp only at h
    split at h
    · rename_i hread
      cases h
      exact .inl ⟨.inl hread, s.phys, rfl⟩
    rename_i hread
    split at h
    · rename_i hmagic
      cases h
      exact .inl ⟨.inr (.inl hmagic), s.phys, rfl⟩
    rename_i hmagic
    obtain ⟨⟨d, m₀⟩, hsetup, h⟩ := bind_eq_ok.1 h
    rcases setupkvm_cases (m := s.phys) with ⟨hfew, hnone⟩ | ⟨pd₀, m₀', hlen, hsetup', -⟩
    · obtain rfl := hnone d m₀ hsetup
      cases h
      exact .inl ⟨.inr (.inr hfew), m₀, rfl⟩
    cases hsetup'.symm.trans hsetup
    have hlate : ¬FailsEarly (s.fs.file ip) s := by
      rintro (hc | hc | hc)
      · exact hread hc
      · exact hmagic hc
      · omega
    refine .inr ⟨hlate, ?_⟩
    dsimp only at h
    obtain ⟨⟨sz, pd₁, t₁⟩, hload, h⟩ := bind_eq_ok.1 h
    obtain ⟨sz', pd₁', m₁, ph, hload', -, hl⟩ := execLoad_spec p (s.fs.file ip) (elfHdr (s.fs.file ip)).phnum
      (elfHdr (s.fs.file ip)).phoff 0 pd₀ (s.own p { s.ptable p with ip := ip } m₀) (by decide)
    cases hload'.symm.trans hload
    simp only [Kernel.own_own, Kernel.own_self] at h
    cases sz with
    | none => exact ⟨pd₁, _, m₁, h, rfl, rfl, rfl⟩
    | some c =>
      obtain ⟨pd₂, pr, m₂, hbad, howner⟩ := execStack_failed (hl c rfl).le h
      rw [Kernel.own_own] at hbad
      rw [Kernel.own_self] at howner
      exact ⟨pd₂, pr, m₂, hbad, howner.pid, howner.swapList, howner.forked⟩

/-! ## The cleanup -/

/-- `lru_free` frees a frame of the process when there is one. -/
theorem lruFree_frees {l l' : Lru} {pid : Int} {i : LruIdx} (h : RingOk l) (hi : l.bitmap i ≠ -1) (hpid : (l.frames i).pid = pid)
    (hfree : lruFree pid l = .ok l') : ∃ j, l.bitmap j ≠ -1 ∧ (l.frames j).pid = pid ∧ l'.bitmap j = -1 := by
  obtain ⟨L, hL⟩ := h
  have hiL : i ∈ L := (hL.used i).1 hi
  have hlk : l.lk = false := by
    unfold lruFree at hfree
    cases hh : l.head with
    | none =>
      have hnil : L.head? = none := hL.head.symm.trans hh
      rw [List.head?_eq_none_iff.1 hnil] at hiL
      cases hiL
    | some x =>
      rw [hh] at hfree
      obtain ⟨l₁, hacq, -⟩ := bind_eq_ok.1 hfree
      exact (Lru.acquire_ok hacq).2
  by_cases hone : ∃ x, L = [x] ∧ (l.frames x).pid = pid
  · obtain ⟨x, rfl, hx⟩ := hone
    obtain ⟨l₁, hl₁, -, hb, -⟩ := lruFree_only hL hlk hx
    cases hl₁.symm.trans hfree
    exact ⟨x, (hL.used x).2 (by simp), hx, hb⟩
  · push Not at hone
    obtain ⟨l₁, L', hl₁, hL', -, hent, hres⟩ := lruFree_rep pid hL hlk hone
    cases hl₁.symm.trans hfree
    have hgone : ∀ j, j ∉ L' → l'.bitmap j = -1 := fun j hj => by
      by_contra hc
      exact hj ((hL'.used j).1 hc)
    rcases hres with rfl | ⟨hnil, htwo, x, -, rfl⟩
    · exact ⟨i, hi, hpid, hgone i (by simp [Lru.entry, hpid])⟩
    · -- every frame is the process's and all but one are freed
      obtain ⟨j, hj, hj'⟩ : ∃ j ∈ L, j ∉ [x] := by
        by_contra hc
        push Not at hc
        have := (hL.ring.nodup.subperm hc).length_le
        rw [List.length_singleton] at this
        omega
      have hjp := List.filter_eq_nil_iff.1 hnil j hj
      refine ⟨j, (hL.used j).2 hj, ?_, hgone j hj'⟩
      by_contra hc
      exact hjp (decide_eq_true hc)

/-- `swap_free` takes the list from the process, or a slot in use from the list. -/
theorem swapFree_frees {t t' : Kernel} {pid : Int} {L : List SlotIdx} {i : SlotIdx} (hp : getProc pid t = some p)
    (hL : SwapList t.swap (t.ptable p).swapList L) (hi : i ∈ L) (h : swapFree pid t = .ok t') :
    (t'.ptable p).swapList = none ∨ t'.swap.bitmap i = -1 := by
  rcases swapFree_cases h with ⟨hnone, -⟩ | ⟨q, hq, ⟨-, rfl⟩ | ⟨-, list, sw, hfree, rfl⟩⟩
  · rw [hp] at hnone; cases hnone
  · rw [hp] at hq
    cases hq
    exact .inl (by rw [Kernel.setSwap_ptable, if_pos rfl])
  · rw [hp] at hq
    cases hq
    rw [freeSlots_eq hL (freeSlots_inv hfree).1] at hfree
    cases hfree
    exact .inr (by simp [Kernel.setSwap, Swap.cleared, hi])

/-- The cleanup costs a process its list, a slot or an LRU entry. -/
theorem not_intact_of_execBad {pd : PageDir} {pr : Proc} {m : Phys} (hbad : execBad p pd (s.own p pr m) = .ok (-1, s'))
    (howner : SameOwner pr (s.ptable p)) (hp : getProc (s.ptable p).pid s = some p) (hring : RingOk s.lru)
    (hback : Backed p s) : ¬Intact p s s' := by
  intro hint
  unfold execBad at hbad
  obtain ⟨l, hlru, hbad⟩ := bind_eq_ok.1 hbad
  obtain ⟨t, hswap, hbad⟩ := bind_eq_ok.1 hbad
  obtain ⟨m', -, hbad⟩ := bind_eq_ok.1 hbad
  cases hbad
  simp only [Kernel.own_self, howner.pid] at hlru hswap
  have hlru' : t.lru = l := by
    rcases swapFree_cases hswap with ⟨-, rfl⟩ | ⟨q, -, ⟨-, rfl⟩ | ⟨-, list, sw, -, rfl⟩⟩ <;> rfl
  rcases hback with ⟨i, v, hi, he⟩ | ⟨L, hL, i, hi, hb⟩
  · obtain ⟨j, hj, hjp, hjl⟩ := lruFree_frees hring hi (congrArg Prod.fst he) hlru
    have hent : s.lru.entry j = ((s.ptable p).pid, (s.lru.frames j).vaddr) := by rw [Lru.entry, hjp]
    refine ((hint.entries j _).2 ⟨hj, hent⟩).1 ?_
    show t.lru.bitmap j = -1
    rw [hlru']
    exact hjl
  · have hget : getProc (s.ptable p).pid { s.own p pr m with lru := l } = some p := by
      rw [← hp]
      refine getProc_congr _ _ (fun q => ?_) _
      by_cases hq : q = p
      · subst hq; simp [Kernel.own, howner.pid]
      · simp [Kernel.own, hq]
    have hL' : SwapList s.swap ((s.own p pr m).ptable p).swapList L := by
      rw [Kernel.own_self, howner.swapList]
      exact hL
    rcases swapFree_frees hget hL' hi hswap with hnone | hclear
    · have hlist : (s.ptable p).swapList = none := hint.swapList.symm.trans hnone
      rw [hlist] at hL
      rw [Chain.path_none.1 hL] at hi
      cases hi
    · exact hb ((hint.slots L hL i hi).symm.trans hclear)

end Exec

/-! ## The process after a failure -/

/-- A failed `exec` that finds no file, or that fails before it has a page directory for the file the
process runs already, leaves the process intact; and for a process with an LRU entry or a slot in use
these are the only ones. -/
theorem exec_failed_intact {s s' : Kernel} {p : ProcIdx} {path : List UInt8} {argv : List (List UInt8)}
    (hexec : exec p path argv s = .ok (-1, s')) (hp : getProc (s.ptable p).pid s = some p) (hring : RingOk s.lru) :
    ((s.fs.namei path = none ∨ s.fs.namei path = some (s.ptable p).ip ∧ FailsEarly (s.fs.file (s.ptable p).ip) s) →
      Intact p s s') ∧
    (Backed p s → Intact p s s' →
      s.fs.namei path = none ∨ s.fs.namei path = some (s.ptable p).ip ∧ FailsEarly (s.fs.file (s.ptable p).ip) s) := by
  rcases exec_failed hexec with ⟨hnone, rfl⟩ | ⟨ip, hip, ⟨hearly, m, rfl⟩ | ⟨hlate, pd, pr, m, hbad, howner⟩⟩
  · refine ⟨fun _ => ?_, fun _ _ => .inl hnone⟩
    exact ⟨rfl, rfl, rfl, rfl, rfl, rfl, rfl, rfl, fun _ _ _ _ => rfl, fun _ _ => Iff.rfl⟩
  · constructor
    · rintro (hnone | ⟨hsame, -⟩)
      · rw [hip] at hnone; cases hnone
      · rw [hip] at hsame
        cases hsame
        have hself : (s.own p { s.ptable p with ip := (s.ptable p).ip } m).ptable p = s.ptable p := by simp
        refine ⟨?_, ?_, ?_, ?_, ?_, ?_, ?_, ?_, fun _ _ _ _ => rfl, fun _ _ => Iff.rfl⟩ <;> rw [hself]
    · intro _ hint
      have hsame : ip = (s.ptable p).ip := by simpa using hint.ip
      rw [← hsame]
      exact .inr ⟨hip, hearly⟩
  · constructor
    · rintro (hnone | ⟨hsame, hearly⟩)
      · rw [hip] at hnone; cases hnone
      · rw [hip] at hsame
        cases hsame
        exact absurd hearly hlate
    · intro hback hint
      exact absurd hint (not_intact_of_execBad hbad howner hp hring hback)

/-- A path that names nothing. -/
theorem exec_failed_intact_small : ∃ s', exec 0 [] [] smallKernel = .ok (-1, s') ∧ Intact 0 smallKernel s' := by
  have hp : getProc (smallKernel.ptable 0).pid smallKernel = some 0 := by
    unfold getProc
    exact Fin.find?_eq_some_iff.2 ⟨by simp, by simp⟩
  have hexec : exec 0 [] [] smallKernel = .ok (-1, smallKernel) := rfl
  exact ⟨smallKernel, hexec, (exec_failed_intact hexec hp ⟨[], lruInit_rep⟩).1 (.inl rfl)⟩

/-- One file, of zeros only. -/
def textKernel : Kernel :=
  { smallKernel with fs := ⟨fun _ => some ⟨1, 2⟩, fun _ => ⟨64, fun _ => 0, by decide⟩⟩ }

/-- `exec` of a file that is no executable: the process is left with the inode of that file. -/
theorem exec_failed_not_intact : ∃ s', exec 0 [0x66] [] textKernel = .ok (-1, s') ∧ (textKernel.ptable 0).ip = ⟨0, 0⟩ ∧
    (s'.ptable 0).ip = ⟨1, 2⟩ ∧ ¬Intact 0 textKernel s' := by
  refine ⟨textKernel.setProc 0 { textKernel.ptable 0 with ip := ⟨1, 2⟩ }, rfl, rfl, rfl, fun hint => ?_⟩
  exact absurd hint.ip (by decide)

end DemandPaging
