/-
Path names: `namex` is a fold of `dirlookup` over the elements of a path, from the root or from the current
directory, and the only reference that it leaves behind is the one to the inode that it returns.
-/
import DemandPaging.FileSys.Directory
import DemandPaging.FileSys.Refs

namespace DemandPaging.FileSys

open Function Outcome Slots

/-! ## The elements of a path -/

/-- The elements of a path: what lies between slashes, cut after `DIRSIZ` bytes. -/
def parts (path : List UInt8) : List (List UInt8) := ((path.splitOn slash).filter (· ≠ [])).map (·.take dirSiz)

section Parts

variable {path : List UInt8}

@[simp] theorem parts_nil : parts [] = [] := rfl

theorem parts_slash (path : List UInt8) : parts (slash :: path) = parts path := by
  have hsplit : (slash :: path).splitOn slash = [] :: path.splitOn slash := by
    rw [List.splitOn_cons_eq_if_modifyHead, if_pos (by decide)]
  rw [parts, hsplit, List.filter_cons_of_neg (by simp), parts]

theorem parts_dropSlashes : ∀ path : List UInt8, parts (path.dropWhile (· = slash)) = parts path
  | [] => rfl
  | x :: path => by
    by_cases hx : x = slash
    · rw [List.dropWhile_cons_of_pos (by simpa using hx), hx, parts_slash]
      exact parts_dropSlashes path
    · rw [List.dropWhile_cons_of_neg (by simpa using hx)]

/-- The first element of a path that does not start with a slash. -/
theorem parts_first {x : UInt8} (hx : x ≠ slash) (path : List UInt8) :
    parts (x :: path) = ((x :: path).takeWhile (· ≠ slash)).take dirSiz :: parts ((x :: path).dropWhile (· ≠ slash)) := by
  have hmem : slash ∉ (x :: path).takeWhile (· ≠ slash) := by
    intro h
    simpa using List.mem_takeWhile_imp h
  have hne : (x :: path).takeWhile (· ≠ slash) ≠ [] := by
    rw [List.takeWhile_cons_of_pos (by simpa using hx)]
    exact List.cons_ne_nil _ _
  have hsplit : (x :: path).splitOn slash = ((x :: path).takeWhile (· ≠ slash) ++ (x :: path).dropWhile (· ≠ slash)).splitOn slash := by
    rw [List.takeWhile_append_dropWhile]
  rw [parts, hsplit]
  cases hrest : (x :: path).dropWhile (· ≠ slash) with
  | nil => rw [List.append_nil, List.splitOn_eq_singleton hmem, List.filter_cons_of_pos (by simpa using hne)]; rfl
  | cons y rest =>
    have hy : y = slash := by
      have hhead := List.head?_dropWhile_not (fun y => decide (y ≠ slash)) (x :: path)
      rw [hrest] at hhead
      simpa using hhead
    subst hy
    rw [List.splitOn_append_cons_self, List.splitOn_eq_singleton hmem, List.singleton_append,
      List.filter_cons_of_pos (by simpa using hne), List.map_cons, parts_slash]
    rfl

/-- `skipelem` takes the first element off a path. -/
theorem skipelem_some {name rest : List UInt8} (h : skipelem path = some (name, rest)) :
    parts path = name :: parts rest ∧ rest.length < path.length ∧ (rest = [] ↔ parts rest = []) := by
  unfold skipelem at h
  simp only at h
  split at h
  · cases h
  next hne =>
  cases h
  rw [← parts_dropSlashes path]
  cases hdrop : path.dropWhile (· = slash) with
  | nil => exact absurd hdrop hne
  | cons x p =>
    have hx : x ≠ slash := by
      have hhead := List.head?_dropWhile_not (fun y => decide (y = slash)) path
      rw [hdrop] at hhead
      simpa using hhead
    refine ⟨by rw [parts_first hx, parts_dropSlashes], ?_, ?_⟩
    · have h1 := List.length_dropWhile_le (· = slash) ((x :: p).dropWhile (· ≠ slash))
      have h2 := List.length_dropWhile_le (· = slash) path
      have h3 : ((x :: p).dropWhile (· ≠ slash)).length ≤ p.length := by
        rw [List.dropWhile_cons_of_pos (by simpa using hx)]
        exact List.length_dropWhile_le _ _
      rw [hdrop] at h2
      simp only [List.length_cons] at h2
      omega
    · cases hrest : ((x :: p).dropWhile (· ≠ slash)).dropWhile (· = slash) with
      | nil => simp
      | cons y q =>
        have hy : y ≠ slash := by
          have hhead := List.head?_dropWhile_not (fun y => decide (y = slash)) ((x :: p).dropWhile (· ≠ slash))
          rw [hrest] at hhead
          simpa using hhead
        rw [parts_first hy]
        simp

theorem skipelem_none (h : skipelem path = none) : parts path = [] := by
  unfold skipelem at h
  simp only at h
  split at h
  · next hnil => rw [← parts_dropSlashes, hnil, parts_nil]
  · cases h

end Parts

/-! ## The fold -/

section Fold

variable (D : Nat → Dinode) (data : Nat → Block)

/-- One step along a path: the inode that an entry of a directory names. -/
def stepName (n : Nat) (name : List UInt8) : Option Nat :=
  if (D n).type = tDir then (found (dirents (contents data (D n))) name).map (·.2) else none

/-- The inode that a path leads to. -/
def resolve (n : Nat) (ps : List (List UInt8)) : Option Nat := ps.foldlM (stepName D data) n

/-- The directory that a path leads to without its last element, and that element. -/
def resolveParent (n : Nat) (ps : List (List UInt8)) : Option (Nat × List UInt8) :=
  ps.getLast?.bind fun name => (resolve D data n ps.dropLast).bind fun m => if (D m).type = tDir then some (m, name) else none

/-- What `namex` looks for. -/
def target (parent : Bool) (n : Nat) (ps : List (List UInt8)) : Option (Nat × List UInt8) :=
  if parent then resolveParent D data n ps else (resolve D data n ps).map (·, [])

variable {D data} {parent : Bool} {n : Nat} {name : List UInt8} {ps : List (List UInt8)}

theorem target_nil : target D data parent n [] = if parent then none else some (n, []) := by
  cases parent <;> rfl

theorem target_cons : target D data parent n (name :: ps) =
    if (D n).type ≠ tDir then none else if parent = true ∧ ps = [] then some (n, name)
    else (stepName D data n name).bind fun m => target D data parent m ps := by
  have hfold : ∀ qs, resolve D data n (name :: qs) = (stepName D data n name).bind fun m => resolve D data m qs := fun qs =>
    List.foldlM_cons ..
  by_cases hdir : (D n).type = tDir
  · rw [if_neg (not_not.2 hdir)]
    cases parent with
    | false =>
      rw [if_neg (by simp)]
      simp only [target, Bool.false_eq_true, if_false, hfold]
      cases stepName D data n name <;> rfl
    | true =>
      cases ps with
      | nil =>
        rw [if_pos ⟨rfl, rfl⟩]
        simp [target, resolveParent, resolve, hdir]
      | cons q qs =>
        rw [if_neg (by simp)]
        simp only [target, resolveParent, if_true, List.getLast?_cons_cons, List.dropLast_cons_cons, hfold]
        cases stepName D data n name with
        | none => cases (q :: qs).getLast? <;> rfl
        | some m => rfl
  · -- no step leads out of a file
    rw [if_pos hdir]
    have hnone : stepName D data n name = none := if_neg hdir
    cases parent with
    | false =>
      simp only [target, Bool.false_eq_true, if_false, hfold, hnone]
      rfl
    | true =>
      cases ps with
      | nil => simp [target, resolveParent, resolve, hdir]
      | cons q qs =>
        simp only [target, resolveParent, if_true, List.dropLast_cons_cons, hfold, hnone]
        cases (name :: q :: qs).getLast? <;> rfl

end Fold

/-! ## The file system that a path runs through -/

/-- A tree of directories: the entries of a directory name inodes, and the inodes in the cache are those on the disk. Apart from
those of a lookup, the cache has the references `H`; an inode without a name has one. -/
structure Mounted (A : Nat → Prop) (D : Nat → Dinode) (data : Nat → Block) (H : InodeIdx → Nat) (s : Fsys) : Prop extends Owned A D s where
  blocks : s.data = data
  disk : ∀ j, A j → s.dinode j = D j
  typed : ∀ j, A j → (D j).type ≠ 0
  whole : ∀ j, A j → (D j).type = tDir → (D j).size % direntSize = 0
  entries : ∀ j, A j → (D j).type = tDir → ∀ de ∈ dirents (contents data (D j)), de.inum ≠ 0 → A de.inum
  device : ∀ i, 0 < (s.icache i).ref → (s.icache i).dev = rootDev
  inode : ∀ i, 0 < (s.icache i).ref → A (s.icache i).inum
  cached : ∀ i, 0 < (s.icache i).ref → (s.icache i).valid = true → (s.icache i).d = D (s.icache i).inum
  kept : ∀ j, A j → (D j).nlink = 0 → ∃ i, 0 < H i ∧ (s.icache i).inum = j

/-- The panic of `iget` where the cache is full. -/
def NoInodes (H : InodeIdx → Nat) (e : Stuck) : Prop :=
  e = .panic "iget: no inodes" ∧ (Finset.univ.filter fun i => H i = 0).card < 2

section Steps

variable {A : Nat → Prop} {D : Nat → Dinode} {data : Nat → Block} {H K : InodeIdx → Nat} {s : Fsys} {ip : InodeIdx} {n : Nat}
  {name : List UInt8}

/-- A change of one entry of the cache. -/
theorem Mounted.entry (h : Mounted A D data H s) {e : Inode} (hdev : e.dev = rootDev) (hA : A e.inum) (hd : e.valid = true → e.d = D e.inum)
    (hkept : 0 < H ip → e.inum = (s.icache ip).inum) : Mounted A D data H (s.entry ip e) := by
  have hent : ∀ i, (s.entry ip e).icache i = if i = ip then e else s.icache i := fun i => by rw [Fsys.entry_icache, update_apply]
  refine ⟨⟨h.toGeometry.of_eq rfl rfl rfl, h.held, h.shape, h.inodes⟩, h.blocks, h.disk, h.typed, h.whole, h.entries, fun i hi => ?_,
    fun i hi => ?_, fun i hi hv => ?_, fun j hj h0 => ?_⟩
  · rw [hent] at hi ⊢
    split at hi
    · next hip => rw [if_pos hip]; exact hdev
    · next hip => rw [if_neg hip]; exact h.device i hi
  · rw [hent] at hi ⊢
    split at hi
    · next hip => rw [if_pos hip]; exact hA
    · next hip => rw [if_neg hip]; exact h.inode i hi
  · rw [hent] at hi hv ⊢
    split at hi
    · next hip => rw [if_pos hip] at hv ⊢; exact hd hv
    · next hip => rw [if_neg hip] at hv ⊢; exact h.cached i hi hv
  · obtain ⟨i, hi, hij⟩ := h.kept j hj h0
    refine ⟨i, hi, ?_⟩
    rw [hent]
    split
    · next hip =>
      subst hip
      rw [hkept hi, hij]
    · exact hij

theorem iget_mounted (h : Mounted A D data H s) (hr : RefsAre K s) (hHK : ∀ i, 0 < H i → 0 < K i) (hA : A n)
    (hfew : (∀ i, K i ≠ 0) → (Finset.univ.filter fun i => H i = 0).card < 2) :
    Ends (fun p => Mounted A D data H p.2 ∧ RefsAre (K + one p.1) p.2 ∧ (p.2.icache p.1).inum = n) (NoInodes H) (iget rootDev n s) := by
  have hcount := iget_counted rootDev n s hr
  rcases iget_cases rootDev n s with ⟨i, hpos, hdev, hinum, hrun⟩ | ⟨-, hfree⟩
  · rw [hrun] at hcount ⊢
    refine ⟨h.entry hdev ?_ (h.cached i hpos) fun _ => rfl, hcount, by simpa using hinum⟩
    exact h.inode i hpos
  · split at hfree
    · next i _ =>
      rw [hfree.2] at hcount ⊢
      refine ⟨h.entry rfl hA (fun hv => by cases hv) fun hi => ?_, hcount, by simp⟩
      have hpos := hHK i hi
      rw [← hr.ref, hfree.1] at hpos
      exact absurd hpos (lt_irrefl 0)
    · next hnone =>
      rw [hfree]
      refine ⟨rfl, hfew fun i hi => ?_⟩
      have hused := List.find?_eq_none.1 hnone i (List.mem_finRange i)
      rw [hr.ref, hi] at hused
      exact hused rfl

theorem ilock_mounted (h : Mounted A D data H s) (hr : RefsAre K s) (hip : 0 < (s.icache ip).ref) :
    ∃ s', ilock ip s = .ok ((), s') ∧ Mounted A D data H s' ∧ RefsAre K s' ∧ (s'.icache ip).inum = (s.icache ip).inum ∧
      (s'.icache ip).d = D (s.icache ip).inum := by
  have hA := h.inode ip hip
  cases hv : (s.icache ip).valid with
  | true =>
    refine ⟨s, ?_, h, hr, rfl, h.cached ip hip hv⟩
    show (if (s.icache ip).ref < 1 then _ else _ : FsM Unit) s = _
    rw [if_neg (by omega), if_neg (by rw [hv]; simp)]
    rfl
  | false =>
    have hrun := ilock_load hip hv (h.inodes _ hA) (by rw [h.disk _ hA]; exact h.typed _ hA)
    refine ⟨_, hrun, h.entry (h.device ip hip) hA (fun _ => h.disk _ hA) fun _ => rfl, (steady_ilock ip).counted.of_ok hr hrun, ?_, ?_⟩
    · simp
    · simpa using h.disk _ hA

/-- `iput` of a lookup drops its reference and nothing else. -/
theorem iput_mounted (h : Mounted A D data H s) (hr : RefsAre (K + one ip) s) (hHK : ∀ i, 0 < H i → 0 < K i) :
    ∃ s', iput ip s = .ok ((), s') ∧ Mounted A D data H s' ∧ RefsAre K s' ∧ ∀ i, (s'.icache i).inum = (s.icache i).inum := by
  have hpos : 0 < (s.icache ip).ref := by
    rw [hr.ref]
    simp
  have hmore : ¬((s.icache ip).valid = true ∧ (s.icache ip).d.nlink = 0 ∧ (s.icache ip).ref = 1) := by
    rintro ⟨hv, h0, href⟩
    -- an inode without a name is held by somebody else
    rw [h.cached ip hpos hv] at h0
    obtain ⟨i, hi, hinum⟩ := h.kept _ (h.inode ip hpos) h0
    have hi' : 0 < (s.icache i).ref := by
      have := hHK i hi
      rw [hr.ref, Pi.add_apply]
      omega
    have heq : i = ip := hr.uniq i ip hi' hpos ((h.device i hi').trans (h.device ip hpos).symm) hinum
    subst heq
    have := hHK i hi
    rw [hr.ref, Pi.add_apply, one, Pi.single_eq_same] at href
    omega
  have hrun := iput_drop hmore
  refine ⟨_, hrun, h.entry (h.device ip hpos) (h.inode ip hpos) (h.cached ip hpos) fun _ => rfl, (iput_counted ip).of_ok hr hrun, fun i => ?_⟩
  by_cases hi : i = ip
  · subst hi
    simp
  · simp [hi]

theorem found_mem {es : List Dirent} {off m : Nat} (h : found es name = some (off, m)) : ∃ de ∈ es, de.inum = m ∧ m ≠ 0 := by
  obtain ⟨e, hfind, heq⟩ := Option.map_eq_some_iff.1 h
  obtain ⟨de, hde, hkey⟩ := Option.bind_eq_some_iff.1 (find_eq_some_iff.1 hfind).1
  simp only [hde, Option.map_some, Option.getD_some, Prod.mk.injEq] at heq
  refine ⟨de, List.mem_of_getElem? hde, heq.2, ?_⟩
  rintro rfl
  rw [Dirent.key, if_pos heq.2] at hkey
  cases hkey

/-- `dirlookup` makes one step along a path. -/
theorem dirlookup_mounted (h : Mounted A D data H s) (hr : RefsAre K s) (hHK : ∀ i, 0 < H i → 0 < K i) (hip : 0 < (s.icache ip).ref)
    (hd : (s.icache ip).d = D (s.icache ip).inum) (hdir : (D (s.icache ip).inum).type = tDir)
    (hfew : (∀ i, K i ≠ 0) → (Finset.univ.filter fun i => H i = 0).card < 2) :
    Ends (fun p => Mounted A D data H p.2 ∧ RefsAre (K + given Prod.fst p.1) p.2 ∧
      match stepName D data (s.icache ip).inum name with
      | none => p.1 = none
      | some m => ∃ i off, p.1 = some (i, off) ∧ (p.2.icache i).inum = m) (NoInodes H) (dirlookup ip name s) := by
  have hA := h.inode ip hip
  have hdp : Directory A D s ip := ⟨h.toOwned, hA, hd, by rw [hd]; exact hdir, by rw [hd]; exact h.whole _ hA hdir⟩
  have hfinds := hdp.finds name
  have hents : s.dirents ip = dirents (contents data (D (s.icache ip).inum)) := by rw [Fsys.dirents, h.blocks, hd]
  rw [stepName, if_pos hdir, ← hents]
  cases hfound : found (s.dirents ip) name with
  | none =>
    rw [hfound] at hfinds
    rw [show dirlookup ip name s = _ from hfinds]
    exact ⟨h, hr, rfl⟩
  | some p =>
    obtain ⟨off, m⟩ := p
    rw [hfound] at hfinds
    rw [show dirlookup ip name s = _ from hfinds, h.device ip hip]
    obtain ⟨de, hde, rfl, h0⟩ := found_mem hfound
    rw [hents] at hde
    refine (iget_mounted h hr hHK (h.entries _ hA hdir de hde h0) hfew).bind fun p hp => ?_
    exact ⟨hp.1, hp.2.1, p.1, off, rfl, hp.2.2⟩

/-- A lookup that holds one reference fails only where fewer than two entries were free. -/
theorem free_lt_two (hall : ∀ i, (H + one ip) i ≠ 0) : (Finset.univ.filter fun i => H i = 0).card < 2 := by
  have hsub : (Finset.univ.filter fun i => H i = 0) ⊆ {ip} := by
    intro i hi
    rw [Finset.mem_filter] at hi
    rw [Finset.mem_singleton]
    by_contra hne
    exact hall i (by simp [hi.2, hne])
  exact Nat.lt_succ_of_le (Finset.card_le_card hsub)

/-- `namex` has ended as the elements of the path say. -/
def Reached (r : Option (InodeIdx × List UInt8)) (s : Fsys) : Option (Nat × List UInt8) → Prop
  | none => r = none
  | some (m, name) => ∃ i, r = some (i, name) ∧ (s.icache i).inum = m

/-- The loop of `namex`. -/
theorem namexLoop_ok (parent : Bool) : ∀ (fuel : Nat) (ip : InodeIdx) (path : List UInt8) (s : Fsys), path.length < fuel →
    Mounted A D data H s → RefsAre (H + one ip) s →
    Ends (fun p => Mounted A D data H p.2 ∧ RefsAre (H + given Prod.fst p.1) p.2 ∧
      Reached p.1 p.2 (target D data parent (s.icache ip).inum (parts path))) (NoInodes H) (namexLoop parent fuel ip path s)
  | 0, _, _, _, hf, _, _ => absurd hf (Nat.not_lt_zero _)
  | fuel + 1, ip, path, s, hf, h, hr => by
    have hHK : ∀ i, 0 < H i → 0 < (H + one ip) i := fun i hi => by
      rw [Pi.add_apply]
      omega
    have hip : 0 < (s.icache ip).ref := by
      rw [hr.ref]
      simp
    -- the four ways out that drop `ip` and return null
    have hfail : ∀ {s₁ : Fsys}, Mounted A D data H s₁ → RefsAre (H + one ip) s₁ → Ends (fun p => Mounted A D data H p.2 ∧
        RefsAre (H + given Prod.fst p.1) p.2 ∧ Reached p.1 p.2 none) (NoInodes H)
          ((do iput ip; return none : FsM (Option (InodeIdx × List UInt8))) s₁) := by
      intro s₁ h₁ hr₁
      obtain ⟨s₂, hrun, h₂, hr₂, -⟩ := iput_mounted h₁ hr₁ fun i hi => hi
      rw [run_bind hrun]
      exact ⟨h₂, hr₂, rfl⟩
    rw [namexLoop]
    cases hskip : skipelem path with
    | none =>
      rw [skipelem_none hskip, target_nil]
      cases parent with
      | true => exact hfail h hr
      | false => exact ⟨h, hr, ip, rfl, rfl⟩
    | some q =>
      obtain ⟨name, rest⟩ := q
      obtain ⟨hparts, hlen, hrest⟩ := skipelem_some hskip
      obtain ⟨s₁, hlock, h₁, hr₁, hinum, hd⟩ := ilock_mounted h hr hip
      have hip₁ : 0 < (s₁.icache ip).ref := by
        rw [hr₁.ref]
        simp
      simp only
      rw [hparts, target_cons, run_bind hlock]
      show Ends _ _ ((if (s₁.icache ip).d.type ≠ tDir then _ else _ : FsM _) s₁)
      rw [hd]
      by_cases hdir : (D (s.icache ip).inum).type = tDir
      swap
      · rw [if_pos hdir, if_pos hdir]
        exact hfail h₁ hr₁
      rw [if_neg (not_not.2 hdir), if_neg (not_not.2 hdir)]
      by_cases hlast : parent = true ∧ rest = []
      · rw [if_pos hlast, if_pos ⟨hlast.1, hrest.1 hlast.2⟩]
        exact ⟨h₁, hr₁, ip, rfl, hinum⟩
      rw [if_neg hlast, if_neg fun hc => hlast ⟨hc.1, hrest.2 hc.2⟩]
      rw [← hinum] at hd hdir ⊢
      refine (dirlookup_mounted h₁ hr₁ hHK hip₁ hd hdir free_lt_two).bind fun p hp => ?_
      obtain ⟨r, s₂⟩ := p
      obtain ⟨h₂, hr₂, hstep⟩ := hp
      cases hname : stepName D data (s₁.icache ip).inum name with
      | none =>
        rw [hname] at hstep
        obtain rfl : r = none := hstep
        exact hfail h₂ hr₂
      | some m =>
        rw [hname] at hstep
        obtain ⟨next, off, rfl, hm⟩ := hstep
        have hr₂' : RefsAre (H + one next + one ip) s₂ := by
          rw [add_right_comm]
          exact hr₂
        obtain ⟨s₃, hput, h₃, hr₃, hsame⟩ := iput_mounted h₂ hr₂' fun i hi => by
          rw [Pi.add_apply]
          omega
        show Ends _ _ ((iput ip >>= fun _ => namexLoop parent fuel next rest : FsM _) s₂)
        rw [run_bind hput]
        have hloop := namexLoop_ok parent fuel next rest s₃ (by omega) h₃ hr₃
        rw [hsame next, hm] at hloop
        exact hloop

/-- `namex` from the root or from the current directory. -/
theorem namex_ok {cwd : InodeIdx} (parent : Bool) (path : List UInt8) (h : Mounted A D data H s) (hr : RefsAre H s) (hroot : A rootIno)
    (hcwd : 0 < (s.icache cwd).ref) :
    Ends (fun p => Mounted A D data H p.2 ∧ RefsAre (H + given Prod.fst p.1) p.2 ∧
      Reached p.1 p.2 (target D data parent (if path.head? = some slash then rootIno else (s.icache cwd).inum) (parts path))) (NoInodes H)
        (namex cwd path parent s) := by
  unfold namex
  by_cases hslash : path.head? = some slash
  · rw [if_pos hslash, if_pos hslash]
    refine (iget_mounted h hr (fun i hi => hi) hroot fun hall => ?_).bind fun p hp => ?_
    · rw [Finset.filter_false_of_mem fun i _ => hall i]
      decide
    · obtain ⟨h₁, hr₁, hinum⟩ := hp
      rw [← hinum]
      exact namexLoop_ok parent _ p.1 path p.2 (Nat.lt_succ_self _) h₁ hr₁
  · rw [if_neg hslash, if_neg hslash]
    have hr₁ : RefsAre (H + one cwd) (s.entry cwd { s.icache cwd with ref := (s.icache cwd).ref + 1 }) := by
      refine hr.up (by simp) (fun j hj => by simp [hj]) fun j hj hpos hsame => hj ?_
      simp only [Fsys.entry_icache, update_self] at hsame
      exact (hr.uniq cwd j hcwd hpos hsame.1 hsame.2).symm
    have h₁ := Mounted.entry (e := { s.icache cwd with ref := (s.icache cwd).ref + 1 }) h (h.device cwd hcwd) (h.inode cwd hcwd)
      (h.cached cwd hcwd) fun _ => rfl
    have hloop := namexLoop_ok parent (path.length + 1) cwd path _ (Nat.lt_succ_self _) h₁ hr₁
    have hdup : idup cwd s = .ok (cwd, s.entry cwd { s.icache cwd with ref := (s.icache cwd).ref + 1 }) := rfl
    rw [run_bind hdup]
    simpa using hloop

end Steps

/-- The root directory in a cache whose other entries are all in use, for inodes that it does not name. -/
def fullFs : Fsys := { rootFs with
  icache := fun i => if i = 0 then ⟨rootDev, rootIno, 1, true, rootInode⟩ else ⟨rootDev, i + 2, 1, true, emptyFile⟩ }

theorem rootFs_mounted (icache : InodeIdx → Inode) {H : InodeIdx → Nat}
    (h : ∀ i, 0 < (icache i).ref → (icache i).dev = rootDev ∧ (rootIno ≤ (icache i).inum ∧ (icache i).inum ≤ 51) ∧
      (icache i).d = rootFs.dinode (icache i).inum) :
    Mounted (fun j => rootIno ≤ j ∧ j ≤ 51) rootFs.dinode rootFs.data H { rootFs with icache := icache } := by
  have hdir : ∀ j, (rootFs.dinode j).type = tDir → j = rootIno := by
    intro j hj
    by_contra hne
    have : rootFs.dinode j = emptyFile := if_neg hne
    rw [this] at hj
    cases hj
  have htype : ∀ j, (rootFs.dinode j).type ≠ 0 ∧ (rootFs.dinode j).nlink ≠ 0 := by
    intro j
    show (if j = rootIno then rootInode else emptyFile).type ≠ 0 ∧ (if j = rootIno then rootInode else emptyFile).nlink ≠ 0
    split <;> decide
  have hown := rootFs_directory.toOwned
  refine ⟨⟨hown.toGeometry.of_eq rfl rfl rfl, hown.held, hown.shape, hown.inodes⟩, rfl, fun _ _ => rfl, fun j _ => (htype j).1, ?_, ?_,
    fun i hi => (h i hi).1, fun i hi => (h i hi).2.1, fun i hi _ => (h i hi).2.2, fun j _ h0 => absurd h0 (htype j).2⟩
  · intro j _ hj
    rw [hdir j hj]
    rfl
  · intro j _ hj
    rw [hdir j hj]
    have hents : ∀ de ∈ dirents (contents rootFs.data rootInode), rootIno ≤ de.inum ∧ de.inum ≤ 51 := by decide +kernel
    exact fun de hde _ => hents de hde

end DemandPaging.FileSys
