/-
Reference counts of the inode cache. Apart from `iget`, `idup` and `iput` nothing in `fs.c` changes
which inode an entry is for or how often it is referred to; each lookup gives the caller one
reference and keeps none, on whichever way it ends.
-/
import DemandPaging.FileSys.Calls
import DemandPaging.FileSys.Cache
import DemandPaging.Lib.Triple

namespace DemandPaging.FileSys

open Function Outcome

/-! ## What keeps the entries -/

/-- A computation that keeps the device, the inode number and the reference count of each entry. -/
def Steady {α : Type} (x : FsM α) : Prop :=
  ∀ ⦃s a s'⦄, x s = .ok (a, s') → ∀ i, (s'.icache i).ref = (s.icache i).ref ∧ (s'.icache i).dev = (s.icache i).dev ∧
    (s'.icache i).inum = (s.icache i).inum

namespace Steady

variable {α β : Type}

theorem bind {x : FsM α} {f : α → FsM β} (hx : Steady x) (hf : ∀ a, Steady (f a)) : Steady (x >>= f) := by
  intro s b s' h i
  obtain ⟨a, s₁, h1, h2⟩ := bind_ok.1 h
  obtain ⟨r, d, n⟩ := hx h1 i
  obtain ⟨r', d', n'⟩ := hf a h2 i
  exact ⟨r'.trans r, d'.trans d, n'.trans n⟩

theorem get_bind {g : Fsys → FsM β} (hg : ∀ s, Steady (g s)) : Steady (get >>= g) := fun s _ _ h => hg s h

theorem pure (a : α) : Steady (pure a : FsM α) := fun s b s' h i => by
  cases h
  exact ⟨rfl, rfl, rfl⟩

theorem stuck (msg : String) : Steady (stuck msg : FsM α) := fun s b s' h => by cases h

theorem diverge : Steady (fun _ => .error .diverge : FsM α) := fun s b s' h => by cases h

/-- A change of the disk. -/
theorem disk {g : Fsys → Fsys} (hg : ∀ s, (g s).icache = s.icache) : Steady (modify g : FsM Unit) := fun s b s' h i => by
  cases h
  rw [hg]
  exact ⟨rfl, rfl, rfl⟩

theorem setInode (i : InodeIdx) {g : Inode → Inode} (hg : ∀ ip, (g ip).ref = ip.ref ∧ (g ip).dev = ip.dev ∧ (g ip).inum = ip.inum) :
    Steady (setInode i g) := fun s b s' h j => by
  cases h
  by_cases hj : j = i
  · rw [hj]
    simp only [update_self]
    exact hg _
  · simp only [update_of_ne hj]
    exact ⟨trivial, trivial, trivial⟩

end Steady

theorem steady_setDinode (i : InodeIdx) (g : Dinode → Dinode) : Steady (setDinode i g) := .setInode i fun _ => ⟨rfl, rfl, rfl⟩

theorem steady_access (b : Nat) : Steady (access b) := fun s a s' h i => by
  unfold access at h
  split at h
  · cases h
    exact ⟨rfl, rfl, rfl⟩
  · cases h

theorem steady_bread (b : Nat) : Steady (bread b) := (steady_access b).bind fun _ => .get_bind fun _ => .pure _

theorem steady_bput (b : Nat) (v : Block) : Steady (bput b v) := .disk fun _ => rfl

theorem steady_balloc : Steady balloc := .get_bind fun s => by
  split
  · exact .stuck _
  · exact (steady_access _).bind fun _ => .bind (.disk fun _ => rfl) fun _ =>
      .bind ((steady_access _).bind fun _ => steady_bput ..) fun _ => .pure _

theorem steady_bfree (b : Nat) : Steady (bfree b) := .get_bind fun s => (steady_access _).bind fun _ => by
  dsimp only
  split
  · exact (Steady.stuck _).bind fun _ => .disk fun _ => rfl
  · exact .disk fun _ => rfl

theorem steady_iupdate (i : InodeIdx) : Steady (iupdate i) := .get_bind fun _ => (steady_access _).bind fun _ => .disk fun _ => rfl

theorem steady_setUpdate (i : InodeIdx) (g : Dinode → Dinode) : Steady (setUpdate i g) :=
  (steady_setDinode i g).bind fun _ => steady_iupdate i

theorem steady_ilock (i : InodeIdx) : Steady (ilock i) := .get_bind fun s => by
  have hload : Steady (if (s.icache i).valid = false then do
      access (s.sb.iblock (s.icache i).inum)
      setInode i fun ip => { ip with d := s.dinode ip.inum, valid := true }
      if (s.dinode (s.icache i).inum).type = 0 then stuck "ilock: no type" else pure ()
    else pure () : FsM Unit) := by
    split
    · refine (steady_access _).bind fun _ => .bind (.setInode i fun _ => ⟨rfl, rfl, rfl⟩) fun _ => ?_
      split
      · exact .stuck _
      · exact .pure _
    · exact .pure _
  dsimp only
  split
  · exact (Steady.stuck _).bind fun _ => hload
  · exact hload

theorem steady_bmapDirect (i : InodeIdx) (k : Fin (nDirect + 1)) : Steady (bmapDirect i k) := .get_bind fun s => by
  dsimp only
  split
  · exact .pure _
  · exact steady_balloc.bind fun _ => (steady_setDinode ..).bind fun _ => .pure _

theorem steady_bmapEntry (ind bn : Nat) : Steady (bmapEntry ind bn) := (steady_bread ind).bind fun a => by
  split
  · exact .pure _
  · exact steady_balloc.bind fun _ => .bind (.disk fun _ => rfl) fun _ => .pure _

theorem steady_bmap (i : InodeIdx) (bn : Nat) : Steady (bmap i bn) := by
  unfold bmap
  split
  · exact steady_bmapDirect ..
  · split
    · exact (steady_bmapDirect ..).bind fun _ => steady_bmapEntry ..
    · exact .stuck _

theorem steady_bfreeAll : ∀ bs : List Nat, Steady (bfreeAll bs)
  | [] => .pure _
  | b :: bs => by
    unfold bfreeAll
    dsimp only
    split
    · exact (steady_bfree b).bind fun _ => steady_bfreeAll bs
    · exact steady_bfreeAll bs

theorem steady_itrunc (i : InodeIdx) : Steady (itrunc i) := .get_bind fun s => by
  have hend : Steady (do setDinode i fun d => { d with size := 0, addrs := fun _ => 0 }; iupdate i : FsM Unit) := steady_setUpdate ..
  refine (steady_bfreeAll _).bind fun _ => ?_
  dsimp only
  split
  · exact (steady_bread _).bind fun _ => (steady_bfreeAll _).bind fun _ => (steady_bfree _).bind fun _ => hend
  · exact hend

theorem steady_readLoop (i : InodeIdx) : ∀ fuel off n, Steady (readLoop i fuel off n)
  | _, _, 0 => by unfold readLoop; exact .pure _
  | 0, _, _ + 1 => .diverge
  | fuel + 1, off, n + 1 => by
    simp only [readLoop]
    exact (steady_bmap ..).bind fun _ => (steady_bread _).bind fun _ => (steady_readLoop i fuel _ _).bind fun _ => .pure _

theorem steady_readi (i : InodeIdx) (off n : Nat) : Steady (readi i off n) := .get_bind fun s => by
  dsimp only
  split
  · exact .pure _
  · exact (steady_readLoop ..).bind fun _ => .pure _

theorem steady_writeLoop (i : InodeIdx) : ∀ fuel off src, Steady (writeLoop i fuel off src)
  | _, _, [] => by unfold writeLoop; exact .pure _
  | 0, _, _ :: _ => .diverge
  | fuel + 1, off, a :: src => by
    simp only [writeLoop]
    exact (steady_bmap ..).bind fun _ => (steady_bread _).bind fun _ => (steady_bput ..).bind fun _ => steady_writeLoop i fuel _ _

theorem steady_writei (i : InodeIdx) (src : List UInt8) (off : Nat) : Steady (writei i src off) := .get_bind fun s => by
  dsimp only
  split
  · exact .pure _
  split
  · exact .pure _
  refine (steady_writeLoop ..).bind fun _ => ?_
  split
  · exact (steady_setDinode ..).bind fun _ => (steady_iupdate i).bind fun _ => .pure _
  · exact .pure _

theorem steady_readInode (i : InodeIdx) (off n : Nat) (dev : Option (List UInt8)) : Steady (readInode i off n dev) :=
  .get_bind fun s => by
    dsimp only
    split
    · exact .pure _
    · exact steady_readi ..

theorem steady_writeInode (i : InodeIdx) (src : List UInt8) (off : Nat) (dev : Option Nat) : Steady (writeInode i src off dev) :=
  .get_bind fun s => by
    dsimp only
    split
    · exact .pure _
    · exact steady_writei ..

theorem steady_readEntry (i : InodeIdx) (off : Nat) (msg : String) : Steady (readEntry i off msg) := (steady_readi ..).bind fun r => by
  split
  · split
    · exact .pure _
    · exact .stuck _
  · exact .stuck _

theorem steady_lookupLoop (i : InodeIdx) (name : List UInt8) : ∀ n off, Steady (lookupLoop i name n off)
  | 0, _ => .pure _
  | n + 1, off => .get_bind fun s => by
    split
    · exact .pure _
    · refine (steady_readEntry ..).bind fun de => ?_
      split
      · exact .pure _
      · exact steady_lookupLoop i name n _

theorem steady_freeLoop (i : InodeIdx) : ∀ n off, Steady (freeLoop i n off)
  | 0, _ => .pure _
  | n + 1, off => .get_bind fun s => by
    split
    · exact .pure _
    · refine (steady_readEntry ..).bind fun de => ?_
      split
      · exact .pure _
      · exact steady_freeLoop i n _

theorem steady_emptyLoop (i : InodeIdx) : ∀ n off, Steady (emptyLoop i n off)
  | 0, _ => .pure _
  | n + 1, off => .get_bind fun s => by
    split
    · exact .pure _
    · refine (steady_readEntry ..).bind fun de => ?_
      split
      · exact .pure _
      · exact steady_emptyLoop i n _

theorem steady_isdirempty (i : InodeIdx) : Steady (isdirempty i) := .get_bind fun _ => steady_emptyLoop ..

theorem steady_execReads (i : InodeIdx) (dev : Option (List UInt8)) : ∀ rs, Steady (execReads i dev rs)
  | [] => .pure _
  | _ :: rs => (steady_readInode ..).bind fun _ => steady_execReads i dev rs

/-! ## References -/

/-- Each inode has one entry at most, and the entries are referred to as `H` says. -/
structure RefsAre (H : InodeIdx → Nat) (s : Fsys) : Prop where
  uniq : ∀ i j, 0 < (s.icache i).ref → 0 < (s.icache j).ref → (s.icache i).dev = (s.icache j).dev →
    (s.icache i).inum = (s.icache j).inum → i = j
  ref : ∀ i, (s.icache i).ref = H i

/-- A computation that starts with the references `H` and ends with the references `K`. -/
abbrev Counted {α : Type} (H : InodeIdx → Nat) (x : FsM α) (K : α → InodeIdx → Nat) : Prop :=
  Triple (fun _ => True) (RefsAre H) x fun a => RefsAre (K a)

/-- One reference to an entry. -/
abbrev one (i : InodeIdx) : InodeIdx → Nat := Pi.single i 1

/-- The reference that a lookup gives to its caller. -/
def given {α : Type} (f : α → InodeIdx) : Option α → InodeIdx → Nat
  | some a => one (f a)
  | none => 0

variable {H : InodeIdx → Nat}

theorem Steady.counted {α : Type} {x : FsM α} (hx : Steady x) : Counted H x fun _ => H := fun s hs => by
  cases hr : x s with
  | error e => trivial
  | ok p =>
    obtain ⟨a, s'⟩ := p
    have hkeep := hx hr
    refine ⟨fun i j hi hj hd hn => ?_, fun i => (hkeep i).1.trans (hs.ref i)⟩
    rw [(hkeep i).1] at hi
    rw [(hkeep j).1] at hj
    rw [(hkeep i).2.1, (hkeep j).2.1] at hd
    rw [(hkeep i).2.2, (hkeep j).2.2] at hn
    exact hs.uniq i j hi hj hd hn

/-- An entry gets one more reference. -/
theorem RefsAre.up {s s' : Fsys} {i : InodeIdx} (h : RefsAre H s) (hi : (s'.icache i).ref = (s.icache i).ref + 1)
    (hj : ∀ j, j ≠ i → s'.icache j = s.icache j)
    (huniq : ∀ j, j ≠ i → 0 < (s.icache j).ref → ¬((s'.icache i).dev = (s.icache j).dev ∧ (s'.icache i).inum = (s.icache j).inum)) :
    RefsAre (H + one i) s' := by
  refine ⟨fun a b ha hb hd hn => ?_, fun a => ?_⟩
  · by_cases ha' : a = i <;> by_cases hb' : b = i
    · rw [ha', hb']
    · rw [hj b hb'] at hb hd hn
      rw [ha'] at hd hn
      exact absurd ⟨hd, hn⟩ (huniq b hb' hb)
    · rw [hj a ha'] at ha hd hn
      rw [hb'] at hd hn
      exact absurd ⟨hd.symm, hn.symm⟩ (huniq a ha' ha)
    · rw [hj a ha'] at ha hd hn
      rw [hj b hb'] at hb hd hn
      exact h.uniq a b ha hb hd hn
  · by_cases ha : a = i
    · rw [ha, hi, h.ref]
      simp
    · rw [hj a ha, h.ref]
      simp [ha]

theorem iget_counted (dev inum : Nat) : Counted H (iget dev inum) fun i => H + one i := fun s hs => by
  rcases iget_cases dev inum s with ⟨i, hpos, hd, hn, hrun⟩ | ⟨hmiss, hfree⟩
  · rw [hrun]
    refine hs.up (i := i) (by simp) (fun j hj => by simp [hj]) fun j hj hpos' hsame => hj ?_
    simp only [Fsys.entry_icache, update_self] at hsame
    exact (hs.uniq i j hpos hpos' hsame.1 hsame.2).symm
  · split at hfree
    · next i _ =>
      rw [hfree.2]
      refine hs.up (i := i) (by simp [hfree.1]) (fun j hj => by simp [hj]) fun j hj hpos hsame => hmiss j hpos ?_
      simp only [Fsys.entry_icache, update_self] at hsame
      exact ⟨hsame.1.symm, hsame.2.symm⟩
    · rw [hfree]
      trivial

theorem idup_counted (i : InodeIdx) : Counted (H + one i) (idup i) fun j => H + one i + one j := fun s hs => by
  refine hs.up (i := i) (by simp) (fun j hj => by simp [hj]) fun j hj hpos hsame => hj ?_
  simp only [update_self] at hsame
  have hi : 0 < (s.icache i).ref := by rw [hs.ref]; simp
  exact (hs.uniq i j hi hpos hsame.1 hsame.2).symm

theorem iput_counted (i : InodeIdx) : Counted (H + one i) (iput i) fun _ => H := by
  have hdrop : Counted (H + one i) (setInode i fun ip => { ip with ref := ip.ref - 1 }) fun _ => H := fun s hs => by
    have href : ∀ j, (update s.icache i { s.icache i with ref := (s.icache i).ref - 1 } j).ref = H j := fun j => by
      have := hs.ref j
      by_cases hj : j = i
      · subst hj
        simp only [update_self, Pi.add_apply, Pi.single_eq_same] at this ⊢
        omega
      · simpa [hj] using this
    have hkey : ∀ j, (update s.icache i { s.icache i with ref := (s.icache i).ref - 1 } j).dev = (s.icache j).dev ∧
        (update s.icache i { s.icache i with ref := (s.icache i).ref - 1 } j).inum = (s.icache j).inum := fun j => by
      by_cases hj : j = i
      · subst hj; simp
      · simp [hj]
    have hpos : ∀ j, 0 < H j → 0 < (s.icache j).ref := fun j hj => by
      rw [hs.ref, Pi.add_apply]
      omega
    refine ⟨fun a b ha hb hd hn => ?_, href⟩
    rw [href] at ha hb
    rw [(hkey a).1, (hkey b).1] at hd
    rw [(hkey a).2, (hkey b).2] at hn
    exact hs.uniq a b (hpos a ha) (hpos b hb) hd hn
  refine fun s hs => ?_
  show Ends _ _ ((if _ then _ else _ : FsM Unit) s)
  refine Triple.ite (fun _ => ?_) (fun _ => hdrop) s hs
  exact (steady_itrunc i).counted.bind fun _ => (steady_setDinode i _).counted.bind fun _ => (steady_iupdate i).counted.bind fun _ =>
    .bind (Steady.counted (.setInode i fun _ => ⟨rfl, rfl, rfl⟩)) fun _ => hdrop

/-! ## Lookups -/

theorem dirlookup_counted (dp : InodeIdx) (name : List UInt8) :
    Counted H (dirlookup dp name) fun r => H + given Prod.fst r := Triple.get_any fun s => by
  dsimp only
  split
  · exact fun _ _ => trivial
  · refine (steady_lookupLoop dp name _ _).counted.bind fun r => ?_
    split
    · exact (iget_counted _ _).bind fun i => .pure fun _ h => h
    · exact .pure fun _ h => h

theorem dirlink_counted (dp : InodeIdx) (name : List UInt8) (inum : Nat) : Counted H (dirlink dp name inum) fun _ => H := by
  refine (dirlookup_counted dp name).bind fun r => ?_
  split
  · exact (iput_counted _).bind fun _ => .pure fun _ h => h
  · refine Triple.get_any fun s => (steady_freeLoop dp _ _).counted.bind fun off => (steady_writei dp _ off).counted.bind fun r => ?_
    split
    · exact .ite (fun _ => .pure fun _ h => h) fun _ _ _ => trivial
    · exact fun _ _ => trivial

theorem namexLoop_counted (parent : Bool) : ∀ (fuel : Nat) (ip : InodeIdx) (path : List UInt8),
    Counted (H + one ip) (namexLoop parent fuel ip path) fun r => H + given Prod.fst r
  | 0, _, _ => fun _ _ => trivial
  | fuel + 1, ip, path => by
    have hfail : Counted (H + one ip) (do iput ip; return none : FsM (Option (InodeIdx × List UInt8))) fun r => H + given Prod.fst r :=
      (iput_counted ip).bind fun _ => .pure fun _ h => h
    rw [namexLoop]
    split
    · exact .ite (fun _ => hfail) fun _ => .pure fun _ h => h
    · next name rest _ =>
      refine (steady_ilock ip).counted.bind fun _ => Triple.get_any fun s => ?_
      refine .ite (fun _ => hfail) fun _ => .ite (fun _ => .pure fun _ h => h) fun _ => ?_
      refine (dirlookup_counted ip name).bind fun r => ?_
      split
      · exact hfail
      · next next off =>
        have hput : Counted (H + one next + one ip) (iput ip) fun _ => H + one next := iput_counted ip
        refine Triple.bind (hput.pre fun s h => ?_) fun _ => namexLoop_counted parent fuel next rest
        have h' : RefsAre (H + one ip + one next) s := h
        rwa [add_right_comm] at h'

theorem namex_counted (cwd : InodeIdx) (path : List UInt8) (parent : Bool) :
    Counted (H + one cwd) (namex cwd path parent) fun r => H + one cwd + given Prod.fst r := by
  unfold namex
  split
  · exact (iget_counted _ _).bind fun ip => namexLoop_counted parent _ ip path
  · exact (idup_counted cwd).bind fun ip => namexLoop_counted parent _ ip path

theorem namei_counted (cwd : InodeIdx) (path : List UInt8) :
    Counted (H + one cwd) (namei cwd path) fun r => H + one cwd + given id r :=
  (namex_counted cwd path false).bind fun r => .pure fun s h => by cases r <;> exact h

/-! ## Calls -/

/-- Of two references the first one is dropped. -/
theorem iput_counted_left (i j : InodeIdx) : Counted (H + one i + one j) (iput i) fun _ => H + one j := by
  rw [add_right_comm]
  exact iput_counted i

theorem ialloc_counted (dev type : Nat) : Counted H (ialloc dev type) fun ip => H + one ip := Triple.get_any fun s => by
  split
  · exact fun _ _ => trivial
  · exact (steady_access _).counted.bind fun _ => .bind (Steady.counted (.disk fun _ => rfl)) fun _ => iget_counted _ _

theorem mustLink_counted (dp : InodeIdx) (name : List UInt8) (inum : Nat) (msg : String) :
    Counted H (mustLink dp name inum msg) fun _ => H :=
  (dirlink_counted dp name inum).bind fun _ => .ite (fun _ => .pure fun _ h => h) fun _ _ _ => trivial

theorem createDots_counted (dp ip : InodeIdx) : Counted H (createDots dp ip) fun _ => H :=
  (steady_setUpdate dp _).counted.bind fun _ => Triple.get_any fun _ => (mustLink_counted _ _ _ _).bind fun _ =>
    Triple.get_any fun _ => mustLink_counted _ _ _ _

theorem createNew_counted (dp : InodeIdx) (name : List UInt8) (type : Nat) (major minor : Int) :
    Counted (H + one dp) (createNew dp name type major minor) fun ip => H + one ip := by
  refine Triple.get_any fun _ => (ialloc_counted _ type).bind fun ip => (steady_ilock ip).counted.bind fun _ =>
    (steady_setUpdate ip _).counted.bind fun _ => ?_
  have hend : Counted (H + one dp + one ip) (do
      mustLink dp name ((← get).icache ip).inum "create: dirlink"
      iput dp
      return ip : FsM InodeIdx) fun ip => H + one ip :=
    Triple.get_any fun _ => (mustLink_counted _ _ _ _).bind fun _ => (iput_counted_left dp ip).bind fun _ => .pure fun _ h => h
  split
  · exact (createDots_counted dp ip).bind fun _ => hend
  · exact hend

theorem createOld_counted (dp ip : InodeIdx) (type : Nat) :
    Counted (H + one dp + one ip) (createOld dp ip type) fun r => H + given id r :=
  (iput_counted_left dp ip).bind fun _ => (steady_ilock ip).counted.bind fun _ => Triple.get_any fun _ =>
    .ite (fun _ => .pure fun _ h => h) fun _ => (iput_counted ip).bind fun _ => .pure fun _ h => h

theorem create_counted (cwd : InodeIdx) (path : List UInt8) (type : Nat) (major minor : Int) :
    Counted (H + one cwd) (create cwd path type major minor) fun r => H + one cwd + given id r := by
  refine (namex_counted cwd path true).bind fun r => ?_
  split
  · exact .pure fun _ h => h
  · next dp name =>
    refine (steady_ilock dp).counted.bind fun _ => (dirlookup_counted dp name).bind fun r => ?_
    split
    · exact createOld_counted dp _ type
    · exact (createNew_counted dp name type major minor).bind fun _ => .pure fun _ h => h

theorem linkUndo_counted (ip : InodeIdx) : Counted (H + one ip) (linkUndo ip) fun _ => H :=
  (steady_ilock ip).counted.bind fun _ => (steady_setUpdate ip _).counted.bind fun _ => iput_counted ip

theorem linkTo_counted (cwd ip : InodeIdx) (new : List UInt8) :
    Counted (H + one cwd + one ip) (linkTo cwd ip new) fun _ => H + one cwd := by
  rw [add_right_comm]
  refine (namex_counted cwd new true).bind fun r => ?_
  split
  · exact (linkUndo_counted ip).pre fun s h => by rwa [add_right_comm]
  · next dp name =>
    have hundo : Counted (H + one ip + one cwd + one dp) (do iput dp; linkUndo ip : FsM Unit) fun _ => H + one cwd := by
      rw [add_right_comm H]
      exact (iput_counted dp).bind fun _ => linkUndo_counted ip
    refine (steady_ilock dp).counted.bind fun _ => Triple.get_any fun s => ?_
    refine .ite (fun _ => hundo) fun _ => (dirlink_counted _ _ _).bind fun _ => .ite (fun _ => ?_) fun _ => hundo
    exact (iput_counted dp).bind fun _ => (iput_counted ip).pre fun s h => by rwa [add_right_comm]

theorem link_counted (cwd : InodeIdx) (old new : List UInt8) : Counted (H + one cwd) (link cwd old new) fun _ => H + one cwd := by
  refine (namei_counted cwd old).bind fun r => ?_
  split
  · exact .pure fun _ h => h
  · next ip =>
    refine (steady_ilock ip).counted.bind fun _ => Triple.get_any fun s => .ite (fun _ => iput_counted ip) fun _ => ?_
    exact (steady_setUpdate ip _).counted.bind fun _ => linkTo_counted cwd ip new

theorem unlinkAt_counted (dp ip : InodeIdx) (off : Nat) : Counted (H + one dp + one ip) (unlinkAt dp ip off) fun _ => H := by
  refine (steady_writei dp _ off).counted.bind fun r => ?_
  split
  · exact fun _ _ => trivial
  · refine .ite (fun _ _ _ => trivial) fun _ => Triple.get_any fun s => ?_
    have hend : Counted (H + one dp + one ip) (do
        iput dp
        setUpdate ip fun d => { d with nlink := short (d.nlink - 1) }
        iput ip : FsM Unit) fun _ => H :=
      (iput_counted_left dp ip).bind fun _ => (steady_setUpdate ip _).counted.bind fun _ => iput_counted ip
    split
    · exact (steady_setUpdate dp _).counted.bind fun _ => hend
    · exact hend

theorem unlinkFound_counted (dp ip : InodeIdx) (off : Nat) : Counted (H + one dp + one ip) (unlinkFound dp ip off) fun _ => H := by
  refine (steady_ilock ip).counted.bind fun _ => Triple.get_any fun s => .ite (fun _ _ _ => trivial) fun _ => ?_
  have hend : ∀ keep : Bool, Counted (H + one dp + one ip) (if keep then do iput ip; iput dp else unlinkAt dp ip off : FsM Unit)
      fun _ => H := fun keep =>
    .ite (fun _ => (iput_counted ip).bind fun _ => iput_counted dp) fun _ => unlinkAt_counted dp ip off
  split
  · exact Triple.bind ((steady_isdirempty ip).bind fun _ => .pure _).counted fun keep => hend keep
  · exact .bind (.pure fun _ h => h) fun keep => hend keep

theorem unlink_counted (cwd : InodeIdx) (path : List UInt8) : Counted (H + one cwd) (unlink cwd path) fun _ => H + one cwd := by
  refine (namex_counted cwd path true).bind fun r => ?_
  split
  · exact .pure fun _ h => h
  · next dp name =>
    refine (steady_ilock dp).counted.bind fun _ => .ite (fun _ => iput_counted dp) fun _ => (dirlookup_counted dp name).bind fun r => ?_
    split
    · exact iput_counted dp
    · exact unlinkFound_counted dp _ _

theorem openInode_counted (cwd : InodeIdx) (path : List UInt8) (omode : Nat) :
    Counted (H + one cwd) (openInode cwd path omode) fun r => H + one cwd + given id r := by
  refine .ite (fun _ => create_counted cwd path _ _ _) fun _ => (namei_counted cwd path).bind fun r => ?_
  split
  · exact .pure fun _ h => h
  · next ip =>
    refine (steady_ilock ip).counted.bind fun _ => Triple.get_any fun s => .ite (fun _ => ?_) fun _ => .pure fun _ h => h
    exact (iput_counted ip).bind fun _ => .pure fun _ h => h

theorem chdirInode_counted (cwd : InodeIdx) (path : List UInt8) :
    Counted (H + one cwd) (chdirInode cwd path) fun r => H + one (r.getD cwd) := by
  refine (namei_counted cwd path).bind fun r => ?_
  split
  · exact .pure fun _ h => h
  · next ip =>
    refine (steady_ilock ip).counted.bind fun _ => Triple.get_any fun s => .ite (fun _ => ?_) fun _ => ?_
    · exact (iput_counted ip).bind fun _ => .pure fun _ h => h
    · exact (iput_counted_left cwd ip).bind fun _ => .pure fun _ h => h

theorem execInode_counted (cwd : InodeIdx) (path : List UInt8) (reads : List (Nat × Nat)) (dev : Option (List UInt8)) :
    Counted (H + one cwd) (execInode cwd path reads dev) fun _ => H + one cwd := by
  refine (namei_counted cwd path).bind fun r => ?_
  split
  · exact .pure fun _ h => h
  · next ip =>
    exact (steady_ilock ip).counted.bind fun _ => Triple.get_any fun s => (steady_execReads ip dev reads).counted.bind fun _ =>
      (iput_counted ip).bind fun _ => .pure fun _ h => h

end DemandPaging.FileSys
