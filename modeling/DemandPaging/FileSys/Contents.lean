/-
Files as arrays of bytes: on a disk whose blocks have one owner each, `writei` overwrites the bytes of one
file and `readi` returns them, whatever blocks they lie in.
-/
import DemandPaging.FileSys.Blocks

namespace DemandPaging.FileSys

open Function Bytes Outcome

/-- The blocks are owned by the inodes `A` of a table: no block has two owners, and each file has the blocks that its size
asks for. -/
structure Owned (A : Nat → Prop) (D : Nat → Dinode) (s : Fsys) : Prop extends Geometry s where
  held : Held A D s.data s.used
  shape : ∀ j, A j → Shape s.data (D j)
  inodes : ∀ j, A j → s.sb.iblock j < s.disksize

/-- The blocks that a file needs to grow. -/
def growth (size last : Nat) : Nat := (nblk last - nblk size) + if nblk size ≤ nDirect ∧ nDirect < nblk last then 1 else 0

/-- File `n` has been overwritten, and no other. -/
structure Written (A : Nat → Prop) (D : Nat → Dinode) (data : Nat → Block) (n off : Nat) (src : List UInt8) (D' : Nat → Dinode)
    (data' : Nat → Block) : Prop where
  self : ∃ a, D' n = { D n with addrs := a, size := max (D n).size (off + src.length) }
  contents : contents data' (D' n) = writeAt (contents data (D n)) off src
  other : ∀ j, A j → j ≠ n → D' j = D j ∧ FileSys.contents data' (D j) = FileSys.contents data (D j)

section Write

variable {A : Nat → Prop} {D : Nat → Dinode} {s : Fsys} {i : InodeIdx} {n z : Nat}

/-- One round of `writei` uses up the blocks that it allocates. -/
theorem need_growth {data : Nat → Block} {d : Dinode} {k : Fin maxFile} {off m len : Nat} (hs : Shape data d) (hoff : off ≤ d.size)
    (hk : off / bSize = k.val) (hm : 0 < m) (hfit : off % bSize + m ≤ bSize) (hlen : m ≤ len) :
    need data d k + growth (max d.size (off + m)) (off + len) = growth d.size (off + len) := by
  have hmax : nblk (max d.size (off + m)) = _ := nblk_max hm hfit
  have hlast : k.val < nblk (off + len) := hk ▸ lt_nblk (by omega)
  have hle : k.val ≤ nblk d.size := by
    rw [← hk]
    simp only [nblk, bSize] at *
    omega
  have hblock : slotAddr data d (some k) = 0 ↔ ¬k.val < nblk d.size := by rw [← hs.blocks k, not_not]
  have hind : slotAddr data d none = 0 ↔ ¬nDirect < nblk d.size := by rw [← hs.ind, not_not]
  simp only [need, growth, hblock, hind, hmax, hk]
  split_ifs <;> omega

theorem Written.trans {D' D'' : Nat → Dinode} {data data' data'' : Nat → Block} {off : Nat} {p q : List UInt8} (hoff : off ≤ (D n).size)
    (h : Written A D data n off p D' data') (h' : Written A D' data' n (off + p.length) q D'' data'') :
    Written A D data n off (p ++ q) D'' data'' := by
  obtain ⟨a, ha⟩ := h.self
  obtain ⟨a', ha'⟩ := h'.self
  refine ⟨⟨a', ?_⟩, ?_, fun j hj hjn => ?_⟩
  · rw [ha', ha, List.length_append]
    simp only [Dinode.mk.injEq, true_and, and_true]
    omega
  · rw [h'.contents, h.contents, writeAt_writeAt (by simpa using hoff)]
  · obtain ⟨h1, h2⟩ := h.other j hj hjn
    obtain ⟨h3, h4⟩ := h'.other j hj hjn
    rw [h1] at h3 h4
    exact ⟨h3, h4.trans h2⟩

/-- One round of the loop of `writei`. The size in the inode is still the old one. -/
theorem writeBlock_ok {off : Nat} {p : List UInt8} (h : Owned A D s) (hn : A n) (hd : (s.icache i).d = { D n with size := z })
    (hoff : off ≤ (D n).size) (hp : 0 < p.length) (hfit : off % bSize + p.length ≤ bSize)
    (hk : off / bSize < maxFile) (hroom : need s.data (D n) ⟨off / bSize, hk⟩ ≤ s.free.card) :
    ∃ x s₁ D', bmap i (off / bSize) s = .ok (x, s₁) ∧ x < s₁.disksize ∧
      Owned A D' { s₁ with data := update s₁.data x (overwrite (s₁.data x) (off % bSize) p) } ∧ s.Remaps i s₁ ∧
      (s₁.icache i).d = { D' n with size := z } ∧
      Written A D s.data n off p D' (update s₁.data x (overwrite (s₁.data x) (off % bSize) p)) ∧
      s₁.free.card + need s.data (D n) ⟨off / bSize, hk⟩ = s.free.card ∧
      (off + p.length ≤ (D n).size → s₁.icache = s.icache) ∧
      Grown A D s D' { s₁ with data := update s₁.data x (overwrite (s₁.data x) (off % bSize) p) } := by
  obtain ⟨x, s₁, D₁, hrun, hb⟩ := bmap_ok (k := ⟨off / bSize, hk⟩) h.held h.toGeometry hn (by rw [hd]) (h.shape n hn) hroom
  obtain ⟨a, ha⟩ := hb.mapped.self
  obtain ⟨a', ha'⟩ := hb.remaps.icache
  have hused : s₁.used x := by
    have := hb.mapped.held.used_of (s := some ⟨off / bSize, hk⟩) hn (by rw [hb.mapped.addr]; exact hb.mapped.ne)
    rwa [hb.mapped.addr] at this
  obtain ⟨hheld, hshape, hcont, hother⟩ := hb.mapped.write hn h.shape hoff rfl hp hfit rfl
  refine ⟨x, s₁, update D₁ n { D₁ n with size := max (D n).size (off + p.length) }, hrun, hused.2.trans_le hb.geometry.size,
    ⟨hb.geometry.of_eq rfl rfl rfl, hheld, hshape, fun j hj => ?_⟩, hb.remaps, ?_, ⟨⟨a, ?_⟩, ?_, fun j hj hjn => ⟨?_, ?_⟩⟩, hb.card, fun hle => ?_, ?_⟩
  · rw [hb.remaps.sb, hb.remaps.disksize]
    exact h.inodes j hj
  · have haddr := hb.addrs
    rw [ha'] at haddr ⊢
    simp only [update_self] at haddr ⊢
    rw [hd, haddr, ha]
  · rw [update_self, ha]
  · rw [update_self]
    exact hcont
  · rw [update_of_ne hjn]
    exact (hb.mapped.other j hj hjn).1
  · rw [← hother j hj hjn, (hb.mapped.other j hj hjn).1]
  · -- within the size the block is there
    rw [hb.present (((h.shape n hn).blocks _).2 (lt_nblk (by omega)))]
  · have hslot : ∀ j t, A j → slotAddr (update s₁.data x (overwrite (s₁.data x) (off % bSize) p))
        (update D₁ n { D₁ n with size := max (D n).size (off + p.length) } j) t = slotAddr s₁.data (D₁ j) t := by
      intro j t hj
      by_cases hjn : j = n
      · subst hjn
        rw [update_self, slotAddr_size, hb.mapped.held.write hn hb.mapped.addr hb.mapped.ne hn]
      · rw [update_of_ne hjn, hb.mapped.held.write hn hb.mapped.addr hb.mapped.ne hj]
    exact hb.grown.congr hslot rfl rfl

/-- The loop of `writei`. -/
theorem writeLoop_ok (hn : A n) : ∀ (fuel off : Nat) (src : List UInt8) {D : Nat → Dinode} {s : Fsys}, src.length ≤ fuel → Owned A D s →
    (s.icache i).d = { D n with size := z } → off ≤ (D n).size → off + src.length ≤ maxFileBytes →
    growth (D n).size (off + src.length) ≤ s.free.card →
    ∃ s' D', writeLoop i fuel off src s = .ok ((), s') ∧ Owned A D' s' ∧ s.Remaps i s' ∧ (s'.icache i).d = { D' n with size := z } ∧
      Written A D s.data n off src D' s'.data ∧ (off + src.length ≤ (D n).size → s'.icache = s.icache) ∧ Grown A D s D' s'
  | fuel, off, [], D, s, _, h, hd, hoff, _, _ => by
    refine ⟨s, D, by unfold writeLoop; rfl, h, .refl s i, hd, ⟨⟨(D n).addrs, ?_⟩, by simp, fun _ _ _ => ⟨rfl, rfl⟩⟩, fun _ => rfl,
      .refl A D s⟩
    rw [List.length_nil, Nat.add_zero, Nat.max_eq_left hoff]
  | fuel + 1, off, b :: src, D, s, hfuel, h, hd, hoff, hmax, hroom => by
    generalize hm : min (b :: src).length (bSize - off % bSize) = m
    have hlen : 0 < (b :: src).length := by simp
    have hmod := Nat.mod_lt off (show 0 < bSize by decide)
    have hmpos : 0 < m := by omega
    have hplen : ((b :: src).take m).length = m := by rw [List.length_take]; omega
    have hk : off / bSize < maxFile := by
      simp only [maxFileBytes, bSize, maxFile, nDirect, nIndirect] at *
      omega
    have hneed := need_growth (k := ⟨off / bSize, hk⟩) (h.shape n hn) hoff rfl hmpos (by omega) (show m ≤ (b :: src).length by omega)
    obtain ⟨x, s₁, D₁, hrun, hx, hown, hremap, hd₁, hwr, hcard, hsame, hgrown⟩ := writeBlock_ok (p := (b :: src).take m) h hn hd hoff
      (by omega) (by omega) hk (by omega)
    obtain ⟨a, ha⟩ := hwr.self
    have hsize : (D₁ n).size = max (D n).size (off + m) := by rw [ha, hplen]
    obtain ⟨s', D', hrest, hown', hremap', hd', hwr', hsame', hgrown'⟩ := writeLoop_ok hn fuel (off + m) ((b :: src).drop m)
      (by rw [List.length_drop]; omega) hown hd₁ (by omega) (by rw [List.length_drop]; omega)
      (by
        rw [List.length_drop, hsize, show off + m + ((b :: src).length - m) = off + (b :: src).length by omega]
        show _ ≤ s₁.free.card
        omega)
    refine ⟨s', D', ?_, hown', ?_, hd', ?_, fun hle => ?_, hgrown.trans hgrown'⟩
    · simp only [writeLoop, hm]
      rw [run_bind hrun, run_bind (bread_ok hx)]
      exact hrest
    · exact hremap.trans ⟨hremap'.sb, hremap'.disksize, hremap'.dinode, hremap'.icache⟩
    · rw [← List.take_append_drop m (b :: src)]
      exact hwr.trans hoff (by rw [hplen]; exact hwr')
    · rw [hsame' (by rw [List.length_drop, hsize]; omega)]
      exact hsame (by omega)

end Write

/-! ## `writei` and `readi` -/

/-- What `writei` may change: blocks, the bitmap, and the inode of one entry of the cache, there and on the disk. -/
structure Fsys.Rewrites (s : Fsys) (i : InodeIdx) (s' : Fsys) : Prop where
  sb : s'.sb = s.sb
  disksize : s'.disksize = s.disksize
  entry : s'.icache = update s.icache i { s.icache i with d := (s'.icache i).d }
  dinode : ∀ j, j ≠ (s.icache i).inum → s'.dinode j = s.dinode j
  synced : s.dinode (s.icache i).inum = (s.icache i).d → s'.dinode (s.icache i).inum = (s'.icache i).d

section Calls

variable {A : Nat → Prop} {D : Nat → Dinode} {s : Fsys} {i : InodeIdx} {n off : Nat} {src : List UInt8}

theorem wraps_iff {a b : Nat} (ha : a < wordSize) (hb : b < wordSize) : (a + b) % wordSize < a ↔ wordSize ≤ a + b := by
  simp only [wordSize] at *
  omega

/-- `writei` past the end of the file or of the largest file. -/
theorem writei_refused (hoff : off < wordSize) (hlen : src.length < wordSize)
    (h : (s.icache i).d.size < off ∨ wordSize ≤ off + src.length ∨ maxFileBytes < off + src.length) :
    writei i src off s = .ok (none, s) := by
  show (if (s.icache i).d.size < off ∨ (off + src.length) % wordSize < off then _ else _ : FsM _) s = _
  simp only [wraps_iff hoff hlen]
  by_cases h1 : (s.icache i).d.size < off ∨ wordSize ≤ off + src.length
  · rw [if_pos h1]
    rfl
  · rw [if_neg h1, if_pos (by omega)]
    rfl

theorem Remaps.rewrites {s' : Fsys} (h : s.Remaps i s') (hsame : s'.icache = s.icache) : s.Rewrites i s' := by
  refine ⟨h.sb, h.disksize, ?_, fun j _ => by rw [h.dinode], fun hs => by rw [h.dinode, hsame, hs]⟩
  rw [hsame]
  exact (update_eq_self i s.icache).symm

theorem iupdate_ok (h : s.sb.iblock (s.icache i).inum < s.disksize) :
    iupdate i s = .ok ((), { s with dinode := update s.dinode (s.icache i).inum (s.icache i).d }) := by
  show (do access (s.sb.iblock (s.icache i).inum); modify _ : FsM Unit) s = _
  rw [run_bind (access_ok h)]
  rfl

/-- `writei` overwrites the bytes of the file, which grows by those that reach past its end. -/
theorem writei_ok (h : Owned A D s) (hn : A n) (hinum : (s.icache i).inum = n) (hd : (s.icache i).d = D n) (hoff : off ≤ (D n).size)
    (hmax : off + src.length ≤ maxFileBytes) (hroom : growth (D n).size (off + src.length) ≤ s.free.card) :
    ∃ s' D', writei i src off s = .ok (some src.length, s') ∧ Owned A D' s' ∧ (s'.icache i).d = D' n ∧
      Written A D s.data n off src D' s'.data ∧ s.Rewrites i s' ∧ Grown A D s D' s' := by
  obtain ⟨s₁, D', hrun, hown, hremap, hd', hwr, hsame, hgrown⟩ := writeLoop_ok (z := (D n).size) hn _ _ src le_rfl h hd hoff hmax hroom
  obtain ⟨a, ha⟩ := hwr.self
  obtain ⟨a', ha'⟩ := hremap.icache
  have hguard : ¬((s.icache i).d.size < off ∨ (off + src.length) % wordSize < off) := by
    rw [hd, Nat.mod_eq_of_lt (by simp only [maxFileBytes, bSize, wordSize] at *; omega)]
    omega
  have hstart : writei i src off s = (do
      writeLoop i src.length off src
      if 0 < src.length ∧ (D n).size < off + src.length then
        setDinode i fun d => { d with size := off + src.length }
        iupdate i
      return some src.length : FsM _) s := by
    show (if (s.icache i).d.size < off ∨ (off + src.length) % wordSize < off then _ else _ : FsM _) s = _
    rw [if_neg hguard, if_neg (by omega), hd]
  rw [hstart, run_bind hrun]
  by_cases hgrow : 0 < src.length ∧ (D n).size < off + src.length
  · have hsize : (D' n).size = off + src.length := by
      rw [ha]
      exact Nat.max_eq_right (by omega)
    have hinum₁ : (s₁.icache i).inum = n := by rw [ha', update_self]; exact hinum
    have hset : { (s₁.icache i).d with size := off + src.length } = D' n := by rw [hd', ← hsize]
    have hacc : s₁.sb.iblock n < s₁.disksize := by
      rw [hremap.sb, hremap.disksize]
      exact h.inodes n hn
    refine ⟨{ s₁.entry i { s₁.icache i with d := D' n } with dinode := update s₁.dinode n (D' n) }, D', ?_, ?_, ?_, hwr, ?_,
      hgrown.congr (fun _ _ _ => rfl) rfl rfl⟩
    · rw [if_pos hgrow]
      have hiup := iupdate_ok (s := s₁.entry i { s₁.icache i with d := D' n }) (i := i) (by simpa [hinum₁] using hacc)
      have hsetd : setDinode i (fun d => { d with size := off + src.length }) s₁ = .ok ((), s₁.entry i { s₁.icache i with d := D' n }) := by
        rw [← hset]
        rfl
      rw [run_bind hsetd, run_bind hiup]
      show Except.ok (some src.length, _) = _
      simp [hinum₁]
    · exact ⟨hown.toGeometry.of_eq rfl rfl rfl, hown.held, hown.shape, hown.inodes⟩
    · simp
    · refine ⟨hremap.sb, hremap.disksize, ?_, fun j hj => ?_, fun _ => ?_⟩
      · simp [ha', Fsys.entry]
      · rw [hinum] at hj
        show update s₁.dinode n (D' n) j = _
        rw [update_of_ne hj, hremap.dinode]
      · simp [hinum]
  · refine ⟨s₁, D', ?_, hown, ?_, hwr, ?_, hgrown⟩
    · rw [if_neg hgrow]
      rfl
    · rw [hd', ha, Nat.max_eq_left]
      by_cases hpos : 0 < src.length
      · omega
      · rw [Nat.eq_zero_of_not_pos hpos, Nat.add_zero]
        exact hoff
    · exact Remaps.rewrites hremap (hsame (by omega))

/-- The blocks of a file are on the disk. -/
theorem Owned.backed (h : Owned A D s) (hn : A n) {o : Nat} (ho : o < (D n).size) : Backed s (D n) (o / bSize) := by
  obtain ⟨k, hk, hne, -⟩ := (h.shape n hn).block_of_lt ho
  have hlt : o / bSize < maxFile := hk ▸ k.isLt
  have hkk : (⟨o / bSize, hlt⟩ : Fin maxFile) = k := Fin.ext hk.symm
  have haddr : blockAddr s.data (D n) (o / bSize) = slotAddr s.data (D n) (some k) := by rw [blockAddr_lt hlt, hkk]
  refine ⟨by rw [haddr]; exact hne, ?_, fun hle => ?_⟩
  · rw [haddr]
    exact (h.held.used_of hn hne).2.trans_le h.size
  · have hind : slotAddr s.data (D n) none ≠ 0 := (h.shape n hn).ind.2 (hle.trans_lt (lt_nblk ho))
    exact (h.held.used_of hn hind).2.trans_le h.size

/-- `readi` returns the bytes of the file from the offset on. -/
theorem readi_ok (h : Owned A D s) (hn : A n) (hd : (s.icache i).d = D n) {m : Nat} (hm : m < wordSize) (hoff : off < wordSize) :
    readi i off m s = .ok (if (D n).size < off ∨ wordSize ≤ off + m then none else some (((contents s.data (D n)).drop off).take m), s) := by
  show (if (s.icache i).d.size < off ∨ (off + m) % wordSize < off then _ else _ : FsM _) s = _
  simp only [wraps_iff hoff hm, hd]
  split_ifs with hc hlt
  · rfl
  · -- the file ends before
    have hrun := readLoop_present hd (le_refl ((D n).size - off)) fun o (h1 : off ≤ o) h2 => h.backed hn (by omega)
    rw [run_bind hrun, ← take_drop_contents (by omega)]
    show Except.ok _ = _
    rw [List.take_of_length_le (by simp), List.take_of_length_le (by simp; omega)]
  · have hrun := readLoop_present hd (le_refl m) fun o (h1 : off ≤ o) h2 => h.backed hn (by omega)
    rw [run_bind hrun, ← take_drop_contents (by omega)]
    rfl

/-- A file is the array of its bytes, for `writei` and for `readi`. -/
theorem inode_bytes (off : Nat) (src : List UInt8) (h : Owned A D s) (hn : A (s.icache i).inum) (hd : (s.icache i).d = D (s.icache i).inum) (hoff : off < wordSize)
    (hlen : src.length < wordSize) :
    ((s.icache i).d.size < off ∨ wordSize ≤ off + src.length ∨ maxFileBytes < off + src.length →
      writei i src off s = .ok (none, s)) ∧
    (¬((s.icache i).d.size < off ∨ wordSize ≤ off + src.length ∨ maxFileBytes < off + src.length) →
      growth (s.icache i).d.size (off + src.length) ≤ s.free.card → ∃ s' D', writei i src off s = .ok (some src.length, s') ∧
        contents s'.data (s'.icache i).d = writeAt (contents s.data (s.icache i).d) off src ∧
        (s'.icache i).d.size = max (s.icache i).d.size (off + src.length) ∧
        Owned A D' s' ∧ (s'.icache i).d = D' (s.icache i).inum ∧
        ∀ j, A j → j ≠ (s.icache i).inum → D' j = D j ∧ contents s'.data (D j) = contents s.data (D j)) ∧
    ∀ m < wordSize, readi i off m s = .ok (if (s.icache i).d.size < off ∨ wordSize ≤ off + m then none
      else some (((contents s.data (s.icache i).d).drop off).take m), s) := by
  refine ⟨writei_refused hoff hlen, fun hok hroom => ?_, fun m hm => ?_⟩
  · rw [hd] at hok hroom
    obtain ⟨s', D', hrun, hown, hd', hwr, -, -⟩ := writei_ok h hn rfl hd (by omega) (by omega) hroom
    obtain ⟨a, ha⟩ := hwr.self
    refine ⟨s', D', hrun, ?_, ?_, hown, hd', hwr.other⟩
    · rw [hd', hwr.contents, hd]
    · rw [hd', ha, hd]
  · rw [readi_ok h hn hd hm hoff, hd]

/-- A disk of a hundred blocks with one empty file, which is open. -/
def smallFs : Fsys where
  sb := ⟨100, 40, 8, 30, 2, 32, 33⟩
  disksize := 100
  bit := fun b => b < 60
  dinode := fun j => if j = 1 then { Dinode.zero with type := tFile, nlink := 1 } else Dinode.zero
  data := fun _ _ => 0
  icache := fun _ => ⟨rootDev, 1, 1, true, { Dinode.zero with type := tFile, nlink := 1 }⟩

theorem smallFs_owned : Owned (· = 1) smallFs.dinode smallFs := by
  have hslot : ∀ t, slotAddr smallFs.data (smallFs.dinode 1) t = 0 := by
    intro t
    cases t with
    | none => rfl
    | some k => simp [slotAddr, smallFs, Dinode.zero]
  have hn : nblk (smallFs.dinode 1).size = 0 := rfl
  refine ⟨⟨rfl, by decide, by decide, ?_⟩, ⟨?_, ?_⟩, ?_, ?_⟩
  · intro b hb
    simp only [SuperBlock.bblock, smallFs, bpb] at *
    omega
  · rintro j t b rfl hb
    simp [hslot, addr?] at hb
  · rintro j k t u b rfl rfl hb
    simp [hslot, addr?] at hb
  · rintro j rfl
    refine ⟨by decide, fun k => ?_, ?_⟩
    · simp [hslot, hn]
    · simp [hslot, hn]
  · rintro j rfl
    decide

theorem smallFs_free : 40 ≤ smallFs.free.card := by
  have h : smallFs.free = (Finset.range 100).filter fun b => decide (b < 60) = false := rfl
  rw [h]
  decide

theorem inode_bytes_small : ∃ s', writei 0 [1, 2, 3] 0 smallFs = .ok (some 3, s') ∧ contents s'.data (s'.icache 0).d = [1, 2, 3] := by
  obtain ⟨-, hok, -⟩ := inode_bytes (i := 0) 0 [1, 2, 3] smallFs_owned rfl rfl (by decide) (by decide)
  obtain ⟨s', D', hrun, hcont, -⟩ := hok (by decide) ((show growth _ _ ≤ 40 by decide).trans smallFs_free)
  exact ⟨s', hrun, hcont⟩

end Calls

end DemandPaging.FileSys
