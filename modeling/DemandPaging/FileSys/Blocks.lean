/-
The blocks of the disk and the files that own them: `balloc` takes a free block, `bmap` finds or adds the
block of a file, and no block gets a second owner.
-/
import DemandPaging.FileSys.Cache

namespace DemandPaging.FileSys

open Function Bytes Outcome

/-! ## Free blocks -/

/-- What the block functions rely on: block 0 is never free, and the disk has the blocks that the superblock counts, with their
bitmap. -/
structure Geometry (s : Fsys) : Prop where
  zero : s.bit 0 = true
  size : s.sb.size ≤ s.disksize
  word : s.sb.size ≤ wordSize
  bitmap : ∀ b < s.sb.size, s.sb.bblock b < s.disksize

/-- A block that is marked in the bitmap. -/
def Fsys.used (s : Fsys) (b : Nat) : Prop := s.bit b = true ∧ b < s.sb.size

/-- The blocks that are not. -/
def Fsys.free (s : Fsys) : Finset Nat := (Finset.range s.sb.size).filter fun b => s.bit b = false

/-- The file system with a block marked and zeroed. -/
def Fsys.take (s : Fsys) (b : Nat) : Fsys := { s with bit := update s.bit b true, data := update s.data b fun _ => 0 }

section Free

variable {s : Fsys} {b : Nat}

@[simp] theorem Fsys.take_icache : (s.take b).icache = s.icache := rfl
@[simp] theorem Fsys.take_dinode : (s.take b).dinode = s.dinode := rfl
@[simp] theorem Fsys.take_sb : (s.take b).sb = s.sb := rfl
@[simp] theorem Fsys.take_disksize : (s.take b).disksize = s.disksize := rfl
@[simp] theorem Fsys.take_data : (s.take b).data = update s.data b fun _ => 0 := rfl

theorem Fsys.mem_free : b ∈ s.free ↔ b < s.sb.size ∧ s.bit b = false := by simp [Fsys.free]

theorem Fsys.not_used_of_free (h : b ∈ s.free) : ¬s.used b := by
  rw [Fsys.mem_free] at h
  rintro ⟨hb, -⟩
  rw [h.2] at hb
  cases hb

@[simp] theorem Fsys.entry_used (i : InodeIdx) (ip : Inode) : (s.entry i ip).used = s.used := rfl

theorem Fsys.take_used (h : b ∈ s.free) : (s.take b).used = fun c => s.used c ∨ c = b := by
  funext c
  have hlt := (Fsys.mem_free.1 h).1
  simp only [Fsys.used, Fsys.take, eq_iff_iff]
  by_cases hc : c = b
  · subst hc
    simp [hlt]
  · simp [hc]

theorem Fsys.take_free : (s.take b).free = s.free.erase b := by
  ext c
  rw [Finset.mem_erase, Fsys.mem_free, Fsys.mem_free]
  simp only [Fsys.take]
  by_cases hc : c = b
  · simp [hc]
  · simp [hc]

theorem Fsys.take_free_subset : (s.take b).free ⊆ s.free := by
  rw [Fsys.take_free]
  exact Finset.erase_subset b s.free

theorem Fsys.take_card (h : b ∈ s.free) : (s.take b).free.card + 1 = s.free.card := by
  rw [Fsys.take_free, Finset.card_erase_add_one h]

theorem Geometry.take (h : Geometry s) (b : Nat) : Geometry (s.take b) := by
  refine ⟨?_, h.size, h.word, h.bitmap⟩
  simp only [Fsys.take]
  by_cases hb : b = 0
  · simp [hb]
  · rw [update_of_ne (Ne.symm hb), h.zero]

theorem Geometry.of_eq {s' : Fsys} (h : Geometry s) (hbit : s'.bit = s.bit) (hsb : s'.sb = s.sb) (hsize : s'.disksize = s.disksize) :
    Geometry s' := by
  refine ⟨by rw [hbit]; exact h.zero, by rw [hsb, hsize]; exact h.size, by rw [hsb]; exact h.word, ?_⟩
  rw [hsb, hsize]
  exact h.bitmap

theorem Geometry.lt (h : Geometry s) (hb : b ∈ s.free) : b ≠ 0 ∧ b < s.disksize ∧ b < wordSize := by
  obtain ⟨hlt, hfree⟩ := Fsys.mem_free.1 hb
  refine ⟨?_, hlt.trans_le h.size, hlt.trans_le h.word⟩
  rintro rfl
  rw [h.zero] at hfree
  cases hfree

/-- `balloc` takes a free block. -/
theorem balloc_ok (h : Geometry s) (hfree : 0 < s.free.card) : ∃ b ∈ s.free, balloc s = .ok (b, s.take b) := by
  cases hfind : (List.range s.sb.size).find? fun b => !s.bit b with
  | none =>
    obtain ⟨b, hb⟩ := Finset.card_pos.1 hfree
    obtain ⟨hlt, hbit⟩ := Fsys.mem_free.1 hb
    have := List.find?_eq_none.1 hfind b (List.mem_range.2 hlt)
    rw [hbit] at this
    exact absurd rfl this
  | some b =>
    have hb : b ∈ s.free :=
      Fsys.mem_free.2 ⟨List.mem_range.1 (List.mem_of_find?_eq_some hfind), by simpa using List.find?_some hfind⟩
    refine ⟨b, hb, ?_⟩
    unfold balloc
    refine (run_bind (x := get) rfl).trans ?_
    simp only [hfind]
    rw [run_bind (access_ok (h.bitmap b (Fsys.mem_free.1 hb).1))]
    have hacc : access b { s with bit := update s.bit b true } = .ok ((), _) := access_ok (h.lt hb).2.1
    show ((do access b; bput b fun _ => 0) >>= fun _ => pure b : FsM Nat) { s with bit := update s.bit b true } = _
    rw [run_bind (run_bind hacc)]
    rfl

/-- A block that `balloc` returns was free. -/
theorem balloc_free {s' : Fsys} (h : balloc s = .ok (b, s')) : b ∈ s.free := by
  unfold balloc at h
  obtain ⟨s₀, s₁, hget, h⟩ := bind_ok.1 h
  cases hget
  cases hfind : (List.range s.sb.size).find? fun b => !s.bit b with
  | none =>
    rw [hfind] at h
    cases h
  | some x =>
    rw [hfind] at h
    obtain ⟨-, s₁, -, h⟩ := bind_ok.1 h
    obtain ⟨-, s₂, -, h⟩ := bind_ok.1 h
    obtain ⟨-, s₃, -, h⟩ := bind_ok.1 h
    cases h
    exact Fsys.mem_free.2 ⟨List.mem_range.1 (List.mem_of_find?_eq_some hfind), by simpa using List.find?_some hfind⟩

end Free

/-! ## The block of a file -/

/-- The blocks that `bmap` allocates. -/
def need (data : Nat → Block) (d : Dinode) (k : Fin maxFile) : Nat :=
  (if slotAddr data d (some k) = 0 then 1 else 0) + (if nDirect ≤ k.val ∧ slotAddr data d none = 0 then 1 else 0)

/-- Nothing has changed but blocks, the bitmap and the block addresses in an entry of the inode cache. -/
structure Fsys.Remaps (s : Fsys) (i : InodeIdx) (s' : Fsys) : Prop where
  sb : s'.sb = s.sb
  disksize : s'.disksize = s.disksize
  dinode : s'.dinode = s.dinode
  icache : ∃ a, s'.icache = update s.icache i { s.icache i with d := { (s.icache i).d with addrs := a } }

theorem Fsys.Remaps.refl (s : Fsys) (i : InodeIdx) : s.Remaps i s := ⟨rfl, rfl, rfl, (s.icache i).d.addrs, (update_eq_self i s.icache).symm⟩

theorem Fsys.Remaps.trans {s s' s'' : Fsys} {i : InodeIdx} (h : s.Remaps i s') (h' : s'.Remaps i s'') : s.Remaps i s'' := by
  obtain ⟨a, ha⟩ := h.icache
  obtain ⟨a', ha'⟩ := h'.icache
  refine ⟨h'.sb.trans h.sb, h'.disksize.trans h.disksize, h'.dinode.trans h.dinode, a', ?_⟩
  rw [ha', ha]
  simp

section Bmap

variable {A : Nat → Prop} {D : Nat → Dinode} {s : Fsys} {i : InodeIdx} {n : Nat} {k : Fin maxFile}

/-- No reference is lost, each one that comes is to a block that was free, and a block that becomes used is referred to. -/
structure Grown (A : Nat → Prop) (D : Nat → Dinode) (s : Fsys) (D' : Nat → Dinode) (s' : Fsys) : Prop where
  kept : ∀ j t, A j → slotAddr s.data (D j) t ≠ 0 → slotAddr s'.data (D' j) t = slotAddr s.data (D j) t
  fresh : ∀ j t, A j → slotAddr s'.data (D' j) t ≠ 0 →
    slotAddr s.data (D j) t = slotAddr s'.data (D' j) t ∨ slotAddr s'.data (D' j) t ∈ s.free
  covers : ∀ b, s'.used b → s.used b ∨ ∃ j t, A j ∧ slotAddr s'.data (D' j) t = b ∧ b ≠ 0
  free : s'.free ⊆ s.free

theorem Grown.refl (A : Nat → Prop) (D : Nat → Dinode) (s : Fsys) : Grown A D s D s :=
  ⟨fun _ _ _ _ => rfl, fun _ _ _ _ => .inl rfl, fun _ hb => .inl hb, subset_rfl⟩

theorem Grown.trans {D' D'' : Nat → Dinode} {s' s'' : Fsys} (h : Grown A D s D' s') (h' : Grown A D' s' D'' s'') : Grown A D s D'' s'' := by
  refine ⟨fun j t hj ht => ?_, fun j t hj ht => ?_, fun b hb => ?_, h'.free.trans h.free⟩
  · have hold := h.kept j t hj ht
    rw [h'.kept j t hj (by rw [hold]; exact ht), hold]
  · rcases h'.fresh j t hj ht with he | hf
    · rw [← he] at ht ⊢
      exact h.fresh j t hj ht
    · exact .inr (h.free hf)
  · rcases h'.covers b hb with hb | hb
    · rcases h.covers b hb with hb | ⟨j, t, hj, rfl, hne⟩
      · exact .inl hb
      · exact .inr ⟨j, t, hj, h'.kept j t hj hne, hne⟩
    · exact .inr hb

theorem Grown.congr {D' D'' : Nat → Dinode} {s' s'' : Fsys} (h : Grown A D s D' s')
    (hslot : ∀ j t, A j → slotAddr s''.data (D'' j) t = slotAddr s'.data (D' j) t) (hbit : s''.bit = s'.bit) (hsb : s''.sb = s'.sb) :
    Grown A D s D'' s'' := by
  have hused : s''.used = s'.used := by
    funext b
    rw [Fsys.used, Fsys.used, hbit, hsb]
  have hfree : s''.free = s'.free := by rw [Fsys.free, Fsys.free, hbit, hsb]
  refine ⟨fun j t hj ht => ?_, fun j t hj ht => ?_, fun b hb => ?_, hfree ▸ h.free⟩
  · rw [hslot j t hj, h.kept j t hj ht]
  · rw [hslot j t hj] at ht ⊢
    exact h.fresh j t hj ht
  · rw [hused] at hb
    rcases h.covers b hb with hb | ⟨j, t, hj, ht, hne⟩
    · exact .inl hb
    · exact .inr ⟨j, t, hj, by rw [hslot j t hj]; exact ht, hne⟩

/-- What `bmap` has added: block `k`, and the indirect block where there was none. -/
theorem Grown.of_mapped {D' : Nat → Dinode} {s' : Fsys} {x : Nat} (hn : A n) (hm : Mapped A D s.data n k D' s'.data s'.used x)
    (hx : slotAddr s.data (D n) (some k) = x ∨ x ∈ s.free)
    (hind : slotAddr s'.data (D' n) none = slotAddr s.data (D n) none ∨
      slotAddr s.data (D n) none = 0 ∧ slotAddr s'.data (D' n) none ∈ s.free)
    (hused : ∀ b, s'.used b → s.used b ∨ b = x ∨ b = slotAddr s'.data (D' n) none ∧ b ≠ 0) (hfree : s'.free ⊆ s.free) :
    Grown A D s D' s' := by
  refine ⟨fun j t hj ht => ?_, fun j t hj ht => ?_, fun b hb => ?_, hfree⟩
  · cases t with
    | some l => exact (hm.keeps j hj l ht).1
    | none =>
      by_cases hjn : j = n
      · subst hjn
        exact hind.resolve_right fun h0 => ht h0.1
      · obtain ⟨hD, hslot⟩ := hm.other j hj hjn
        rw [hD, hslot]
  · by_cases hjn : j = n
    · subst hjn
      cases t with
      | none =>
        rcases hind with he | ⟨-, hf⟩
        · exact .inl he.symm
        · exact .inr hf
      | some l =>
        rcases (hm.slots (some l)).1 ht with hold | hl | ⟨⟨⟩, -⟩
        · exact .inl (hm.keeps j hj l hold).1.symm
        · rw [hl, hm.addr]
          exact hx
    · obtain ⟨hD, hslot⟩ := hm.other j hj hjn
      rw [hD, hslot]
      exact .inl rfl
  · rcases hused b hb with hb | rfl | ⟨rfl, hne⟩
    · exact .inl hb
    · exact .inr ⟨n, some k, hn, hm.addr, hm.ne⟩
    · exact .inr ⟨n, none, hn, rfl, hne⟩

/-- `bmap` has found or added block `k` of the file `n` in entry `i` of the inode cache. -/
structure Bmapped (A : Nat → Prop) (D : Nat → Dinode) (s : Fsys) (i : InodeIdx) (n : Nat) (k : Fin maxFile) (D' : Nat → Dinode)
    (s' : Fsys) (x : Nat) : Prop where
  mapped : Mapped A D s.data n k D' s'.data s'.used x
  geometry : Geometry s'
  remaps : s.Remaps i s'
  addrs : (s'.icache i).d.addrs = (D' n).addrs
  card : s'.free.card + need s.data (D n) k = s.free.card
  present : slotAddr s.data (D n) (some k) ≠ 0 → s' = s
  grown : Grown A D s D' s'

/-- The address in the inode where there is none: a block is taken. -/
theorem bmapDirect_absent {j : Fin (nDirect + 1)} (hg : Geometry s) (hfree : 0 < s.free.card) (h0 : (s.icache i).d.addrs j = 0) :
    ∃ x ∈ s.free, bmapDirect i j s = .ok (x, (s.take x).entry i { s.icache i with
      d := { (s.icache i).d with addrs := update (s.icache i).d.addrs j x } }) := by
  obtain ⟨x, hx, hrun⟩ := balloc_ok hg hfree
  refine ⟨x, hx, ?_⟩
  show (if (s.icache i).d.addrs j ≠ 0 then _ else _ : FsM Nat) s = _
  rw [if_neg (not_not.2 h0), run_bind hrun]
  rfl

/-- The entry of the indirect block where there is none. -/
theorem bmapEntry_absent {ind j : Nat} (hg : Geometry s) (hlt : ind < s.disksize) (hfree : 0 < s.free.card)
    (h0 : indirect (s.data ind) j = 0) : ∃ x ∈ s.free, bmapEntry ind j s =
      .ok (x, { s.take x with data := update (s.take x).data ind (putLe ((s.take x).data ind) (4 * j) 4 x) }) := by
  obtain ⟨x, hx, hrun⟩ := balloc_ok hg hfree
  refine ⟨x, hx, ?_⟩
  rw [bmapEntry, run_bind (bread_ok hlt), if_neg (not_not.2 h0), run_bind hrun]
  rfl

theorem need_present (hs : Shape s.data (D n)) (hk : slotAddr s.data (D n) (some k) ≠ 0) : need s.data (D n) k = 0 := by
  rw [need, if_neg hk, if_neg fun h => hs.ind.2 (h.1.trans_lt ((hs.blocks k).1 hk)) h.2]

/-- `bmap` of a direct block. -/
theorem bmap_direct (h : Held A D s.data s.used) (hg : Geometry s) (hn : A n) (haddr : (s.icache i).d.addrs = (D n).addrs)
    (hs : Shape s.data (D n)) (hk : k.val < nDirect) (hroom : need s.data (D n) k ≤ s.free.card) :
    ∃ x s' D', bmap i k s = .ok (x, s') ∧ Bmapped A D s i n k D' s' x := by
  have hslot : slotAddr s.data (D n) (some k) = (s.icache i).d.addrs ⟨k, by omega⟩ := by rw [slotAddr, dif_pos hk, haddr]
  rw [bmap, dif_pos hk]
  by_cases h0 : (s.icache i).d.addrs ⟨k, by omega⟩ = 0
  · have hneed : need s.data (D n) k = 1 := by rw [need, hslot, if_pos h0, if_neg (by omega)]
    obtain ⟨x, hx, hrun⟩ := bmapDirect_absent hg (by omega) h0
    obtain ⟨hx0, -, -⟩ := hg.lt hx
    have hxu := Fsys.not_used_of_free hx
    have hm : Mapped A D s.data n k (update D n { D n with addrs := update (D n).addrs ⟨k, by omega⟩ x }) (update s.data x fun _ => 0)
        (s.take x).used x := by
      refine Mapped.of_scratch h hn hxu (v := fun _ => 0) ?_
      have hm := Mapped.direct (k := k) (h.scratch (v := fun _ => 0) hxu).1 hn hxu hx0 hk ?_
      · rw [← Fsys.take_used hx] at hm
        exact hm
      · rw [slotAddr_frame (h.not_indirect hn hxu), hslot, h0]
    refine ⟨x, _, update D n { D n with addrs := update (D n).addrs ⟨k, by omega⟩ x }, hrun, hm, (hg.take x).of_eq rfl rfl rfl,
      ⟨rfl, rfl, rfl, _, rfl⟩, ?_, ?_, fun hne => absurd (hslot.trans h0) hne,
      .of_mapped hn hm (.inr hx) (.inl ?_) (fun b hb => ?_) Fsys.take_free_subset⟩
    · simp [haddr]
    · rw [hneed]
      exact Fsys.take_card hx
    · simp only [slotAddr, update_self]
      exact update_of_ne (by simp [Fin.ext_iff]; omega) ..
    · rw [Fsys.entry_used, Fsys.take_used hx] at hb
      exact hb.imp_right .inl
  · refine ⟨_, s, D, bmapDirect_present h0, ?_, hg, .refl s i, haddr, ?_, fun _ => rfl, .refl A D s⟩
    · rw [← hslot]
      exact Mapped.present h hs (by rw [hslot]; exact h0)
    · rw [need_present hs (by rw [hslot]; exact h0), Nat.add_zero]

/-- `bmap` of a block that the indirect block lists. -/
theorem bmap_indirect (h : Held A D s.data s.used) (hg : Geometry s) (hn : A n) (haddr : (s.icache i).d.addrs = (D n).addrs)
    (hs : Shape s.data (D n)) (hk : ¬k.val < nDirect) (hroom : need s.data (D n) k ≤ s.free.card) :
    ∃ x s' D', bmap i k s = .ok (x, s') ∧ Bmapped A D s i n k D' s' x := by
  have hkle : nDirect ≤ k.val := not_lt.1 hk
  have hent := Fin.sub_nDirect_lt k hk
  have hind : slotAddr s.data (D n) none = (s.icache i).d.addrs (Fin.last nDirect) := by rw [slotAddr, haddr]
  rw [bmap, dif_neg hk, if_pos hent]
  by_cases h0 : (s.icache i).d.addrs (Fin.last nDirect) = 0
  · -- neither the indirect block nor the entry is there
    have hk0 : slotAddr s.data (D n) (some k) = 0 := by rw [slotAddr, dif_neg hk, ← haddr, if_pos h0]
    have hneed : need s.data (D n) k = 2 := by rw [need, if_pos hk0, if_pos ⟨hkle, by rw [hind, h0]⟩]
    obtain ⟨y, hy, hrun⟩ := bmapDirect_absent hg (by omega) h0
    obtain ⟨hy0, hylt, -⟩ := hg.lt hy
    have hyu := Fsys.not_used_of_free hy
    have hcard := Fsys.take_card hy
    rw [run_bind hrun]
    generalize hs₁ : (s.take y).entry i { s.icache i with
      d := { (s.icache i).d with addrs := update (s.icache i).d.addrs (Fin.last nDirect) y } } = s₁
    have hdata₁ : s₁.data = update s.data y fun _ => 0 := by rw [← hs₁]; rfl
    have hfree₁ : s₁.free = (s.take y).free := by rw [← hs₁]; rfl
    have hused₁ : s₁.used = fun c => s.used c ∨ c = y := by rw [← Fsys.take_used hy, ← hs₁]; rfl
    have hg₁ : Geometry s₁ := (hg.take y).of_eq (by rw [← hs₁]; rfl) (by rw [← hs₁]; rfl) (by rw [← hs₁]; rfl)
    obtain ⟨x, hx, hrun'⟩ := bmapEntry_absent (j := k - nDirect) hg₁ (show y < s₁.disksize by rw [← hs₁]; exact hylt)
      (by rw [hfree₁]; omega) (by rw [hdata₁, update_self]; exact indirect_zero _)
    obtain ⟨hx0, -, hxw⟩ := hg₁.lt hx
    have hxu := Fsys.not_used_of_free hx
    rw [hused₁] at hxu
    have hxy : y ≠ x := fun e => hxu (.inr e.symm)
    have hdata₂ : (s₁.take x).data = update (update s.data y fun _ => 0) x fun _ => 0 := by rw [Fsys.take_data, hdata₁]
    have hused₂ : (s₁.take x).used = fun c => (s.used c ∨ c = y) ∨ c = x := by
      rw [Fsys.take_used hx, hused₁]
    have hm : Mapped A D s.data n k (update D n { D n with addrs := update (D n).addrs (Fin.last nDirect) y })
        (update (s₁.take x).data y (putLe ((s₁.take x).data y) (4 * (k - nDirect)) 4 x)) (s₁.take x).used x := by
      -- both blocks are written to before they are referred to
      have h₁ := (h.scratch (v := fun _ => 0) hyu).1
      have hxu' : ¬s.used x := fun hu => hxu (.inl hu)
      refine Mapped.of_scratch h hn hyu (v := fun _ => 0) (Mapped.of_scratch h₁ hn hxu' (v := fun _ => 0) ?_)
      rw [hused₂, hdata₂]
      exact Mapped.indirect (k := k) (h₁.scratch (v := fun _ => 0) hxu').1 hn hyu hy0 hxu hx0 hxw hk (by rw [← haddr]; exact h0)
        (fun j _ => by rw [update_of_ne hxy, update_self]; exact indirect_zero j)
    have hfree₂ : (s₁.take x).free ⊆ s.free := by
      refine Fsys.take_free_subset.trans ?_
      rw [hfree₁]
      exact Fsys.take_free_subset
    have hnew : slotAddr (update (s₁.take x).data y (putLe ((s₁.take x).data y) (4 * (k - nDirect)) 4 x))
        (update D n { D n with addrs := update (D n).addrs (Fin.last nDirect) y } n) none = y := by simp [slotAddr]
    refine ⟨x, _, update D n { D n with addrs := update (D n).addrs (Fin.last nDirect) y }, hrun', hm,
      (hg₁.take x).of_eq rfl rfl rfl, ?_, ?_, ?_, fun hne => absurd hk0 hne,
      .of_mapped hn hm (.inr ?_) (.inr ⟨by rw [hind, h0], ?_⟩) (fun b hb => ?_) hfree₂⟩
    · rw [← hs₁]
      exact ⟨rfl, rfl, rfl, _, rfl⟩
    · show (s₁.icache i).d.addrs = _
      rw [← hs₁]
      simp [haddr]
    · rw [hneed]
      have hcard' := Fsys.take_card hx
      rw [hfree₁] at hcard'
      show (s₁.take x).free.card + 2 = _
      omega
    · rw [hfree₁] at hx
      exact Fsys.take_free_subset hx
    · show slotAddr (update (s₁.take x).data y _) _ none ∈ s.free
      rw [hnew]
      exact hy
    · have hb : (s₁.take x).used b := hb
      rw [hused₂] at hb
      show s.used b ∨ b = x ∨ b = slotAddr (update (s₁.take x).data y _) _ none ∧ b ≠ 0
      rw [hnew]
      rcases hb with (hb | rfl) | rfl
      · exact .inl hb
      · exact .inr (.inr ⟨rfl, hy0⟩)
      · exact .inr (.inl rfl)
  · have hlt : (s.icache i).d.addrs (Fin.last nDirect) < s.disksize := by
      rw [← hind] at h0 ⊢
      exact (h.used_of hn h0).2.trans_le hg.size
    have hslot : slotAddr s.data (D n) (some k) = indirect (s.data ((s.icache i).d.addrs (Fin.last nDirect))) (k - nDirect) := by
      rw [slotAddr, dif_neg hk, ← haddr, if_neg h0]
    rw [run_bind (bmapDirect_present h0)]
    by_cases hk0 : indirect (s.data ((s.icache i).d.addrs (Fin.last nDirect))) (k - nDirect) = 0
    · have hneed : need s.data (D n) k = 1 := by
        rw [need, hslot, if_pos hk0, hind, if_neg fun hc => h0 hc.2]
      obtain ⟨x, hx, hrun⟩ := bmapEntry_absent hg hlt (by omega) hk0
      obtain ⟨hx0, -, hxw⟩ := hg.lt hx
      have hxu := Fsys.not_used_of_free hx
      have hm : Mapped A D s.data n k D (update (s.take x).data ((s.icache i).d.addrs (Fin.last nDirect))
          (putLe ((s.take x).data ((s.icache i).d.addrs (Fin.last nDirect))) (4 * (k - nDirect)) 4 x)) (s.take x).used x := by
        refine Mapped.of_scratch h hn hxu (v := fun _ => 0) ?_
        have hm := Mapped.entry (k := k) (h.scratch (v := fun _ => 0) hxu).1 hn hxu hx0 hxw hk (y := (s.icache i).d.addrs (Fin.last nDirect))
          (by rw [haddr]) h0 (by rw [slotAddr_frame (h.not_indirect hn hxu), hslot, hk0])
        rw [← Fsys.take_used hx] at hm
        exact hm
      refine ⟨x, _, D, hrun, hm, (hg.take x).of_eq rfl rfl rfl, ?_, haddr, ?_, fun hne => absurd (hslot.trans hk0) hne,
        .of_mapped hn hm (.inr hx) (.inl rfl) (fun b hb => ?_) Fsys.take_free_subset⟩
      · exact ⟨rfl, rfl, rfl, (s.icache i).d.addrs, (update_eq_self i s.icache).symm⟩
      · rw [hneed]
        exact Fsys.take_card hx
      · have hb : (s.take x).used b := hb
        rw [Fsys.take_used hx] at hb
        exact hb.imp_right .inl
    · refine ⟨_, s, D, bmapEntry_present hlt hk0, ?_, hg, .refl s i, haddr, ?_, fun _ => rfl, .refl A D s⟩
      · rw [← hslot]
        exact Mapped.present h hs (by rw [hslot]; exact hk0)
      · rw [need_present hs (by rw [hslot]; exact hk0), Nat.add_zero]

theorem bmap_ok (h : Held A D s.data s.used) (hg : Geometry s) (hn : A n) (haddr : (s.icache i).d.addrs = (D n).addrs)
    (hs : Shape s.data (D n)) (hroom : need s.data (D n) k ≤ s.free.card) :
    ∃ x s' D', bmap i k s = .ok (x, s') ∧ Bmapped A D s i n k D' s' x := by
  by_cases hk : k.val < nDirect
  · exact bmap_direct h hg hn haddr hs hk hroom
  · exact bmap_indirect h hg hn haddr hs hk hroom

/-- A block that `bmap` adds was free, and so was the indirect block that it adds with it. -/
theorem need_le (hg : Geometry s) (haddr : (s.icache i).d.addrs = (D n).addrs) {x : Nat} {s' : Fsys} (h : bmap i k s = .ok (x, s')) :
    need s.data (D n) k ≤ s.free.card := by
  have hdirect : ∀ {j : Fin (nDirect + 1)} {y : Nat} {s₁ : Fsys}, (s.icache i).d.addrs j = 0 → bmapDirect i j s = .ok (y, s₁) →
      ∃ b ∈ s.free, True := by
    intro j y s₁ h0 hrun
    change (if (s.icache i).d.addrs j ≠ 0 then _ else _ : FsM Nat) s = _ at hrun
    rw [if_neg (not_not.2 h0)] at hrun
    obtain ⟨b, s₂, hb, -⟩ := bind_ok.1 hrun
    exact ⟨b, balloc_free hb, trivial⟩
  have hentry : ∀ {s₁ : Fsys} {ind j y : Nat} {s₂ : Fsys}, indirect (s₁.data ind) j = 0 → bmapEntry ind j s₁ = .ok (y, s₂) →
      0 < s₁.free.card := by
    intro s₁ ind j y s₂ h0 hrun
    obtain ⟨a, s₃, ha, hrun⟩ := bind_ok.1 hrun
    obtain ⟨rfl, rfl⟩ := bread_inv ha
    rw [if_neg (not_not.2 h0)] at hrun
    obtain ⟨b, s₅, hb, -⟩ := bind_ok.1 hrun
    exact Finset.card_pos.2 ⟨b, balloc_free hb⟩
  by_cases hk : k.val < nDirect
  · rw [bmap, dif_pos hk] at h
    have hslot : slotAddr s.data (D n) (some k) = (s.icache i).d.addrs ⟨k, by omega⟩ := by rw [slotAddr, dif_pos hk, haddr]
    rw [need, hslot, if_neg (show ¬(nDirect ≤ k.val ∧ slotAddr s.data (D n) none = 0) by omega), Nat.add_zero]
    split
    · next h0 =>
      obtain ⟨b, hb, -⟩ := hdirect h0 h
      exact Finset.card_pos.2 ⟨b, hb⟩
    · exact Nat.zero_le _
  · rw [bmap, dif_neg hk, if_pos (Fin.sub_nDirect_lt k hk)] at h
    obtain ⟨ind, s₁, hind, h⟩ := bind_ok.1 h
    have hnone : slotAddr s.data (D n) none = (s.icache i).d.addrs (Fin.last nDirect) := by rw [slotAddr, haddr]
    by_cases h0 : (s.icache i).d.addrs (Fin.last nDirect) = 0
    · have hpos : 0 < s.free.card := by
        obtain ⟨b, hb, -⟩ := hdirect h0 hind
        exact Finset.card_pos.2 ⟨b, hb⟩
      obtain ⟨y, hy, hrun⟩ := bmapDirect_absent hg hpos h0
      rw [hrun] at hind
      cases hind
      have hzero : indirect ((s.take ind).data ind) (k - nDirect) = 0 := by
        rw [Fsys.take_data, update_self]
        exact indirect_zero _
      have hleft := hentry (by exact hzero) h
      have hcard := Fsys.take_card hy
      change 0 < (s.take ind).free.card at hleft
      have hneed : need s.data (D n) k ≤ 2 := by rw [need]; split_ifs <;> omega
      omega
    · rw [bmapDirect_present h0] at hind
      cases hind
      rw [need, if_neg (show ¬(nDirect ≤ k.val ∧ slotAddr s.data (D n) none = 0) from fun hc => h0 (hnone ▸ hc.2)), Nat.add_zero]
      split
      · next hk0 =>
        rw [slotAddr, dif_neg hk, ← haddr, if_neg h0] at hk0
        exact hentry hk0 h
      · exact Nat.zero_le _

end Bmap

end DemandPaging.FileSys
