/-
The blocks an inode refers to: its direct blocks, its indirect block and the blocks that one lists.
Where no block is referred to twice, each way of adding a block changes one reference, and no reference
or content of another inode.
-/
import DemandPaging.FileSys.Inode
import DemandPaging.Lib.Holding

namespace DemandPaging.FileSys

open Function Bytes

/-- The number of blocks of a file. -/
def nblk (size : Nat) : Nat := (size + bSize - 1) / bSize

/-- A reference of an inode: to a block of its contents, or to its indirect block. -/
abbrev Slot := Option (Fin maxFile)

/-- The block address in a slot. -/
def slotAddr (data : Nat → Block) (d : Dinode) : Slot → Nat
  | none => d.addrs (Fin.last nDirect)
  | some bn =>
    if h : bn.val < nDirect then d.addrs ⟨bn, by omega⟩
    else if d.addrs (Fin.last nDirect) = 0 then 0
    else indirect (data (d.addrs (Fin.last nDirect))) (bn - nDirect)

/-- A block address, null for zero. -/
def addr? (a : Nat) : Option Nat := if a = 0 then none else some a

theorem addr?_eq_some {a b : Nat} : addr? a = some b ↔ a = b ∧ b ≠ 0 := by
  unfold addr?
  split
  · next h => simp [h]; rintro rfl; rfl
  · next h => simp; rintro rfl; exact h

theorem addr?_eq_none {a : Nat} : addr? a = none ↔ a = 0 := by
  simp [addr?]

/-- The address of block `bn` of the contents. -/
def blockAddr (data : Nat → Block) (d : Dinode) (bn : Nat) : Nat :=
  if h : bn < maxFile then slotAddr data d (some ⟨bn, h⟩) else 0

/-- A file has exactly the blocks that its size asks for. -/
structure Shape (data : Nat → Block) (d : Dinode) : Prop where
  size : d.size ≤ maxFileBytes
  blocks : ∀ bn : Fin maxFile, slotAddr data d (some bn) ≠ 0 ↔ bn.val < nblk d.size
  ind : slotAddr data d none ≠ 0 ↔ nDirect < nblk d.size

/-- No block is referred to twice by the inodes in `A`, and only used ones are. -/
abbrev Held (A : Nat → Prop) (D : Nat → Dinode) (data : Nat → Block) (used : Nat → Prop) : Prop :=
  Holding A (fun i s => addr? (slotAddr data (D i) s)) used

/-! ## Slots -/

section Slots

variable {data : Nat → Block} {d : Dinode} {s : Slot} {x y z : Nat} {k : Fin maxFile}

theorem Fin.sub_nDirect_lt (k : Fin maxFile) (h : ¬k.val < nDirect) : k.val - nDirect < nIndirect := by
  have := k.isLt
  simp only [maxFile, nDirect, nIndirect] at *
  omega

theorem slotAddr_size (size : Nat) : slotAddr data { d with size } s = slotAddr data d s := by
  cases s <;> rfl

theorem slotAddr_frame {v : Block} (h : d.addrs (Fin.last nDirect) = z → z = 0) :
    slotAddr (update data z v) d s = slotAddr data d s := by
  cases s with
  | none => rfl
  | some bn =>
    simp only [slotAddr]
    by_cases hb : bn.val < nDirect
    · rw [dif_pos hb, dif_pos hb]
    by_cases h0 : d.addrs (Fin.last nDirect) = 0
    · simp only [h0, if_true]
    · have hne : d.addrs (Fin.last nDirect) ≠ z := fun e => h0 (e.trans (h e))
      rw [update_of_ne hne]

/-- Setting a direct block. -/
theorem slotAddr_direct (hk : k.val < nDirect) :
    slotAddr data { d with addrs := update d.addrs ⟨k, by omega⟩ x } s = if s = some k then x else slotAddr data d s := by
  have hlast : update d.addrs ⟨k, by omega⟩ x (Fin.last nDirect) = d.addrs (Fin.last nDirect) :=
    update_of_ne (by simp [Fin.ext_iff]; omega) ..
  cases s with
  | none => simp only [slotAddr, hlast]; simp
  | some j =>
    simp only [slotAddr, hlast, Option.some.injEq]
    by_cases hj : j.val < nDirect
    · by_cases hjk : j = k
      · subst hjk
        rw [dif_pos hj, if_pos rfl, update_self]
      · have hne : (⟨j.val, by omega⟩ : Fin (nDirect + 1)) ≠ ⟨k, by omega⟩ :=
          fun e => hjk (Fin.ext (by simpa using congrArg Fin.val e))
        rw [dif_pos hj, if_neg hjk, dif_pos hj, update_of_ne hne]
    · have hjk : j ≠ k := fun e => hj (e ▸ hk)
      rw [dif_neg hj, if_neg hjk, dif_neg hj]

/-- Setting the indirect block to one that lists nothing yet. -/
theorem slotAddr_indirect (h0 : d.addrs (Fin.last nDirect) = 0) (hy : ∀ j < nIndirect, indirect (data y) j = 0) :
    slotAddr data { d with addrs := update d.addrs (Fin.last nDirect) y } s = if s = none then y else slotAddr data d s := by
  cases s with
  | none => simp [slotAddr]
  | some j =>
    simp only [slotAddr, update_self, h0]
    by_cases hj : j.val < nDirect
    · have hne : (⟨j.val, by omega⟩ : Fin (nDirect + 1)) ≠ Fin.last nDirect := by
        simp [Fin.ext_iff]; omega
      rw [dif_pos hj, dif_pos hj, update_of_ne hne]
      simp
    · rw [dif_neg hj, dif_neg hj, hy _ (Fin.sub_nDirect_lt j hj)]
      simp

theorem indirect_zero (j : Nat) : indirect (fun _ => 0) j = 0 := by
  have hbyte : ∀ o, byteAt (fun _ => 0 : Block) o = 0 := fun o => by unfold byteAt; split <;> rfl
  simp [indirect, getLe, slice, hbyte, leVal, List.range, List.range.loop]

theorem indirect_putLe {b : Block} {j k : Nat} (hj : j < nIndirect) (hx : x < wordSize) :
    indirect (putLe b (4 * j) 4 x) k = if k = j then x else indirect b k := by
  split
  · next h => subst h; exact getLe_putLe b (by simp only [bSize, nIndirect] at *; omega) hx
  · exact getLe_putLe_of_disjoint b (by omega)

/-- Setting an entry of the indirect block. -/
theorem slotAddr_entry (h0 : d.addrs (Fin.last nDirect) ≠ 0) (hk : ¬k.val < nDirect) (hx : x < wordSize) :
    slotAddr (update data (d.addrs (Fin.last nDirect)) (putLe (data (d.addrs (Fin.last nDirect))) (4 * (k - nDirect)) 4 x)) d s =
      if s = some k then x else slotAddr data d s := by
  cases s with
  | none => simp [slotAddr]
  | some j =>
    simp only [slotAddr, Option.some.injEq, if_neg h0, update_self]
    by_cases hj : j.val < nDirect
    · have hne : j ≠ k := fun e => hk (e ▸ hj)
      rw [dif_pos hj, if_neg hne, dif_pos hj]
    · rw [dif_neg hj, dif_neg hj, indirect_putLe (Fin.sub_nDirect_lt k hk) hx]
      have : j.val - nDirect = k.val - nDirect ↔ j = k := by
        rw [Fin.ext_iff]; omega
      simp only [this]

end Slots

/-! ## References -/

section References

variable {A : Nat → Prop} {D : Nat → Dinode} {data : Nat → Block} {used : Nat → Prop} {i j x y z : Nat} {k : Fin maxFile}
  {s t : Slot} {v : Block}

theorem Held.used_of (h : Held A D data used) (hi : A i) (hs : slotAddr data (D i) s ≠ 0) : used (slotAddr data (D i) s) :=
  h.used i s _ hi (addr?_eq_some.2 ⟨rfl, hs⟩)

theorem Held.eq_of (h : Held A D data used) (hi : A i) (hj : A j) (hs : slotAddr data (D i) s ≠ 0)
    (he : slotAddr data (D i) s = slotAddr data (D j) t) : i = j ∧ s = t :=
  h.inj i j s t _ hi hj (addr?_eq_some.2 ⟨rfl, hs⟩) (addr?_eq_some.2 ⟨he.symm, hs⟩)

/-- What a change keeps: the block addresses of each file, and what the blocks hold. -/
def Keeps (A : Nat → Prop) (D : Nat → Dinode) (data : Nat → Block) (D' : Nat → Dinode) (data' : Nat → Block) : Prop :=
  ∀ j, A j → ∀ k : Fin maxFile, slotAddr data (D j) (some k) ≠ 0 →
    slotAddr data' (D' j) (some k) = slotAddr data (D j) (some k) ∧
      data' (slotAddr data (D j) (some k)) = data (slotAddr data (D j) (some k))

theorem Keeps.refl : Keeps A D data D data := fun _ _ _ _ => ⟨rfl, rfl⟩

theorem Keeps.trans {D' D'' : Nat → Dinode} {data' data'' : Nat → Block} (h : Keeps A D data D' data')
    (h' : Keeps A D' data' D'' data'') : Keeps A D data D'' data'' := by
  intro j hj k hk
  obtain ⟨h1, h2⟩ := h j hj k hk
  obtain ⟨h3, h4⟩ := h' j hj k (by rw [h1]; exact hk)
  rw [h1] at h3 h4
  exact ⟨h3, h4.trans h2⟩

/-- A block that nobody uses is no file's indirect block. -/
theorem Held.not_indirect (h : Held A D data used) (hj : A j) (hx : ¬used x) :
    (D j).addrs (Fin.last nDirect) = x → x = 0 := by
  rintro rfl
  by_contra h0
  exact hx (h.used_of (s := none) hj h0)

/-- Writing to a block that nobody uses changes no reference. -/
theorem Held.scratch (h : Held A D data used) (hx : ¬used x) : Held A D (update data x v) used ∧ Keeps A D data D (update data x v) := by
  have hslot : ∀ j t, A j → slotAddr (update data x v) (D j) t = slotAddr data (D j) t :=
    fun j t hj => slotAddr_frame (h.not_indirect hj hx)
  refine ⟨h.congr fun j t hj => by rw [hslot j t hj], fun j hj k hk => ⟨hslot j _ hj, update_of_ne ?_ ..⟩⟩
  rintro rfl
  exact hx (h.used_of hj hk)

/-- Putting an unused block into one slot of a file, in whichever way. -/
theorem Held.put (h : Held A D data used) (hi : A i) (hx : ¬used x) (hx0 : x ≠ 0) {d' : Dinode} {data' : Nat → Block}
    (hslot : ∀ t, slotAddr data' d' t = if t = s then x else slotAddr data (D i) t)
    (hother : ∀ j t, A j → j ≠ i → slotAddr data' (D j) t = slotAddr data (D j) t) :
    Held A (update D i d') data' fun c => used c ∨ c = x := by
  refine h.take (i := i) (s := s) hx ?_ fun j t hj hne => ?_
  · rw [update_self, hslot, if_pos rfl]
    exact addr?_eq_some.2 ⟨rfl, hx0⟩
  · by_cases hji : j = i
    · subst hji
      have hts : t ≠ s := fun e => hne ⟨rfl, e⟩
      rw [update_self, hslot, if_neg hts]
    · rw [update_of_ne hji, hother j t hj hji]

theorem Held.putDirect (h : Held A D data used) (hi : A i) (hx : ¬used x) (hx0 : x ≠ 0) (hk : k.val < nDirect)
    (hfree : slotAddr data (D i) (some k) = 0) :
    Held A (update D i { D i with addrs := update (D i).addrs ⟨k, by omega⟩ x }) data (fun c => used c ∨ c = x) ∧
      Keeps A D data (update D i { D i with addrs := update (D i).addrs ⟨k, by omega⟩ x }) data := by
  refine ⟨h.put hi hx hx0 (fun t => slotAddr_direct hk) fun _ _ _ _ => rfl, fun j hj l hl => ⟨?_, rfl⟩⟩
  by_cases hji : j = i
  · subst hji
    have hlk : some l ≠ some k := fun e => hl (by rw [e]; exact hfree)
    rw [update_self, slotAddr_direct hk, if_neg hlk]
  · rw [update_of_ne hji]

theorem Held.putIndirect (h : Held A D data used) (hi : A i) (hy : ¬used y) (hy0 : y ≠ 0)
    (hfree : (D i).addrs (Fin.last nDirect) = 0) (hzero : ∀ j < nIndirect, indirect (data y) j = 0) :
    Held A (update D i { D i with addrs := update (D i).addrs (Fin.last nDirect) y }) data (fun c => used c ∨ c = y) ∧
      Keeps A D data (update D i { D i with addrs := update (D i).addrs (Fin.last nDirect) y }) data := by
  refine ⟨h.put hi hy hy0 (fun t => slotAddr_indirect hfree hzero) fun _ _ _ _ => rfl, fun j hj l hl => ⟨?_, rfl⟩⟩
  by_cases hji : j = i
  · subst hji
    rw [update_self, slotAddr_indirect hfree hzero, if_neg (by simp)]
  · rw [update_of_ne hji]

theorem Held.putEntry (h : Held A D data used) (hi : A i) (hx : ¬used x) (hx0 : x ≠ 0) (hxw : x < wordSize) (hk : ¬k.val < nDirect)
    (hind : (D i).addrs (Fin.last nDirect) = y) (hy0 : y ≠ 0) (hfree : slotAddr data (D i) (some k) = 0) :
    Held A D (update data y (putLe (data y) (4 * (k - nDirect)) 4 x)) (fun c => used c ∨ c = x) ∧
      Keeps A D data D (update data y (putLe (data y) (4 * (k - nDirect)) 4 x)) := by
  subst hind
  have hself : ∀ t, slotAddr (update data ((D i).addrs (Fin.last nDirect))
      (putLe (data ((D i).addrs (Fin.last nDirect))) (4 * (k - nDirect)) 4 x)) (D i) t =
        if t = some k then x else slotAddr data (D i) t := fun t => slotAddr_entry hy0 hk hxw
  -- another file has another indirect block
  have hother : ∀ j t, A j → j ≠ i → ∀ v, slotAddr (update data ((D i).addrs (Fin.last nDirect)) v) (D j) t = slotAddr data (D j) t := by
    refine fun j t hj hji v => slotAddr_frame fun e => ?_
    by_contra h0
    exact hji (h.eq_of (s := none) (t := none) hj hi (by rw [slotAddr, e]; exact h0) e).1
  refine ⟨?_, fun j hj l hl => ⟨?_, update_of_ne (fun e => ?_) ..⟩⟩
  · have := h.put hi hx hx0 hself fun j t hj hji => hother j t hj hji _
    rwa [update_eq_self] at this
  · by_cases hji : j = i
    · subst hji
      have hlk : some l ≠ some k := fun e => hl (by rw [e]; exact hfree)
      rw [hself, if_neg hlk]
    · rw [hother j _ hj hji]
  · have := (h.eq_of (t := none) hj hi hl e).2
    cases this

end References

/-! ## Contents -/

/-- A byte of a file. -/
def fileByte (data : Nat → Block) (d : Dinode) (off : Nat) : UInt8 := byteAt (data (blockAddr data d (off / bSize))) (off % bSize)

/-- The bytes of a file. -/
def contents (data : Nat → Block) (d : Dinode) : List UInt8 := (List.range d.size).map (fileByte data d)

section Contents

variable {A : Nat → Prop} {D D' : Nat → Dinode} {data data' : Nat → Block} {used used' : Nat → Prop} {d : Dinode} {i j x off : Nat}
  {k : Fin maxFile} {s t : Slot}

@[simp] theorem length_contents : (contents data d).length = d.size := by simp [contents]

theorem take_drop_contents {a n : Nat} (h : a + n ≤ d.size) :
    ((contents data d).drop a).take n = (List.range n).map fun o => fileByte data d (a + o) := by
  refine List.ext_getElem (by simp; omega) fun i hi hi' => ?_
  simp [contents]

theorem nblk_le {size : Nat} (h : size ≤ maxFileBytes) : nblk size ≤ maxFile := by
  simp only [nblk, maxFileBytes, bSize, maxFile, nDirect, nIndirect] at *
  omega

theorem lt_nblk {size : Nat} (h : off < size) : off / bSize < nblk size := by
  simp only [nblk, bSize] at *
  omega

theorem blockAddr_lt (h : off < maxFile) : blockAddr data d off = slotAddr data d (some ⟨off, h⟩) := dif_pos h

/-- A byte within the size of a file lies in one of its blocks. -/
theorem Shape.block_of_lt (h : Shape data d) (hoff : off < d.size) :
    ∃ k : Fin maxFile, k.val = off / bSize ∧ slotAddr data d (some k) ≠ 0 ∧
      fileByte data d off = byteAt (data (slotAddr data d (some k))) (off % bSize) := by
  have hk : off / bSize < maxFile := (lt_nblk hoff).trans_le (nblk_le h.size)
  refine ⟨⟨off / bSize, hk⟩, rfl, (h.blocks _).2 (lt_nblk hoff), ?_⟩
  rw [fileByte, blockAddr_lt hk]

theorem Keeps.fileByte (h : Keeps A D data D' data') (hj : A j) (hs : Shape data (D j)) (hoff : off < (D j).size) :
    fileByte data' (D' j) off = fileByte data (D j) off := by
  obtain ⟨k, hk, hne, hb⟩ := hs.block_of_lt hoff
  obtain ⟨h1, h2⟩ := h j hj k hne
  have hlt : off / bSize < maxFile := hk ▸ k.isLt
  have hkk : (⟨off / bSize, hlt⟩ : Fin maxFile) = k := Fin.ext hk.symm
  rw [hb, FileSys.fileByte, blockAddr_lt hlt, hkk, h1, h2]

theorem Keeps.contents (h : Keeps A D data D' data') (hj : A j) (hs : Shape data (D j)) (hsize : (D' j).size = (D j).size) :
    contents data' (D' j) = contents data (D j) := by
  rw [FileSys.contents, FileSys.contents, hsize]
  exact List.map_congr_left fun off hoff => h.fileByte hj hs (List.mem_range.1 hoff)

/-- Block `k` of file `i` has been looked up, and added where the file had none. -/
structure Mapped (A : Nat → Prop) (D : Nat → Dinode) (data : Nat → Block) (i : Nat) (k : Fin maxFile)
    (D' : Nat → Dinode) (data' : Nat → Block) (used' : Nat → Prop) (x : Nat) : Prop where
  held : Held A D' data' used'
  keeps : Keeps A D data D' data'
  addr : slotAddr data' (D' i) (some k) = x
  ne : x ≠ 0
  slots : ∀ t, slotAddr data' (D' i) t ≠ 0 ↔ slotAddr data (D i) t ≠ 0 ∨ t = some k ∨ t = none ∧ nDirect ≤ k.val
  self : ∃ a, D' i = { D i with addrs := a }
  other : ∀ j, A j → j ≠ i → D' j = D j ∧ ∀ t, slotAddr data' (D j) t = slotAddr data (D j) t

/-- A block that was there already. -/
theorem Mapped.present (h : Held A D data used) (hs : Shape data (D i)) (hx : slotAddr data (D i) (some k) ≠ 0) :
    Mapped A D data i k D data used (slotAddr data (D i) (some k)) := by
  refine ⟨h, .refl, rfl, hx, fun t => ⟨.inl, ?_⟩, ⟨_, rfl⟩, fun _ _ _ => ⟨rfl, fun _ => rfl⟩⟩
  rintro (ht | rfl | ⟨rfl, hk⟩)
  · exact ht
  · exact hx
  · exact hs.ind.2 (hk.trans_lt ((hs.blocks k).1 hx))

/-- A direct block is added. -/
theorem Mapped.direct (h : Held A D data used) (hi : A i) (hx : ¬used x) (hx0 : x ≠ 0) (hk : k.val < nDirect)
    (hfree : slotAddr data (D i) (some k) = 0) :
    Mapped A D data i k (update D i { D i with addrs := update (D i).addrs ⟨k, by omega⟩ x }) data
      (fun c => used c ∨ c = x) x := by
  obtain ⟨hheld, hkeeps⟩ := h.putDirect hi hx hx0 hk hfree
  refine ⟨hheld, hkeeps, ?_, hx0, fun t => ?_, ⟨_, update_self ..⟩, fun j _ hji => ⟨update_of_ne hji .., fun _ => rfl⟩⟩
  · rw [update_self, slotAddr_direct hk, if_pos rfl]
  · rw [update_self, slotAddr_direct hk]
    by_cases ht : t = some k
    · simp [ht, hx0]
    · simp [ht, not_le.2 hk]

/-- An entry of the indirect block is added. -/
theorem Mapped.entry (h : Held A D data used) (hi : A i) (hx : ¬used x) (hx0 : x ≠ 0) (hxw : x < wordSize) (hk : ¬k.val < nDirect)
    {y : Nat} (hind : (D i).addrs (Fin.last nDirect) = y) (hy0 : y ≠ 0) (hfree : slotAddr data (D i) (some k) = 0) :
    Mapped A D data i k D (update data y (putLe (data y) (4 * (k - nDirect)) 4 x)) (fun c => used c ∨ c = x) x := by
  obtain ⟨hheld, hkeeps⟩ := h.putEntry hi hx hx0 hxw hk hind hy0 hfree
  subst hind
  refine ⟨hheld, hkeeps, ?_, hx0, fun t => ?_, ⟨_, rfl⟩, fun j hj hji => ⟨rfl, fun t => slotAddr_frame fun e => ?_⟩⟩
  · rw [slotAddr_entry hy0 hk hxw, if_pos rfl]
  · rw [slotAddr_entry hy0 hk hxw]
    by_cases ht : t = some k
    · simp [ht, hx0]
    · rw [if_neg ht]
      refine ⟨.inl, ?_⟩
      rintro (h' | h' | ⟨rfl, -⟩)
      · exact h'
      · exact absurd h' ht
      · exact hy0
  · by_contra h0
    exact hji (h.eq_of (s := none) (t := none) hj hi (by rw [slotAddr, e]; exact h0) e).1

/-- The indirect block and its first entry are added. -/
theorem Mapped.indirect (h : Held A D data used) (hi : A i) {y : Nat} (hy : ¬used y) (hy0 : y ≠ 0) (hx : ¬(used x ∨ x = y)) (hx0 : x ≠ 0)
    (hxw : x < wordSize) (hk : ¬k.val < nDirect) (hfree : (D i).addrs (Fin.last nDirect) = 0)
    (hzero : ∀ j < nIndirect, indirect (data y) j = 0) :
    Mapped A D data i k (update D i { D i with addrs := update (D i).addrs (Fin.last nDirect) y })
      (update data y (putLe (data y) (4 * (k - nDirect)) 4 x)) (fun c => (used c ∨ c = y) ∨ c = x) x := by
  obtain ⟨hheld, hkeeps⟩ := h.putIndirect hi hy hy0 hfree hzero
  have hslot : ∀ t, slotAddr data (update D i { D i with addrs := update (D i).addrs (Fin.last nDirect) y } i) t =
      if t = none then y else slotAddr data (D i) t := fun t => by rw [update_self, slotAddr_indirect hfree hzero]
  have hk0 : slotAddr data (D i) (some k) = 0 := by rw [slotAddr, dif_neg hk, if_pos hfree]
  have hind : (update D i { D i with addrs := update (D i).addrs (Fin.last nDirect) y } i).addrs (Fin.last nDirect) = y := by
    simp
  have hm := Mapped.entry hheld hi hx hx0 hxw hk hind hy0 (by rw [hslot, if_neg (by simp)]; exact hk0)
  refine ⟨hm.held, hkeeps.trans hm.keeps, hm.addr, hm.ne, fun t => ?_, ⟨_, update_self ..⟩, fun j hj hji => ?_⟩
  · rw [hm.slots, hslot]
    have hk12 : nDirect ≤ k.val := not_lt.1 hk
    cases t <;> simp [hy0, hk12]
  · obtain ⟨h1, h2⟩ := hm.other j hj hji
    rw [update_of_ne hji] at h1 h2
    exact ⟨h1 ▸ update_of_ne hji .., h2⟩

/-- A block that nobody uses may be written to before. -/
theorem Mapped.of_scratch {y : Nat} {v : Block} (h : Held A D data used) (hi : A i) (hy : ¬used y)
    (hm : Mapped A D (update data y v) i k D' data' used' x) : Mapped A D data i k D' data' used' x := by
  have hslot : ∀ j t, A j → slotAddr (update data y v) (D j) t = slotAddr data (D j) t :=
    fun j t hj => slotAddr_frame (h.not_indirect hj hy)
  refine ⟨hm.held, h.scratch hy |>.2.trans hm.keeps, hm.addr, hm.ne, fun t => ?_, hm.self, fun j hj hji => ?_⟩
  · rw [hm.slots, hslot i t hi]
  · obtain ⟨h1, h2⟩ := hm.other j hj hji
    exact ⟨h1, fun t => by rw [h2, hslot j t hj]⟩

/-- Writing to a block of a file's contents changes no reference. -/
theorem Held.write (h : Held A D data used) (hi : A i) (hx : slotAddr data (D i) (some k) = x) (hx0 : x ≠ 0) {v : Block} (hj : A j) :
    slotAddr (update data x v) (D j) t = slotAddr data (D j) t := by
  refine slotAddr_frame fun e => ?_
  by_contra _
  have hne : slotAddr data (D i) (some k) ≠ 0 := by rw [hx]; exact hx0
  have := (h.eq_of (t := none) hi hj hne (hx.trans e.symm)).2
  cases this

theorem nblk_max {size n : Nat} (h2 : 0 < n) (h3 : off % bSize + n ≤ bSize) :
    nblk (max size (off + n)) = max (nblk size) (off / bSize + 1) := by
  simp only [nblk, bSize] at *
  omega

/-- Block `l` of the contents after a write to block `k` of file `i`. -/
theorem Mapped.block_write (h : Mapped A D data i k D' data' used' x) (hi : A i) (hj : A j) {l : Fin maxFile} (v : Block)
    (hl : slotAddr data' (D' j) (some l) ≠ 0) :
    update data' x v (slotAddr data' (D' j) (some l)) = if j = i ∧ l = k then v else data' (slotAddr data' (D' j) (some l)) := by
  split
  · next hc => rw [hc.1, hc.2, h.addr, update_self]
  · next hc =>
    refine update_of_ne (fun e => hc ?_) ..
    have := h.held.eq_of hj hi hl (e.trans h.addr.symm)
    exact ⟨this.1, Option.some.inj this.2⟩

/-- Some bytes are written to one block of a file, which grows by them where they reach past its end. -/
theorem Mapped.write (h : Mapped A D data i k D' data' used' x) (hi : A i) (hshape : ∀ j, A j → Shape data (D j))
    (hoff : off ≤ (D i).size) (hk : off / bSize = k.val) {p : List UInt8} (hp : 0 < p.length) (hfit : off % bSize + p.length ≤ bSize)
    {size : Nat} (hsize : size = max (D i).size (off + p.length)) :
    Held A (update D' i { D' i with size }) (update data' x (overwrite (data' x) (off % bSize) p)) used' ∧
      (∀ j, A j → Shape (update data' x (overwrite (data' x) (off % bSize) p)) (update D' i { D' i with size } j)) ∧
      contents (update data' x (overwrite (data' x) (off % bSize) p)) { D' i with size } = writeAt (contents data (D i)) off p ∧
      ∀ j, A j → j ≠ i → contents (update data' x (overwrite (data' x) (off % bSize) p)) (D' j) = contents data (D j) := by
  generalize hv : overwrite (data' x) (off % bSize) p = v
  have hself : ∀ t, slotAddr (update data' x v) { D' i with size } t = slotAddr data' (D' i) t := fun t => by
    rw [slotAddr_size, h.held.write hi h.addr h.ne hi]
  have hother : ∀ j t, A j → slotAddr (update data' x v) (D' j) t = slotAddr data' (D' j) t := fun j t hj =>
    h.held.write hi h.addr h.ne hj
  have hnblk : nblk size = max (nblk (D i).size) (k.val + 1) := by rw [hsize, nblk_max hp hfit, hk]
  have hkle : k.val ≤ nblk (D i).size := by
    rw [← hk]; simp only [nblk, bSize] at *; omega
  refine ⟨h.held.congr fun j t hj => ?_, fun j hj => ?_, ?_, fun j hj hji => ?_⟩
  · by_cases hji : j = i
    · subst hji; rw [update_self, hself]
    · rw [update_of_ne hji, hother j t hj]
  · by_cases hji : j = i
    · subst hji
      rw [update_self]
      refine ⟨?_, fun l => ?_, ?_⟩
      · have := k.isLt
        have := (hshape j hj).size
        simp only [maxFileBytes, bSize, maxFile, nDirect, nIndirect] at *
        omega
      · rw [hself, h.slots, (hshape j hj).blocks l]
        simp only [Option.some.injEq, reduceCtorEq, false_and, or_false, hnblk, Fin.ext_iff]
        omega
      · rw [hself, h.slots, (hshape j hj).ind]
        simp only [reduceCtorEq, true_and, false_or, hnblk]
        omega
    · obtain ⟨hD, hslot⟩ := h.other j hj hji
      have hs := hshape j hj
      rw [update_of_ne hji]
      refine ⟨by rw [hD]; exact hs.size, fun l => ?_, ?_⟩
      · rw [hother j _ hj, hD, hslot]; exact hs.blocks l
      · rw [hother j _ hj, hD, hslot]; exact hs.ind
  · refine List.ext_getElem ?_ fun o ho ho' => ?_
    · rw [length_writeAt (by simpa using hoff)]
      simp [hsize]
    · have ho : o < size := by simpa using ho
      have hmax : o / bSize < maxFile := by
        have := k.isLt
        have := (hshape i hi).size
        simp only [maxFileBytes, bSize, maxFile, nDirect, nIndirect] at *
        omega
      have hne : slotAddr data' (D' i) (some ⟨o / bSize, hmax⟩) ≠ 0 := by
        rw [h.slots, (hshape i hi).blocks]
        simp only [Option.some.injEq, reduceCtorEq, false_and, or_false, Fin.ext_iff]
        have := lt_nblk ho
        omega
      rw [getElem_writeAt (by simpa using hoff)]
      simp only [contents, List.getElem_map, List.getElem_range]
      rw [fileByte, blockAddr_lt hmax, hself, h.block_write hi hi v hne]
      -- bytes outside what is written lie in the file already
      have hold : o < (D i).size → fileByte data (D i) o = byteAt (data' (slotAddr data' (D' i) (some ⟨o / bSize, hmax⟩))) (o % bSize) := by
        intro hlt
        rw [← h.keeps.fileByte hi (hshape i hi) hlt, fileByte, blockAddr_lt hmax]
      have hget : o < (D i).size → ((List.range (D i).size).map (fileByte data (D i))).getD o 0 = fileByte data (D i) o := by
        intro hlt
        simp [List.getD_eq_getElem?_getD, hlt]
      by_cases hin : off ≤ o ∧ o < off + p.length
      · have hblk : (⟨o / bSize, hmax⟩ : Fin maxFile) = k := by
          rw [Fin.ext_iff, ← hk]; simp only [bSize] at *; omega
        have hmod : o % bSize - off % bSize = o - off := by simp only [bSize] at *; omega
        rw [if_pos ⟨rfl, hblk⟩, if_pos hin, ← hv, byteAt_overwrite,
          if_pos ⟨by simp only [bSize] at *; omega, Nat.mod_lt _ (by decide)⟩, hmod]
        simp only [List.getD_eq_getElem?_getD]
        rw [List.getElem?_eq_getElem (by omega)]
        rfl
      · have hlt : o < (D i).size := by omega
        rw [if_neg hin, hget hlt, hold hlt]
        split
        · next hc =>
          have hblk : o / bSize = k.val := congrArg Fin.val hc.2
          rw [← hv, byteAt_overwrite, hc.2, h.addr]
          split
          · next hr =>
            rw [List.getD_eq_getElem?_getD, List.getElem?_eq_none (by simp only [bSize] at *; omega), Option.getD_none]
          · rfl
        · rfl
  · rw [← h.keeps.contents hj (hshape j hj) (by rw [(h.other j hj hji).1])]
    have hs : Shape data' (D' j) := by
      obtain ⟨hD, hslot⟩ := h.other j hj hji
      have hs := hshape j hj
      rw [hD]
      exact ⟨hs.size, fun l => by rw [hslot]; exact hs.blocks l, by rw [hslot]; exact hs.ind⟩
    refine List.map_congr_left fun o ho => ?_
    obtain ⟨l, hl, hne, hb⟩ := hs.block_of_lt (List.mem_range.1 ho)
    have hmax : o / bSize < maxFile := hl ▸ l.isLt
    have hll : (⟨o / bSize, hmax⟩ : Fin maxFile) = l := Fin.ext hl.symm
    rw [hb, fileByte, blockAddr_lt hmax, hll, hother j _ hj, h.block_write hi hj v hne, if_neg fun hc => hji hc.1]

end Contents

end DemandPaging.FileSys
