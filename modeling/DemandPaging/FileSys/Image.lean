/-
The image that `mkfs` builds: as long as the inodes fit the inode table, every file has the blocks its
size asks for, no block belongs to two files, and appending to a file adds the bytes to its contents and
to no other's. The last step rounds the size of the root directory and writes the bitmap.
-/
import DemandPaging.FileSys.Mkfs
import DemandPaging.FileSys.Tree

namespace DemandPaging.FileSys.Mkfs

open Function Bytes Outcome

/-! ## The image while it is built -/

/-- The inode table on the image. -/
def dino (m : Mkfs) (inum : Nat) : Dinode := getDinode (m.sect (mkSb.iblock inum)) (inum % ipb)

def Alloc (m : Mkfs) (inum : Nat) : Prop := 1 ≤ inum ∧ inum < m.freeinode

def Used (m : Mkfs) (b : Nat) : Prop := nMeta ≤ b ∧ b < m.freeblock

/-- The inodes that the inode table has room for. -/
abbrev maxInum : Nat := ipb * nInodeBlocks

/-- The image with `D` for its inode table. -/
structure Good (m : Mkfs) (D : Nat → Dinode) : Prop where
  nsect : m.nsect = fsSize
  lo : nMeta ≤ m.freeblock
  hi : m.freeblock ≤ fsSize
  inodes : m.freeinode ≤ maxInum
  held : Held m.Alloc D m.sect m.Used
  shape : ∀ j, m.Alloc j → Shape m.sect (D j)
  zero : ∀ b, m.freeblock ≤ b → m.sect b = fun _ => 0

/-- What a step leaves as it was. -/
structure Grows (m m' : Mkfs) : Prop where
  freeinode : m'.freeinode = m.freeinode
  nsect : m'.nsect = m.nsect
  freeblock : m.freeblock ≤ m'.freeblock
  table : ∀ b < nMeta, m'.sect b = m.sect b

variable {m m' : Mkfs} {D : Nat → Dinode} {d d' : Dinode} {i x off : Nat} {k : Fin maxFile}

theorem Grows.refl : Grows m m := ⟨rfl, rfl, le_rfl, fun _ _ => rfl⟩

theorem Grows.trans {m'' : Mkfs} (h : Grows m m') (h' : Grows m' m'') : Grows m m'' :=
  ⟨h'.freeinode.trans h.freeinode, h'.nsect.trans h.nsect, h.freeblock.trans h'.freeblock,
    fun b hb => (h'.table b hb).trans (h.table b hb)⟩

theorem Grows.alloc (h : Grows m m') : m'.Alloc = m.Alloc := by
  funext j
  rw [Alloc, Alloc, h.freeinode]

theorem nMeta_eq : nMeta = 59 := rfl

theorem iblock_eq (inum : Nat) : mkSb.iblock inum = inum / 8 + 32 := rfl

theorem inodestart_eq : mkSb.inodestart = 32 := rfl

theorem sector_eq {b : Nat} (h : b < 2 ^ 23) : sector b = b := Nat.mod_eq_of_lt h

theorem used_succ (h : nMeta ≤ m.freeblock) (h' : m'.freeblock = m.freeblock + 1) :
    m'.Used = fun c => m.Used c ∨ c = m.freeblock := by
  funext c
  rw [eq_iff_iff, Used, Used, h']
  omega

theorem used_succ_succ (h : nMeta ≤ m.freeblock) (h' : m'.freeblock = m.freeblock + 2) :
    m'.Used = fun c => (m.Used c ∨ c = m.freeblock) ∨ c = m.freeblock + 1 := by
  funext c
  rw [eq_iff_iff, Used, Used, h']
  omega

theorem rsect_some {sec : Nat} {b : Block} (h : rsect sec m = some (b, m')) :
    sector sec < m.nsect ∧ b = m.sect (sector sec) ∧ m' = m := by
  unfold rsect at h
  split at h
  · next hlt => cases h; exact ⟨hlt, rfl, rfl⟩
  · cases h

/-! ## Looking up a block -/

theorem mapDirect_cases {k : Fin (nDirect + 1)} (h : mapDirect d k m = some ((d', x), m')) :
    (d.addrs k ≠ 0 ∧ d' = d ∧ x = d.addrs k ∧ m' = m) ∨
      (d.addrs k = 0 ∧ d' = { d with addrs := update d.addrs k x } ∧ x = m.freeblock ∧
        m' = { m with freeblock := m.freeblock + 1 }) := by
  unfold mapDirect at h
  split at h
  · next hne => cases h; exact .inl ⟨hne, rfl, rfl, rfl⟩
  · next h0 => cases h; exact .inr ⟨not_not.1 h0, rfl, rfl, rfl⟩

theorem mapEntry_cases {ind bn : Nat} (h : mapEntry ind bn m = some (x, m')) :
    sector ind < m.nsect ∧
      ((indirect (m.sect (sector ind)) bn ≠ 0 ∧ x = indirect (m.sect (sector ind)) bn ∧ m' = m) ∨
        (indirect (m.sect (sector ind)) bn = 0 ∧ x = m.freeblock ∧
          m' = { m with freeblock := m.freeblock + 1, nsect := max m.nsect (sector ind + 1),
                        sect := update m.sect (sector ind) (putLe (m.sect (sector ind)) (4 * bn) 4 m.freeblock) })) := by
  unfold mapEntry at h
  obtain ⟨b, m₁, hr, h⟩ := bind_some.1 h
  obtain ⟨hlt, rfl, rfl⟩ := rsect_some hr
  refine ⟨hlt, ?_⟩
  split at h
  · next hne => cases h; exact .inl ⟨hne, rfl, rfl⟩
  · next h0 => cases h; exact .inr ⟨not_not.1 h0, rfl, rfl⟩

/-- `iappend` finds block `k` of a file, or adds it. -/
theorem mapBlock_ok (h : Good m D) (hi : m.Alloc i) (hD : D i = { d with size := off }) (hmap : mapBlock d k m = some ((d', x), m')) :
    Mapped m.Alloc D m.sect i k (update D i { d' with size := off }) m'.sect m'.Used x ∧ Grows m m' ∧
      (m'.freeblock = m.freeblock ∨ m'.freeblock = x + 1 ∧ x ≤ m.freeblock + 1) ∧
      (∀ b, m'.freeblock ≤ b → m'.sect b = fun _ => 0) := by
  have hlo := h.lo
  have hfresh : ¬m.Used m.freeblock := fun hu => lt_irrefl _ hu.2
  have hfb0 : m.freeblock ≠ 0 := by rw [nMeta_eq] at hlo; omega
  have hkeep : update D i { d with size := off } = D := by rw [← hD, update_eq_self]
  unfold mapBlock at hmap
  split at hmap
  · next hk =>
    have hslot : slotAddr m.sect (D i) (some k) = d.addrs ⟨k, by omega⟩ := by rw [slotAddr, dif_pos hk, hD]
    rcases mapDirect_cases hmap with ⟨hne, rfl, rfl, rfl⟩ | ⟨h0, rfl, rfl, rfl⟩
    · refine ⟨?_, .refl, .inl rfl, h.zero⟩
      rw [hkeep, ← hslot]
      exact .present h.held (h.shape i hi) (by rw [hslot]; exact hne)
    · refine ⟨?_, ⟨rfl, rfl, Nat.le_succ _, fun _ _ => rfl⟩, .inr ⟨rfl, Nat.le_succ _⟩, fun b hb => h.zero b (by simp at hb; omega)⟩
      have hused : Used { m with freeblock := m.freeblock + 1 } = _ := used_succ hlo rfl
      have hm := Mapped.direct h.held hi hfresh hfb0 hk (hslot.trans h0)
      rw [hD] at hm
      rw [hused]
      exact hm
  · next hk =>
    obtain ⟨⟨d₁, ind⟩, m₁, hind, hmap⟩ := bind_some.1 hmap
    obtain ⟨x₁, m₂, hent, hmap⟩ := bind_some.1 hmap
    cases hmap
    obtain ⟨hsec, hent⟩ := mapEntry_cases hent
    rcases mapDirect_cases hind with ⟨hne, rfl, rfl, rfl⟩ | ⟨h0, rfl, rfl, rfl⟩
    · -- the indirect block is there
      have hindD : (D i).addrs (Fin.last nDirect) = d'.addrs (Fin.last nDirect) := by rw [hD]
      have hu : m₁.Used (d'.addrs (Fin.last nDirect)) := by
        rw [← hindD]
        exact h.held.used_of (s := none) hi (by rw [slotAddr, hindD]; exact hne)
      have hhi := h.hi
      have hsect : sector (d'.addrs (Fin.last nDirect)) = d'.addrs (Fin.last nDirect) := sector_eq (by
        have := hu.2
        simp only [fsSize] at hhi; omega)
      have hslot : slotAddr m₁.sect (D i) (some k) = indirect (m₁.sect (d'.addrs (Fin.last nDirect))) (k - nDirect) := by
        rw [slotAddr, dif_neg hk, hindD, if_neg hne]
      rw [hsect] at hsec hent
      rcases hent with ⟨hne', rfl, rfl⟩ | ⟨h0, rfl, rfl⟩
      · refine ⟨?_, .refl, .inl rfl, h.zero⟩
        rw [hkeep, ← hslot]
        exact .present h.held (h.shape i hi) (by rw [hslot]; exact hne')
      · refine ⟨?_, ⟨rfl, by simp only; omega, Nat.le_succ _, fun b hb => update_of_ne ?_ ..⟩, .inr ⟨rfl, Nat.le_succ _⟩,
          fun b hb => ?_⟩
        · rw [hkeep, used_succ hlo rfl]
          exact Mapped.entry h.held hi hfresh hfb0 (by simp only [fsSize, wordSize] at *; omega) hk hindD hne (hslot.trans h0)
        · have := hu.1
          omega
        · have := hu.2
          simp only at hb
          show update m₁.sect _ _ b = _
          rw [update_of_ne (by omega)]
          exact h.zero b (by omega)
    · -- a fresh indirect block lists nothing
      have hhi := h.hi
      have hsect : sector m.freeblock = m.freeblock := sector_eq (by simp only [fsSize] at hhi; omega)
      have hzero : m.sect m.freeblock = fun _ => 0 := h.zero _ le_rfl
      simp only [hsect, hzero, indirect_zero] at hsec hent
      rcases hent with ⟨hne', -⟩ | ⟨-, rfl, rfl⟩
      · exact absurd rfl hne'
      refine ⟨?_, ⟨rfl, by simp only; omega, by simp only; omega, fun b hb => update_of_ne ?_ ..⟩, .inr ⟨rfl, le_rfl⟩, fun b hb => ?_⟩
      · have hm := Mapped.indirect h.held hi hfresh hfb0 (x := m.freeblock + 1) (k := k) (by rw [Used]; omega) (by omega)
          (by simp only [fsSize, wordSize] at *; omega) hk (by rw [hD]; exact h0) (fun j _ => by rw [hzero, indirect_zero])
        rw [used_succ_succ hlo rfl]
        rw [hD, hzero] at hm
        exact hm
      · omega
      · simp only at hb
        show update m.sect _ _ b = _
        rw [update_of_ne (by omega)]
        exact h.zero b (by omega)

/-! ## Appending -/

/-- What appending `p` to file `i` does. -/
structure Appended (m : Mkfs) (D : Nat → Dinode) (i : Nat) (p : List UInt8) (m' : Mkfs) (D' : Nat → Dinode) : Prop where
  good : Good m' D'
  grows : Grows m m'
  self : contents m'.sect (D' i) = contents m.sect (D i) ++ p
  fields : (D' i).type = (D i).type ∧ (D' i).nlink = (D i).nlink ∧ (D' i).major = (D i).major ∧ (D' i).minor = (D i).minor
  other : ∀ j, j ≠ i → D' j = D j
  contents : ∀ j, m.Alloc j → j ≠ i → contents m'.sect (D j) = contents m.sect (D j)

theorem Appended.trans {m₁ m₂ : Mkfs} {D₁ D₂ : Nat → Dinode} {p q : List UInt8} (h : Appended m D i p m₁ D₁)
    (h' : Appended m₁ D₁ i q m₂ D₂) : Appended m D i (p ++ q) m₂ D₂ := by
  obtain ⟨f1, f2, f3, f4⟩ := h.fields
  obtain ⟨g1, g2, g3, g4⟩ := h'.fields
  refine ⟨h'.good, h.grows.trans h'.grows, by rw [h'.self, h.self, List.append_assoc],
    ⟨g1.trans f1, g2.trans f2, g3.trans f3, g4.trans f4⟩, fun j hj => (h'.other j hj).trans (h.other j hj), fun j ha hj => ?_⟩
  rw [← h.contents j ha hj, ← h.other j hj]
  exact h'.contents j (by rw [h.grows.alloc]; exact ha) hj

/-- One round of the loop of `iappend`. -/
theorem appendRound_ok (h : Good m D) (hi : m.Alloc i) (hD : D i = { d with size := off }) (hk : off / bSize = k.val)
    {m₁ : Mkfs} {buf : Block} {p : List UInt8} (hp : 0 < p.length) (hfit : off % bSize + p.length ≤ bSize)
    (hmap : mapBlock d k m = some ((d', x), m₁)) (hr : rsect x m₁ = some (buf, m₁)) :
    Appended m D i p { m₁ with nsect := max m₁.nsect (sector x + 1), sect := update m₁.sect (sector x) (overwrite buf (off % bSize) p) }
      (update D i { d' with size := off + p.length }) := by
  obtain ⟨hm, hgrow, hfb, hzero⟩ := mapBlock_ok h hi hD hmap
  obtain ⟨hlt, rfl, -⟩ := rsect_some hr
  have hux : m₁.Used x := by
    rw [← hm.addr]
    exact hm.held.used_of hi (by rw [hm.addr]; exact hm.ne)
  have hhi := h.hi
  have hsec : sector x = x := sector_eq (by
    have := hux.2
    simp only [fsSize] at hhi; omega)
  have hns := hgrow.nsect.trans h.nsect
  rw [hsec, hns] at hlt
  have hsize : off + p.length = max (D i).size (off + p.length) := by rw [hD]; simp
  have hDi : (update D i { d' with size := off } i) = { d' with size := off } := update_self ..
  obtain ⟨hheld, hshape, hself, hother⟩ := hm.write hi h.shape (by rw [hD]) hk hp hfit hsize
  rw [hDi, update_idem] at hheld hshape
  rw [hDi] at hself
  have halloc := hgrow.alloc
  obtain ⟨a, ha⟩ := hm.self
  rw [hDi, hD] at ha
  rw [hsec]
  refine ⟨⟨?_, ?_, ?_, ?_, ?_, ?_, fun b hb => ?_⟩, ⟨hgrow.freeinode, ?_, hgrow.freeblock, fun b hb => ?_⟩, ?_, ?_,
    fun j hj => update_of_ne hj .., fun j hj hji => ?_⟩
  · simp only [hns]; omega
  · exact h.lo.trans hgrow.freeblock
  · simp only
    simp only [fsSize] at *
    omega
  · rw [hgrow.freeinode]; exact h.inodes
  · show Held m₁.Alloc _ _ m₁.Used
    rw [halloc]; exact hheld
  · show ∀ j, m₁.Alloc j → _
    rw [halloc]; exact hshape
  · simp only at hb
    show update m₁.sect x _ b = _
    rw [update_of_ne (by have := hux.2; omega)]
    exact hzero b hb
  · simp only [hns, h.nsect]; omega
  · show update m₁.sect x _ b = _
    rw [update_of_ne (by have := hux.1; omega)]
    exact hgrow.table b hb
  · show FileSys.contents (update m₁.sect x _) (update D i _ i) = _
    rw [update_self, hself]
    have := writeAt_end (FileSys.contents m.sect (D i)) p
    rw [length_contents, hD] at this
    rw [hD]; exact this
  · rw [update_self, hD]
    simp only [Dinode.mk.injEq] at ha ⊢
    obtain ⟨h1, h2, h3, h4, -⟩ := ha
    exact ⟨h1, h4, h2, h3⟩
  · have := hother j hj hji
    rwa [update_of_ne hji] at this

theorem appendLoop_ok {off' : Nat} : ∀ {fuel off : Nat} {d : Dinode} {p : List UInt8} {m : Mkfs} {D : Nat → Dinode},
    Good m D → m.Alloc i → D i = { d with size := off } → appendLoop fuel d off p m = some ((d', off'), m') →
      Appended m D i p m' (update D i { d' with size := off' }) ∧ off' = off + p.length
  | _, off, d, [], m, D, h, _, hD, hrun => by
    unfold appendLoop at hrun
    cases hrun
    rw [← hD, update_eq_self]
    exact ⟨⟨h, .refl, by simp, ⟨rfl, rfl, rfl, rfl⟩, fun _ _ => rfl, fun _ _ _ => rfl⟩, rfl⟩
  | 0, _, _, _ :: _, _, _, _, _, _, hrun => by cases hrun
  | fuel + 1, off, d, a :: p, m, D, h, hi, hD, hrun => by
    simp only [appendLoop] at hrun
    split at hrun
    · cases hrun
    next hmax =>
    obtain ⟨⟨d₁, x⟩, m₁, hmap, hrun⟩ := bind_some.1 hrun
    obtain ⟨buf, m₂, hr, hrest⟩ := bind_some.1 hrun
    obtain ⟨-, -, rfl⟩ := rsect_some hr
    obtain ⟨_, m₃, hw, hrun⟩ := bind_some.1 hrest
    cases hw
    generalize hn : min (a :: p).length ((off / bSize + 1) * bSize - off) = n at hrun
    have hlen : ((a :: p).take n).length = n := by rw [List.length_take]; omega
    have hnpos : 0 < n := by
      rw [← hn, List.length_cons]; simp only [bSize]; omega
    have hoff : off - off / bSize * bSize = off % bSize := by simp only [bSize]; omega
    rw [hoff] at hrun
    have hround := appendRound_ok (k := ⟨off / bSize, not_le.1 hmax⟩) (p := (a :: p).take n) h hi hD rfl (by omega)
      (by rw [hlen]; simp only [bSize] at *; omega) hmap hr
    rw [hlen] at hround
    obtain ⟨hrest, rfl⟩ := appendLoop_ok hround.good (by rw [hround.grows.alloc]; exact hi) (update_self ..) hrun
    rw [update_idem] at hrest
    refine ⟨?_, ?_⟩
    · have := hround.trans hrest
      rwa [List.take_append_drop] at this
    · rw [Nat.add_assoc, ← hlen, ← List.length_append, hlen, List.take_append_drop]

/-! ## Storing an inode -/

theorem Good.congr {D' : Nat → Dinode} (h : Good m D) (hD : ∀ j, m.Alloc j → D' j = D j) : Good m D' :=
  ⟨h.nsect, h.lo, h.hi, h.inodes, h.held.congr fun j t hj => by rw [hD j hj], fun j hj => by rw [hD j hj]; exact h.shape j hj, h.zero⟩

/-- Blocks before the data are no file's. -/
theorem Good.scratch (h : Good m D) {z n : Nat} (hz : z < nMeta) (hn : n = m.nsect) (v : Block) :
    Good { m with nsect := n, sect := update m.sect z v } D ∧
      ∀ j, m.Alloc j → contents (update m.sect z v) (D j) = contents m.sect (D j) := by
  have hfree : ¬m.Used z := fun hu => absurd hu.1 (by omega)
  have hlo := h.lo
  obtain ⟨hheld, hkeeps⟩ := h.held.scratch (v := v) hfree
  have hslot : ∀ j t, m.Alloc j → slotAddr (update m.sect z v) (D j) t = slotAddr m.sect (D j) t :=
    fun j t hj => slotAddr_frame (h.held.not_indirect hj hfree)
  refine ⟨⟨hn.trans h.nsect, h.lo, h.hi, h.inodes, hheld, fun j hj => ?_, fun b hb => ?_⟩, fun j hj =>
    hkeeps.contents hj (h.shape j hj) rfl⟩
  · have hs := h.shape j hj
    exact ⟨hs.size, fun l => by rw [hslot j _ hj]; exact hs.blocks l, by rw [hslot j _ hj]; exact hs.ind⟩
  · simp only at hb
    show update m.sect z v b = _
    rw [update_of_ne (by omega)]
    exact h.zero b hb

theorem Good.addrs_lt (h : Good m D) (hi : m.Alloc i) (k : Fin (nDirect + 1)) : (D i).addrs k < wordSize := by
  by_cases h0 : (D i).addrs k = 0
  · rw [h0]; decide
  have hslot : ∃ s, slotAddr m.sect (D i) s = (D i).addrs k := by
    by_cases hk : k.val < nDirect
    · exact ⟨some ⟨k, hk.trans (by decide)⟩, by rw [slotAddr, dif_pos hk]⟩
    · have hlast : k = Fin.last nDirect := Fin.ext (by have := k.isLt; simp only [Fin.val_last]; omega)
      exact ⟨none, by rw [slotAddr, hlast]⟩
  obtain ⟨s, hs⟩ := hslot
  have hu := h.held.used_of (s := s) hi (by rw [hs]; exact h0)
  rw [hs] at hu
  have := hu.2
  have := h.hi
  simp only [fsSize, wordSize] at *
  omega

/-- The inode table after an inode has been stored. -/
theorem dino_putDinode (hd : d.Fits) {n j : Nat} :
    dino { m with nsect := n, sect := update m.sect (mkSb.iblock i) (putDinode (m.sect (mkSb.iblock i)) (i % ipb) d) } j =
      if j = i then d else dino m j := by
  rw [dino]
  simp only
  by_cases hji : j = i
  · subst hji
    rw [if_pos rfl, update_self, getDinode_putDinode (Nat.mod_lt _ (by decide)) hd]
  rw [if_neg hji]
  by_cases hb : mkSb.iblock j = mkSb.iblock i
  · have hslot : j % ipb ≠ i % ipb := by
      rw [iblock_eq, iblock_eq] at hb
      simp only [ipb]; omega
    rw [hb, update_self, getDinode_putDinode_ne hslot, dino, hb]
  · rw [update_of_ne hb, dino]

theorem sector_iblock (hi : i < maxInum) : sector (mkSb.iblock i) = mkSb.iblock i ∧ mkSb.iblock i < nMeta := by
  rw [iblock_eq, nMeta_eq]
  simp only [maxInum, nInodeBlocks, nInodes, ipb] at hi
  exact ⟨sector_eq (by omega), by omega⟩

theorem rinode_some (hi : i < maxInum) (h : rinode i m = some (d, m')) : d = m.dino i ∧ m' = m := by
  unfold rinode at h
  obtain ⟨b, m₁, hr, h⟩ := bind_some.1 h
  obtain ⟨-, rfl, rfl⟩ := rsect_some hr
  cases h
  rw [(sector_iblock hi).1]
  exact ⟨rfl, rfl⟩

theorem winode_some (hi : i < maxInum) {u : Unit} (h : winode i d m = some (u, m')) :
    mkSb.iblock i < m.nsect ∧ m' = { m with nsect := max m.nsect (mkSb.iblock i + 1),
                                            sect := update m.sect (mkSb.iblock i) (putDinode (m.sect (mkSb.iblock i)) (i % ipb) d) } := by
  have hsec := (sector_iblock hi).1
  unfold winode at h
  obtain ⟨b, m₁, hr, h⟩ := bind_some.1 h
  obtain ⟨hin, rfl, rfl⟩ := rsect_some hr
  cases h
  rw [hsec] at hin ⊢
  exact ⟨hin, rfl⟩

/-- Storing the inode that the table `D` has for `i`. -/
theorem winode_ok (h : Good m D) (hi : m.Alloc i) (hd : (D i).Fits) (hD : ∀ j < maxInum, j ≠ i → D j = m.dino j)
    (hrun : winode i (D i) m = some ((), m')) :
    Good m' m'.dino ∧ m'.freeinode = m.freeinode ∧ m'.freeblock = m.freeblock ∧ (∀ j < maxInum, m'.dino j = D j) ∧
      (∀ j, m.Alloc j → contents m'.sect (D j) = contents m.sect (D j)) ∧ (∀ b < mkSb.inodestart, m'.sect b = m.sect b) := by
  have him : i < maxInum := hi.2.trans_le h.inodes
  obtain ⟨hin, rfl⟩ := winode_some him hrun
  have hdino : ∀ j < maxInum, dino { m with nsect := max m.nsect (mkSb.iblock i + 1),
                                            sect := update m.sect (mkSb.iblock i) (putDinode (m.sect (mkSb.iblock i)) (i % ipb) (D i)) } j =
      D j := fun j hj => by
    rw [dino_putDinode hd]
    split
    · next hji => rw [hji]
    · next hji => exact (hD j hj hji).symm
  obtain ⟨hgood, hcont⟩ := h.scratch (sector_iblock him).2 (max_eq_left hin) (putDinode (m.sect (mkSb.iblock i)) (i % ipb) (D i))
  refine ⟨hgood.congr fun j hj => hdino j (hj.2.trans_le h.inodes), rfl, rfl, hdino, hcont, fun b hb => update_of_ne ?_ ..⟩
  rw [iblock_eq]
  rw [inodestart_eq] at hb
  omega

/-! ## Building files -/

/-- What one call of `iappend` does to the image. -/
structure Extended (m : Mkfs) (i : Nat) (p : List UInt8) (m' : Mkfs) : Prop where
  good : Good m' m'.dino
  freeinode : m'.freeinode = m.freeinode
  freeblock : m.freeblock ≤ m'.freeblock
  self : contents m'.sect (m'.dino i) = contents m.sect (m.dino i) ++ p
  type : (m'.dino i).type = (m.dino i).type
  nlink : (m'.dino i).nlink = (m.dino i).nlink
  dino : ∀ j < maxInum, j ≠ i → m'.dino j = m.dino j
  contents : ∀ j, m.Alloc j → j ≠ i → contents m'.sect (m.dino j) = contents m.sect (m.dino j)
  low : ∀ b < mkSb.inodestart, m'.sect b = m.sect b

theorem Extended.alloc {p : List UInt8} (h : Extended m i p m') : m'.Alloc = m.Alloc := by
  funext j
  rw [Alloc, Alloc, h.freeinode]

theorem Extended.trans {m₁ m₂ : Mkfs} {p q : List UInt8} (h : Extended m i p m₁) (h' : Extended m₁ i q m₂)
    (hm : Good m m.dino) : Extended m i (p ++ q) m₂ := by
  refine ⟨h'.good, h'.freeinode.trans h.freeinode, h.freeblock.trans h'.freeblock, by rw [h'.self, h.self, List.append_assoc],
    h'.type.trans h.type, h'.nlink.trans h.nlink, fun j hj hji => (h'.dino j hj hji).trans (h.dino j hj hji), fun j ha hji => ?_,
    fun b hb => (h'.low b hb).trans (h.low b hb)⟩
  rw [← h.contents j ha hji, ← h.dino j (ha.2.trans_le hm.inodes) hji]
  exact h'.contents j (by rw [h.alloc]; exact ha) hji

theorem iappend_ok {p : List UInt8} (h : Good m m.dino) (hi : m.Alloc i) (hrun : iappend i p m = some ((), m')) :
    Extended m i p m' := by
  have him : i < maxInum := hi.2.trans_le h.inodes
  unfold iappend at hrun
  obtain ⟨d, m₁, hr, hrest⟩ := bind_some.1 hrun
  obtain ⟨rfl, rfl⟩ := rinode_some him hr
  obtain ⟨⟨d, off⟩, m₂, hloop, hw⟩ := bind_some.1 hrest
  generalize hd₀ : m₁.dino i = d₀ at hloop
  obtain ⟨ha, -⟩ := appendLoop_ok h hi hd₀ hloop
  generalize hD : update m₁.dino i { d with size := off } = D at ha
  have hDi : { d with size := off } = D i := by rw [← hD, update_self]
  have htable : ∀ j < maxInum, m₂.dino j = m₁.dino j := fun j hj => by
    rw [dino, ha.grows.table _ (sector_iblock hj).2, dino]
  have hi₂ : m₂.Alloc i := by rw [ha.grows.alloc]; exact hi
  have hfits : (D i).Fits := by
    obtain ⟨f1, f2, f3, f4⟩ := ha.fields
    have hold : (m₁.dino i).Fits := Dinode.decode_fits _
    exact ⟨by rw [f1]; exact hold.type, by rw [f3]; exact hold.major, by rw [f4]; exact hold.minor, by rw [f2]; exact hold.nlink,
      (ha.good.shape i hi₂).size.trans_lt (by norm_num [wordSize, maxFile, nIndirect, bSize]), ha.good.addrs_lt hi₂⟩
  dsimp only at hw
  rw [hDi] at hw
  obtain ⟨hgood, hfi, hfb, hdino, hcont, hlow⟩ := winode_ok ha.good hi₂ hfits
    (fun j hj hji => (ha.other j hji).trans (htable j hj).symm) hw
  refine ⟨hgood, hfi.trans ha.grows.freeinode, ha.grows.freeblock.trans_eq hfb.symm, ?_, ?_, ?_, fun j hj hji => ?_, fun j hj hji => ?_,
    fun b hb => (hlow b hb).trans (ha.grows.table b (hb.trans (by rw [inodestart_eq, nMeta_eq]; decide)))⟩
  · rw [hdino i him, hcont i hi₂, ha.self]
  · rw [hdino i him, ha.fields.1]
  · rw [hdino i him, ha.fields.2.1]
  · rw [hdino j hj, ha.other j hji]
  · have := hcont j (by rw [ha.grows.alloc]; exact hj)
    rwa [ha.other j hji, ha.contents j hj hji] at this

/-- An inode without blocks is added. -/
theorem Good.newInode (h : Good m D) (hlt : m.freeinode < maxInum) (h0 : ∀ t, slotAddr m.sect d t = 0) (hsize : d.size = 0) :
    Good { m with freeinode := m.freeinode + 1 } (update D m.freeinode d) := by
  have hold : ∀ j, m.Alloc j → update D m.freeinode d j = D j := fun j hj => update_of_ne hj.2.ne ..
  have hcases : ∀ j, Alloc { m with freeinode := m.freeinode + 1 } j → m.Alloc j ∨ j = m.freeinode := fun j hj => by
    obtain ⟨h1, h2⟩ := hj
    simp only at h2
    rw [Alloc]
    omega
  refine ⟨h.nsect, h.lo, h.hi, hlt, (h.congr hold).held.owners fun j hj => ?_, fun j hj => ?_, h.zero⟩
  · refine (hcases j hj).imp_right ?_
    rintro rfl t
    rw [update_self, addr?_eq_none]
    exact h0 t
  · rcases hcases j hj with ha | rfl
    · rw [hold j ha]
      exact h.shape j ha
    · rw [update_self]
      exact ⟨by omega, fun bn => by simp [h0, hsize, nblk, bSize], by simp [h0, hsize, nblk, bSize]⟩

theorem ialloc_ok {type : Nat} (h : Good m m.dino) (hpos : 1 ≤ m.freeinode) (hlt : m.freeinode < maxInum) (ht : type < 2 ^ 16)
    (hrun : ialloc type m = some (i, m')) :
    i = m.freeinode ∧ Good m' m'.dino ∧ m'.freeinode = m.freeinode + 1 ∧ m'.freeblock = m.freeblock ∧
      m'.dino i = { Dinode.zero with type, nlink := 1 } ∧ (∀ j < maxInum, j ≠ i → m'.dino j = m.dino j) ∧
      (∀ j, m.Alloc j → contents m'.sect (m.dino j) = contents m.sect (m.dino j)) ∧
      (∀ b < mkSb.inodestart, m'.sect b = m.sect b) := by
  unfold ialloc at hrun
  obtain ⟨_, m₁, hget, h1⟩ := bind_some.1 hrun
  cases hget
  obtain ⟨_, m₂, hmod, h2⟩ := bind_some.1 h1
  cases hmod
  obtain ⟨_, m₃, hw, h3⟩ := bind_some.1 h2
  cases h3
  generalize hd : ({ Dinode.zero with type, nlink := 1 } : Dinode) = d at *
  have hgood := h.newInode (d := d) hlt (fun t => by rw [← hd]; cases t <;> simp [slotAddr, Dinode.zero]) (by rw [← hd]; rfl)
  generalize hD : update m.dino m.freeinode d = D at *
  have hDi : d = D m.freeinode := by rw [← hD, update_self]
  have hDj : ∀ j, j ≠ m.freeinode → D j = m.dino j := fun j hj => by rw [← hD, update_of_ne hj]
  have hfits : (D m.freeinode).Fits := by
    rw [← hDi, ← hd]
    have hzero : short 0 = 0 := by decide
    have hone : short 1 = 1 := by decide
    exact ⟨ht, hzero, hzero, hone, Nat.two_pow_pos _, fun _ => Nat.two_pow_pos _⟩
  rw [hDi] at hw
  obtain ⟨g, hfi, hfb, hdino, hcont, hlow⟩ := winode_ok hgood ⟨hpos, Nat.lt_succ_self _⟩ hfits (fun j _ hj => hDj j hj) hw
  refine ⟨rfl, g, hfi, hfb, by rw [hdino _ hlt, hDi], fun j hj hji => by rw [hdino j hj, hDj j hji], fun j hj => ?_, hlow⟩
  have := hcont j ⟨hj.1, Nat.lt_succ_of_lt hj.2⟩
  rwa [hDj j hj.2.ne] at this

end DemandPaging.FileSys.Mkfs
