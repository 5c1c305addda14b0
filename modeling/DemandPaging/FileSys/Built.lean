/-
The files on an image of `mkfs`: after each argument the root directory lists the files so far, and each
of them has the bytes that were read, as long as the inodes fit the inode table. From this it follows
for which lists of files the finished image is consistent.
-/
import DemandPaging.FileSys.Image

namespace DemandPaging.FileSys.Mkfs

open Function Bytes Outcome

variable {m m' : Mkfs} {i : Nat} {files : List Input} {f : Input}

/-! ## The files so far -/

/-- The entries of the root directory. -/
def rootEntries (files : List Input) : List Dirent :=
  ⟨rootIno, strncpy [46]⟩ :: ⟨rootIno, strncpy [46, 46]⟩ :: files.zipIdx.map fun (f, k) => ⟨k + 2, strncpy f.base⟩

/-- The image after the root directory and some files have been built. -/
structure Built (m : Mkfs) (files : List Input) : Prop where
  good : Good m m.dino
  freeinode : m.freeinode = files.length + 2
  root : contents m.sect (m.dino rootIno) = (rootEntries files).flatMap Dirent.encode
  rootType : (m.dino rootIno).type = tDir
  rootLinks : (m.dino rootIno).nlink = 1
  file : ∀ k (hk : k < files.length), contents m.sect (m.dino (k + 2)) = files[k].pieces.flatten
  fileType : ∀ k < files.length, (m.dino (k + 2)).type = tFile
  low : ∀ b < mkSb.inodestart, m.sect b = blank.sect b

theorem card_rootEntries (files : List Input) : (rootEntries files).length = files.length + 2 := by simp [rootEntries]

theorem length_rootEntries (files : List Input) :
    ((rootEntries files).flatMap Dirent.encode).length = direntSize * (files.length + 2) := by
  have hlen : ∀ k name, (Dirent.encode ⟨k, strncpy name⟩).length = direntSize := fun k name =>
    Dirent.length_encode (length_strncpy name)
  simp only [rootEntries, List.flatMap_cons, List.length_append, hlen, List.flatMap_map, List.length_flatMap, List.map_const',
    List.sum_replicate, List.length_zipIdx, smul_eq_mul]
  ring

theorem Built.rootSize (h : Built m files) : (m.dino rootIno).size = direntSize * (files.length + 2) := by
  have hlen : (contents m.sect (m.dino rootIno)).length = _ := length_contents
  rw [← hlen, h.root, length_rootEntries]

theorem good_blank : Good blank blank.dino where
  nsect := rfl
  lo := le_rfl
  hi := by decide
  inodes := by decide
  held := ⟨fun _ _ _ hj => absurd hj.2 (not_lt.2 hj.1), fun _ _ _ _ _ hj => absurd hj.2 (not_lt.2 hj.1)⟩
  shape := fun _ hj => absurd hj.2 (not_lt.2 hj.1)
  zero := fun b hb => by
    have hb' : nMeta ≤ b := hb
    rw [nMeta_eq] at hb'
    simp only [blank]
    rw [update_of_ne (by omega)]

theorem Extended.refl (h : Good m m.dino) : Extended m i [] m :=
  ⟨h, rfl, le_rfl, (List.append_nil _).symm, rfl, rfl, fun _ _ _ => rfl, fun _ _ _ => rfl, fun _ _ => rfl⟩

theorem appendAll_ok : ∀ {ps : List (List UInt8)} {m : Mkfs}, Good m m.dino → m.Alloc i →
    appendAll i ps m = some ((), m') → Extended m i ps.flatten m'
  | [], m, h, _, hrun => by
    cases hrun
    exact .refl h
  | p :: ps, m, h, hi, hrun => by
    obtain ⟨_, m₁, h1, hrest⟩ := bind_some.1 hrun
    have hp := iappend_ok h hi h1
    exact hp.trans (appendAll_ok hp.good (by rw [hp.alloc]; exact hi) hrest) h

theorem Extended.contents_of_ne {p : List UInt8} (h : Extended m i p m') (hm : Good m m.dino) {j : Nat} (hj : m.Alloc j) (hji : j ≠ i) :
    FileSys.contents m'.sect (m'.dino j) = FileSys.contents m.sect (m.dino j) := by
  rw [h.dino j (hj.2.trans_le hm.inodes) hji, h.contents j hj hji]

theorem makeRoot_ok (h : makeRoot blank = some ((), m)) : Built m [] := by
  unfold makeRoot at h
  obtain ⟨i, m₁, hia, h1⟩ := bind_some.1 h
  obtain ⟨rfl, hgood, hfi, -, hdino, -, -, hlow⟩ := ialloc_ok good_blank le_rfl (by decide) (by decide) hia
  rw [if_neg (not_not.2 (show blank.freeinode = rootIno from rfl))] at h1
  obtain ⟨_, m₂, he, h2⟩ := bind_some.1 h1
  have hi : m₁.Alloc rootIno := ⟨le_rfl, by rw [hfi]; decide⟩
  have hext := iappend_ok hgood hi he
  have hext' := iappend_ok hext.good (by rw [hext.alloc]; exact hi) h2
  have hall := hext.trans hext' hgood
  have hroot : m₁.dino rootIno = _ := hdino
  refine ⟨hall.good, hall.freeinode.trans hfi, ?_, ?_, ?_, fun k hk => absurd hk (by simp), fun k hk => absurd hk (by simp),
    fun b hb => (hall.low b hb).trans (hlow b hb)⟩
  · rw [hall.self, hroot, show blank.freeinode = rootIno from rfl]
    simp [contents, rootEntries, Dinode.zero]
  · rw [hall.type, hroot]
  · rw [hall.nlink, hroot]

theorem addFile_ok (h : Built m files) (hlt : files.length + 2 < maxInum) (hrun : addFile f m = some ((), m')) :
    Built m' (files ++ [f]) := by
  unfold addFile at hrun
  split at hrun
  · cases hrun
  obtain ⟨i, m₁, hia, h1⟩ := bind_some.1 hrun
  obtain ⟨rfl, hgood, hfi, hfb, hdino, hother, hcont, hlow⟩ :=
    ialloc_ok h.good (by rw [h.freeinode]; omega) (by rw [h.freeinode]; omega) (by decide) hia
  obtain ⟨_, m₂, he, h2⟩ := bind_some.1 h1
  have hr : m.Alloc rootIno := ⟨le_rfl, by rw [h.freeinode, rootIno]; omega⟩
  have hmono : ∀ {j}, m.Alloc j → m₁.Alloc j := fun hj => ⟨hj.1, by rw [hfi]; exact Nat.lt_succ_of_lt hj.2⟩
  have hinew : m₁.Alloc m.freeinode := ⟨by rw [h.freeinode]; omega, by rw [hfi]; omega⟩
  have hent := iappend_ok hgood (hmono hr) he
  have happ := appendAll_ok hent.good (by rw [hent.alloc]; exact hinew) h2
  have hlift : ∀ {j}, m.Alloc j → m₂.Alloc j := fun hj => by rw [hent.alloc]; exact hmono hj
  have hlt' : ∀ {j}, m.Alloc j → j < maxInum := fun hj => hj.2.trans_le h.good.inodes
  have hne : ∀ {j}, m.Alloc j → j ≠ m.freeinode := fun hj => hj.2.ne
  have hold : ∀ {j}, m.Alloc j → m₁.dino j = m.dino j := fun hj => hother _ (hlt' hj) (hne hj)
  have hfnew : m.freeinode ≠ rootIno := by rw [h.freeinode]; simp only [rootIno]; omega
  have hfile : ∀ {k}, k < files.length → m.Alloc (k + 2) := fun hk => ⟨by omega, by rw [h.freeinode]; omega⟩
  refine ⟨happ.good, by rw [happ.freeinode, hent.freeinode, hfi, h.freeinode, List.length_append]; rfl, ?_, ?_, ?_, fun k hk => ?_,
    fun k hk => ?_, fun b hb => by rw [happ.low b hb, hent.low b hb, hlow b hb, h.low b hb]⟩
  · rw [happ.contents_of_ne hent.good (hlift hr) (hne hr), hent.self, hold hr, hcont _ hr, h.root, h.freeinode]
    simp [rootEntries, List.zipIdx_append]
  · rw [happ.dino _ (hlt' hr) (hne hr), hent.type, hold hr, h.rootType]
  · rw [happ.dino _ (hlt' hr) (hne hr), hent.nlink, hold hr, h.rootLinks]
  · by_cases hlast : k < files.length
    · have hk' := hfile hlast
      have hkr : k + 2 ≠ rootIno := by simp [rootIno]
      rw [happ.contents_of_ne hent.good (hlift hk') (hne hk'), hent.contents_of_ne hgood (hmono hk') hkr, hold hk', hcont _ hk',
        h.file k hlast, List.getElem_append_left hlast]
    · have hk' : k = files.length := by simp at hk; omega
      subst hk'
      have hnew : contents m₁.sect (m₁.dino m.freeinode) = [] := by rw [hdino]; rfl
      rw [← h.freeinode, happ.self, hent.contents_of_ne hgood hinew hfnew, hnew]
      simp
  · by_cases hlast : k < files.length
    · have hk' := hfile hlast
      rw [happ.dino _ (hlt' hk') (hne hk'), hent.dino _ (hlt' hk') (by simp [rootIno]), hold hk', h.fileType k hlast]
    · have hk' : k = files.length := by simp at hk; omega
      rw [hk', ← h.freeinode, happ.type, hent.dino _ (by rw [h.freeinode]; exact hlt) hfnew, hdino]

theorem addFiles_ok : ∀ {fs files : List Input} {m : Mkfs}, Built m files → files.length + fs.length + 1 < maxInum →
    addFiles fs m = some ((), m') → Built m' (files ++ fs)
  | [], files, m, h, _, hrun => by
    cases hrun
    rwa [List.append_nil]
  | f :: fs, files, m, h, hlt, hrun => by
    obtain ⟨_, m₁, h1, hrest⟩ := bind_some.1 hrun
    rw [List.length_cons] at hlt
    have := addFiles_ok (addFile_ok h (by omega) h1) (by rw [List.length_append, List.length_singleton]; omega) hrest
    rwa [List.append_assoc] at this

/-! ## The finished image -/

/-- The root directory with its size rounded up. -/
def roundRoot (d : Dinode) : Dinode := { d with size := (d.size / bSize + 1) * bSize }

/-- What is done after the last file. -/
structure Finished (m m' : Mkfs) : Prop where
  nsect : m'.nsect = m.nsect
  freeinode : m'.freeinode = m.freeinode
  freeblock : m'.freeblock = m.freeblock
  low : ∀ b < mkSb.inodestart, m'.sect b = m.sect b
  bitmap : m'.sect mkSb.bmapstart = (List.range m.freeblock).foldl setBitAt fun _ => 0
  dino : ∀ j < maxInum, m'.dino j = if j = rootIno then roundRoot (m.dino j) else m.dino j
  data : ∀ b, nMeta ≤ b → m'.sect b = m.sect b

theorem balloc_some {n : Nat} {x : Unit} (h : balloc n m = some (x, m')) :
    m' = { m with nsect := max m.nsect (mkSb.bmapstart + 1),
                  sect := update m.sect mkSb.bmapstart ((List.range n).foldl setBitAt fun _ => 0) } := by
  unfold balloc at h
  split at h
  · cases h
  · cases h; rfl

theorem bmapstart_eq : mkSb.bmapstart = 58 := rfl

theorem roundRoot_fits {d : Dinode} (h : d.Fits) (hsize : d.size ≤ maxFileBytes) : (roundRoot d).Fits := by
  refine ⟨h.type, h.major, h.minor, h.nlink, ?_, h.addrs⟩
  simp only [roundRoot, maxFileBytes, bSize, wordSize] at *
  omega

theorem finish_some (hrun : finish m = some ((), m')) : m' = { m with
    nsect := max (max m.nsect (mkSb.iblock rootIno + 1)) (mkSb.bmapstart + 1)
    sect := update (update m.sect (mkSb.iblock rootIno)
      (putDinode (m.sect (mkSb.iblock rootIno)) (rootIno % ipb) (roundRoot (m.dino rootIno))))
      mkSb.bmapstart ((List.range m.freeblock).foldl setBitAt fun _ => 0) } := by
  have hroot : rootIno < maxInum := by decide
  unfold finish at hrun
  obtain ⟨d, m₁, hd, h1⟩ := bind_some.1 hrun
  obtain ⟨rfl, rfl⟩ := rinode_some hroot hd
  obtain ⟨_, m₂, hw, h2⟩ := bind_some.1 h1
  obtain ⟨_, m₃, hg, hb⟩ := bind_some.1 h2
  cases hg
  obtain rfl := balloc_some hb
  obtain ⟨-, rfl⟩ := winode_some (d := roundRoot (m₁.dino rootIno)) hroot hw
  rfl

theorem finish_ok (h : Good m m.dino) (hr : m.Alloc rootIno) (hrun : finish m = some ((), m')) : Finished m m' := by
  obtain rfl := finish_some hrun
  have hn : max (max m.nsect (mkSb.iblock rootIno + 1)) (mkSb.bmapstart + 1) = m.nsect := by
    rw [h.nsect, iblock_eq, bmapstart_eq]
    decide
  rw [hn]
  refine ⟨rfl, rfl, rfl, fun b hb => ?_, by simp only [update_self], fun j hj => ?_, fun b hb => ?_⟩
  · rw [inodestart_eq] at hb
    simp only
    rw [update_of_ne (by rw [bmapstart_eq]; omega), update_of_ne (by rw [iblock_eq]; omega)]
  · have hj' : mkSb.iblock j ≠ mkSb.bmapstart := by
      rw [iblock_eq, bmapstart_eq]
      simp only [maxInum, nInodeBlocks, nInodes, ipb] at hj
      omega
    have hput := dino_putDinode (m := m) (d := roundRoot (m.dino rootIno)) (i := rootIno) (n := m.nsect) (j := j)
      (roundRoot_fits (Dinode.decode_fits _) (h.shape _ hr).size)
    rw [dino] at hput ⊢
    simp only at hput ⊢
    rw [update_of_ne hj', hput]
    split
    · next hji => rw [hji]
    · rfl
  · rw [nMeta_eq] at hb
    simp only
    rw [update_of_ne (by rw [bmapstart_eq]; omega), update_of_ne (by rw [iblock_eq, rootIno]; omega)]

/-- The bitmap marks the blocks below a mark. -/
theorem bitAt_bitmap (n : Nat) {b : Nat} (hb : b < bpb) :
    bitAt ((List.range n).foldl setBitAt fun _ => 0) b = decide (b < n) := by
  induction n with
  | zero =>
    have hzero : byteAt (fun _ => 0 : Block) (b / 8) = 0 := by unfold byteAt; split <;> rfl
    simp [bitAt, hzero]
  | succ n ih =>
    rw [List.range_succ, List.foldl_append, List.foldl_cons, List.foldl_nil, bitAt_setBitAt hb, ih, ← Bool.decide_or]
    exact decide_eq_decide.2 (by omega)

/-- The image is consistent: blocks for the whole size of every inode, no block referred to twice, and the bitmap. -/
structure Consistent (m : Mkfs) : Prop where
  backed : ∀ i, m.Alloc i → ∀ bn < nblk (m.dino i).size, blockAddr m.sect (m.dino i) bn ≠ 0
  apart : ∀ i j s t, m.Alloc i → m.Alloc j → slotAddr m.sect (m.dino i) s ≠ 0 →
    slotAddr m.sect (m.dino i) s = slotAddr m.sect (m.dino j) t → i = j ∧ s = t
  within : ∀ i s, m.Alloc i → slotAddr m.sect (m.dino i) s ≠ 0 →
    nMeta ≤ slotAddr m.sect (m.dino i) s ∧ slotAddr m.sect (m.dino i) s < m.freeblock
  bitmap : ∀ b < bpb, bitAt (m.sect mkSb.bmapstart) b = decide (b < m.freeblock)

theorem Finished.slots (hf : Finished m m') (h : Good m m.dino) {j : Nat} (hj : m.Alloc j) (t : Slot) :
    slotAddr m'.sect (m'.dino j) t = slotAddr m.sect (m.dino j) t := by
  have hsame : slotAddr m'.sect (m.dino j) t = slotAddr m.sect (m.dino j) t := by
    cases t with
    | none => rfl
    | some bn =>
      simp only [slotAddr]
      split
      · rfl
      · split
        · rfl
        · next h0 =>
          have hu : m.Used ((m.dino j).addrs (Fin.last nDirect)) := h.held.used_of (s := none) hj h0
          rw [hf.data _ hu.1]
  rw [hf.dino j (hj.2.trans_le h.inodes)]
  split
  · exact (slotAddr_size ..).trans hsame
  · exact hsame

theorem Finished.alloc (hf : Finished m m') : m'.Alloc = m.Alloc := by
  funext j
  rw [Alloc, Alloc, hf.freeinode]

/-- Only the root directory may lack a block. -/
theorem Finished.consistent_iff_round (hf : Finished m m') (h : Good m m.dino) (hr : m.Alloc rootIno) :
    Consistent m' ↔ nblk (roundRoot (m.dino rootIno)).size = nblk (m.dino rootIno).size := by
  have hlt : ∀ {j}, m.Alloc j → j < maxInum := fun hj => hj.2.trans_le h.inodes
  have hround : nblk (m.dino rootIno).size ≤ nblk (roundRoot (m.dino rootIno)).size := by
    simp only [nblk, roundRoot, bSize]
    omega
  constructor
  · intro hc
    refine le_antisymm (not_lt.1 fun hmore => ?_) hround
    have hroot := hc.backed rootIno (by rw [hf.alloc]; exact hr) (nblk (m.dino rootIno).size)
      (by rw [hf.dino _ (hlt hr), if_pos rfl]; exact hmore)
    unfold blockAddr at hroot
    split at hroot
    · next hk =>
      rw [hf.slots h hr] at hroot
      exact lt_irrefl _ (((h.shape _ hr).blocks _).1 hroot)
    · exact hroot rfl
  · intro hsame
    refine ⟨fun i hi bn hbn => ?_, fun i j s t hi hj hs heq => ?_, fun i s hi hs => ?_, fun b hb => ?_⟩
    · rw [hf.alloc] at hi
      have hbn' : bn < nblk (m.dino i).size := by
        rw [hf.dino _ (hlt hi)] at hbn
        split at hbn
        · next hroot => rw [hroot] at hbn ⊢; exact hbn.trans_eq hsame
        · exact hbn
      have hk : bn < maxFile := hbn'.trans_le (nblk_le (h.shape _ hi).size)
      rw [blockAddr_lt hk, hf.slots h hi]
      exact ((h.shape _ hi).blocks ⟨bn, hk⟩).2 hbn'
    · rw [hf.alloc] at hi hj
      rw [hf.slots h hi] at hs heq
      rw [hf.slots h hj] at heq
      exact h.held.eq_of hi hj hs heq
    · rw [hf.alloc] at hi
      rw [hf.slots h hi] at hs ⊢
      rw [hf.freeblock]
      exact h.held.used_of hi hs
    · rw [hf.bitmap, bitAt_bitmap _ hb, hf.freeblock]

/-! ## Too many files

The inodes from `maxInum` on lie in the block of the bitmap, which is written last. -/

/-- The blocks of one file. -/
theorem Good.blocks_le {D : Nat → Dinode} (h : Good m D) (hi : m.Alloc i) : nMeta + nblk (D i).size ≤ m.freeblock := by
  have hmax := nblk_le (h.shape i hi).size
  have hslot : ∀ k : Fin (nblk (D i).size), slotAddr m.sect (D i) (some (k.castLE hmax)) ≠ 0 := fun k =>
    ((h.shape i hi).blocks _).2 k.isLt
  have hcard := Finset.card_le_card_of_injOn (s := Finset.univ) (t := Finset.Ico nMeta m.freeblock)
    (fun k : Fin (nblk (D i).size) => slotAddr m.sect (D i) (some (k.castLE hmax)))
    (fun k _ => Finset.mem_coe.2 (Finset.mem_Ico.2 (h.held.used_of hi (hslot k))))
    (fun k _ l _ hkl => by
      have := (h.held.eq_of hi hi (hslot k) hkl).2
      exact Fin.castLE_injective _ (Option.some.inj this))
  rw [Finset.card_univ, Fintype.card_fin, Nat.card_Ico] at hcard
  have := h.lo
  omega

/-- Blocks and inodes are never given back. -/
def Counts {α : Type} (n : Nat) (x : MkM α) : Prop :=
  ∀ ⦃m a m'⦄, x m = some (a, m') → m.freeblock ≤ m'.freeblock ∧ m'.freeinode = m.freeinode + n

section Counts

variable {α β : Type} {n k : Nat}

theorem Counts.bind {x : MkM α} {g : α → MkM β} (hx : Counts n x) (hg : ∀ a, Counts k (g a)) : Counts (n + k) (x >>= g) := by
  intro m b m' h
  obtain ⟨a, m₁, h1, h2⟩ := bind_some.1 h
  obtain ⟨hb, hi⟩ := hx h1
  obtain ⟨hb', hi'⟩ := hg a h2
  exact ⟨hb.trans hb', by rw [hi', hi, Nat.add_assoc]⟩

theorem Counts.pure (a : α) : Counts 0 (pure a : MkM α) := by
  intro m b m' h
  cases h
  exact ⟨le_rfl, rfl⟩

theorem counts_rsect (sec : Nat) : Counts 0 (rsect sec) := by
  intro m a m' h
  obtain ⟨-, -, rfl⟩ := rsect_some h
  exact ⟨le_rfl, rfl⟩

theorem counts_wsect (sec : Nat) (b : Block) : Counts 0 (wsect sec b) := by
  intro m a m' h
  cases h
  exact ⟨le_rfl, rfl⟩

theorem counts_winode (inum : Nat) (d : Dinode) : Counts 0 (winode inum d) :=
  (counts_rsect _).bind fun _ => counts_wsect ..

theorem counts_mapDirect (d : Dinode) (k : Fin (nDirect + 1)) : Counts 0 (mapDirect d k) := by
  intro m ⟨d', x⟩ m' h
  rcases mapDirect_cases h with ⟨-, -, -, rfl⟩ | ⟨-, -, -, rfl⟩
  · exact ⟨le_rfl, rfl⟩
  · exact ⟨Nat.le_succ _, rfl⟩

theorem counts_mapEntry (ind bn : Nat) : Counts 0 (mapEntry ind bn) := by
  intro m x m' h
  obtain ⟨-, ⟨-, -, rfl⟩ | ⟨-, -, rfl⟩⟩ := mapEntry_cases h
  · exact ⟨le_rfl, rfl⟩
  · exact ⟨Nat.le_succ _, rfl⟩

theorem counts_mapBlock (d : Dinode) (fbn : Nat) : Counts 0 (mapBlock d fbn) := by
  unfold mapBlock
  split
  · exact counts_mapDirect ..
  · exact (counts_mapDirect ..).bind fun _ => (counts_mapEntry ..).bind fun _ => .pure _

theorem counts_appendLoop : ∀ (fuel : Nat) (d : Dinode) (off : Nat) (p : List UInt8), Counts 0 (appendLoop fuel d off p)
  | _, _, _, [] => by unfold appendLoop; exact .pure _
  | 0, _, _, _ :: _ => fun _ _ _ h => by cases h
  | fuel + 1, d, off, a :: p => by
    simp only [appendLoop]
    split
    · exact fun _ _ _ h => by cases h
    · exact (counts_mapBlock ..).bind fun _ => (counts_rsect _).bind fun _ => (counts_wsect ..).bind fun _ => counts_appendLoop fuel ..

theorem counts_iappend (inum : Nat) (p : List UInt8) : Counts 0 (iappend inum p) :=
  ((counts_rsect _).bind fun _ => .pure _).bind fun _ => (counts_appendLoop ..).bind fun _ => counts_winode ..

theorem counts_appendAll (inum : Nat) : ∀ ps, Counts 0 (appendAll inum ps)
  | [] => .pure _
  | _ :: ps => (counts_iappend ..).bind fun _ => counts_appendAll inum ps

theorem counts_ialloc (type : Nat) : Counts 1 (ialloc type) := by
  intro m a m' h
  obtain ⟨_, m₁, hget, h1⟩ := bind_some.1 h
  cases hget
  obtain ⟨_, m₂, hmod, h2⟩ := bind_some.1 h1
  cases hmod
  obtain ⟨_, m₃, hw, h3⟩ := bind_some.1 h2
  cases h3
  exact counts_winode _ _ hw

theorem counts_addFile (f : Input) : Counts 1 (addFile f) := by
  unfold addFile
  split
  · exact fun _ _ _ h => by cases h
  · exact (counts_ialloc _).bind fun _ => (counts_iappend ..).bind fun _ => counts_appendAll ..

theorem counts_addFiles : ∀ fs : List Input, Counts fs.length (addFiles fs)
  | [] => .pure _
  | f :: fs => by
    rw [List.length_cons, Nat.add_comm]
    exact (counts_addFile f).bind fun _ => counts_addFiles fs

end Counts

theorem addFiles_append : ∀ (fs gs : List Input), addFiles (fs ++ gs) = addFiles fs >>= fun _ => addFiles gs
  | [], gs => rfl
  | f :: fs, gs => by
    rw [List.cons_append, addFiles, addFiles, bind_assoc]
    exact congrArg _ (funext fun _ => addFiles_append fs gs)

theorem getDinode_size (b : Block) (slot : Nat) : (getDinode b slot).size = getLe b (dinodeSize * slot + 8) 4 := by
  simp only [getDinode, Dinode.decode]
  rw [slice_slice _ _ _ _ _ (by decide), getLe]

theorem getDinode_addrs (b : Block) (slot : Nat) (k : Fin (nDirect + 1)) :
    (getDinode b slot).addrs k = getLe b (dinodeSize * slot + (12 + 4 * k)) 4 := by
  simp only [getDinode, Dinode.decode]
  rw [List.drop_drop, slice_slice, getLe]
  have := k.isLt
  simp only [dinodeSize, nDirect] at *
  omega

theorem getLe_four (b : Block) (off : Nat) : getLe b off 4 = (byteAt b off).toNat +
    256 * ((byteAt b (off + 1)).toNat + 256 * ((byteAt b (off + 2)).toNat + 256 * (byteAt b (off + 3)).toNat)) := by
  simp [getLe, slice, leVal, List.range, List.range.loop]

theorem byteAt_pos {b : Block} {j : Nat} (h : bitAt b j = true) : 0 < (byteAt b (j / 8)).toNat :=
  (Nat.two_pow_pos _).trans_le (Nat.ge_two_pow_of_testBit h)

theorem byteAt_zero {b : Block} {o : Nat} (h : ∀ j, j / 8 = o → bitAt b j = false) : (byteAt b o).toNat = 0 := by
  refine Nat.eq_of_testBit_eq fun i => ?_
  rw [Nat.zero_testBit]
  by_cases hi : i < 8
  · have := h (8 * o + i) (by omega)
    rwa [bitAt, show (8 * o + i) / 8 = o by omega, show (8 * o + i) % 8 = i by omega] at this
  · exact Nat.testBit_lt_two_pow ((byteAt b o).toNat_lt.trans_le (Nat.pow_le_pow_right (by norm_num) (not_lt.1 hi)))

/-- The bitmap, read as an inode, lacks a block. -/
theorem bitmap_not_backed {n : Nat} (hn : 64 < n) {b : Block} (hb : ∀ j < bpb, bitAt b j = decide (j < n)) (data : Nat → Block) :
    ∃ bn < nblk (getDinode b 0).size, blockAddr data (getDinode b 0) bn = 0 := by
  have hset : ∀ j < bpb, j < n → 0 < (byteAt b (j / 8)).toNat := fun j hj hjn =>
    byteAt_pos (by rw [hb j hj]; exact decide_eq_true hjn)
  have hsize := getDinode_size b 0
  rw [getLe_four, Nat.mul_zero, Nat.zero_add] at hsize
  have h64 : 0 < (byteAt b 8).toNat := hset 64 (by decide) hn
  by_cases hmany : 96 < n
  · -- its size is larger than any file's
    have h88 : 0 < (byteAt b (8 + 3)).toNat := hset 88 (by decide) (by omega)
    refine ⟨maxFile, ?_, dif_neg (lt_irrefl _)⟩
    simp only [nblk, bSize, maxFile, nDirect, nIndirect] at *
    omega
  · -- its first address is zero
    have hzero : ∀ o, 12 ≤ o → o < 16 → (byteAt b o).toNat = 0 := fun o ho ho' => byteAt_zero fun j hj => by
      rw [hb j (by simp only [bpb]; omega)]
      exact decide_eq_false (by omega)
    have haddr := getDinode_addrs b 0 0
    rw [getLe_four] at haddr
    simp only [dinodeSize, Nat.mul_zero, Nat.zero_add, Fin.val_zero, Nat.add_zero, hzero 12 (by omega) (by omega),
      hzero 13 (by omega) (by omega), hzero 14 (by omega) (by omega), hzero 15 (by omega) (by omega)] at haddr
    refine ⟨0, ?_, ?_⟩
    · simp only [nblk, bSize] at *
      omega
    · rw [blockAddr_lt (by decide), slotAddr, dif_pos (by decide)]
      exact haddr

theorem mkfs_some {m : Mkfs} (h : mkfs files = some m) :
    ∃ m₁ m₂, makeRoot blank = some ((), m₁) ∧ addFiles files m₁ = some ((), m₂) ∧ finish m₂ = some ((), m) := by
  unfold mkfs at h
  obtain ⟨⟨_, _⟩, hrun, rfl⟩ := Option.map_eq_some_iff.1 h
  obtain ⟨_, m₁, h1, hrest⟩ := bind_some.1 hrun
  obtain ⟨_, m₂, h2, h3⟩ := bind_some.1 hrest
  exact ⟨m₁, m₂, h1, h2, h3⟩

/-- With too many files the bitmap takes the place of an inode. -/
theorem not_consistent_of_many (h : mkfs files = some m) (hmany : maxInum ≤ files.length + 1) : ¬Consistent m := by
  obtain ⟨m₁, m₂, h1, h2, h3⟩ := mkfs_some h
  -- the last file that the inode table has room for
  rw [← List.take_append_drop (maxInum - 2) files, addFiles_append] at h2
  obtain ⟨_, mid, hfirst, hrest⟩ := bind_some.1 h2
  have hlen : (files.take (maxInum - 2)).length = maxInum - 2 := by
    rw [List.length_take]
    omega
  have hbuilt := addFiles_ok (makeRoot_ok h1) (by rw [List.length_nil, hlen]; decide) hfirst
  rw [List.nil_append] at hbuilt
  have hblocks := hbuilt.good.blocks_le (i := rootIno) ⟨le_rfl, by rw [hbuilt.freeinode, rootIno]; omega⟩
  rw [hbuilt.rootSize, hlen] at hblocks
  obtain ⟨hfb, hfi⟩ := counts_addFiles _ hrest
  rw [hbuilt.freeinode, hlen, List.length_drop] at hfi
  obtain rfl := finish_some h3
  intro hc
  have halloc : Alloc _ maxInum := ⟨by decide, show maxInum < m₂.freeinode by omega⟩
  have h64 : 64 < m₂.freeblock := lt_of_lt_of_le (by decide) (hblocks.trans hfb)
  obtain ⟨bn, hbn, h0⟩ := bitmap_not_backed h64 (fun j hj => hc.bitmap j hj) _
  exact hc.backed maxInum halloc bn hbn h0

end DemandPaging.FileSys.Mkfs
