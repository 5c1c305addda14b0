/-
The kernel on an image of `mkfs`: it finds the superblock, the inodes and the blocks that `mkfs` has
written, an entry of the root directory leads to the inode of the file, and reading the file returns
the bytes that were put into it.
-/
import DemandPaging.FileSys.Built
import DemandPaging.FileSys.Cache
import DemandPaging.FileSys.Recovery
import Mathlib.Data.List.TakeWhile

namespace DemandPaging.FileSys.Mkfs

open Function Bytes Outcome

variable {m m' : Mkfs} {files : List Input} {N j o : Nat}

/-! ## The image as the kernel sees it -/

theorem getSuper_blank : getSuper (blank.sect 1) = mkSb := by decide +kernel

theorem logstart_eq : mkSb.logstart = 2 := rfl

theorem headCount_blank : headCount (blank.sect 2) = 0 := by decide +kernel

/-- Recovery of the empty log of a new image. -/
theorem recover_blank {disk : Nat → Block} (h : headCount (disk 2) = 0) :
    ((recoverFromLog 2).run disk).2 = update disk 2 (putHead (disk 2) []) := by
  have hread : ((readHead 2).run disk) = ([], disk) := by
    show ((List.range (headCount (disk 2))).map (headEntry (disk 2)), disk) = _
    rw [h, List.range_zero, List.map_nil]
  have hrun : (recoverFromLog 2).run disk = _ :=
    Crash.Prog.run_bind (readHead 2) disk (f := fun lh => (installTrans 2 lh).bind fun _ => writeHead 2 [])
  rw [hrun, hread]
  exact run_writeHead

theorem mount_sb (hlow : ∀ b < mkSb.inodestart, m.sect b = blank.sect b) : (mount m.sect N).sb = mkSb := by
  simp only [mount]
  rw [hlow 1 (by rw [inodestart_eq]; decide), getSuper_blank]

theorem mount_data (hlow : ∀ b < mkSb.inodestart, m.sect b = blank.sect b) {b : Nat} (hb : mkSb.inodestart ≤ b) :
    (mount m.sect N).data b = m.sect b := by
  have hsb : getSuper (m.sect 1) = mkSb := mount_sb (N := N) hlow
  have hcount : headCount (m.sect 2) = 0 := by rw [hlow 2 (by rw [inodestart_eq]; decide), headCount_blank]
  rw [inodestart_eq] at hb
  simp only [mount, hsb, logstart_eq]
  rw [recover_blank hcount, update_of_ne (by omega)]

theorem mount_dinode (hlow : ∀ b < mkSb.inodestart, m.sect b = blank.sect b) (j : Nat) :
    (mount m.sect N).dinode j = m.dino j := by
  have hdata : (mount m.sect N).data (mkSb.iblock j) = _ := mount_data hlow (by rw [iblock_eq, inodestart_eq]; omega)
  have hsb : getSuper (m.sect 1) = mkSb := mount_sb (N := N) hlow
  simp only [mount, hsb] at hdata ⊢
  rw [hdata, dino]

/-- What `mkfs` has put into a file is what the kernel finds in it. -/
theorem Finished.mounted (hf : Finished m m') (h : Good m m.dino) (hlow : ∀ b < mkSb.inodestart, m'.sect b = blank.sect b)
    (hN : fsSize ≤ N) (hj : m.Alloc j) (ho : o < (m.dino j).size) :
    Backed (mount m'.sect N) (m'.dino j) (o / bSize) ∧
      fileByte (mount m'.sect N).data (m'.dino j) o = fileByte m.sect (m.dino j) o := by
  obtain ⟨k, hk, hne, hbyte⟩ := (h.shape j hj).block_of_lt ho
  have hmeta : mkSb.inodestart ≤ nMeta := by rw [inodestart_eq, nMeta_eq]; decide
  have hdata : ∀ {b}, m.Used b → (mount m'.sect N).data b = m.sect b := fun hb => by
    rw [mount_data hlow (hmeta.trans hb.1), hf.data _ hb.1]
  have hlt : ∀ {b}, m.Used b → b < N := fun hb => (hb.2.trans_le h.hi).trans_le hN
  have hind : ∀ t, slotAddr (mount m'.sect N).data (m'.dino j) t = slotAddr m.sect (m.dino j) t := fun t => by
    rw [← hf.slots h hj t]
    cases t with
    | none => simp only [slotAddr]
    | some bn =>
      simp only [slotAddr]
      split
      · rfl
      · split
        · rfl
        · next h0 =>
          have hu : m.Used ((m'.dino j).addrs (Fin.last nDirect)) := by
            have hs := hf.slots h hj none
            have h0' : slotAddr m.sect (m.dino j) none ≠ 0 := by rw [← hs]; exact h0
            have := h.held.used_of hj h0'
            rwa [← hs] at this
          rw [mount_data hlow (hmeta.trans hu.1)]
  have hu := h.held.used_of hj hne
  have haddr : blockAddr (mount m'.sect N).data (m'.dino j) (o / bSize) = slotAddr m.sect (m.dino j) (some k) := by
    have hkk : (⟨o / bSize, hk ▸ k.isLt⟩ : Fin maxFile) = k := Fin.ext hk.symm
    rw [blockAddr_lt (hk ▸ k.isLt), hkk, hind]
  refine ⟨⟨by rw [haddr]; exact hne, by rw [haddr]; exact hlt hu, fun hd => ?_⟩, by rw [fileByte, haddr, hdata hu, hbyte]⟩
  have hs := hf.slots h hj none
  have hnone : slotAddr m.sect (m.dino j) none ≠ 0 :=
    (h.shape j hj).ind.2 (lt_of_le_of_lt hd (lt_nblk ho))
  have := hlt (h.held.used_of hj hnone)
  rwa [← hs] at this

/-! ## The root directory -/

/-- The entries of the root directory as the kernel reads them. -/
theorem rootEntry_eq (hb : Built m files) (hfew : files.length + 1 < maxInum) {e : Nat} {de : Dirent}
    (hde : (rootEntries files)[e]? = some de) : entryAt m.sect (m.dino rootIno) e = de := by
  obtain ⟨he, rfl⟩ := List.getElem?_eq_some_iff.1 hde
  have hlen := card_rootEntries files
  have hshape : ∀ de ∈ rootEntries files, ∃ k name, k < 2 ^ 16 ∧ de = ⟨k, strncpy name⟩ := by
    intro de hde
    simp only [rootEntries, List.mem_cons, List.mem_map] at hde
    rcases hde with rfl | rfl | ⟨⟨f, k⟩, hk, rfl⟩
    · exact ⟨_, _, by decide, rfl⟩
    · exact ⟨_, _, by decide, rfl⟩
    · have := (List.mem_zipIdx hk).2.1
      refine ⟨_, _, ?_, rfl⟩
      simp only [maxInum, nInodeBlocks, nInodes, ipb] at hfew
      omega
  have hone : ∀ de ∈ rootEntries files, (Dirent.encode de).length = direntSize := by
    intro de hde
    obtain ⟨k, name, -, rfl⟩ := hshape de hde
    rw [Dirent.encode, List.length_append, length_leDigits, length_strncpy]
    rfl
  have hsize := hb.rootSize
  rw [entryAt, ← take_drop_contents (by rw [hsize]; simp only [direntSize]; omega), hb.root, take_drop_flatMap _ hone he]
  obtain ⟨k, name, hk, heq⟩ := hshape _ (List.getElem_mem he)
  rw [heq, Dirent.decode_encode hk (length_strncpy _)]

/-! ## Reading a file -/

/-- Open a file by its path and read all of it. -/
def readFile (cwd : InodeIdx) (path : List UInt8) : FsM (Option (List UInt8)) := do
  match ← namei cwd path with
  | none => return none
  | some ip =>
    ilock ip
    readi ip 0 ((← get).icache ip).d.size

theorem skipelem_root {name : List UInt8} (hne : name ≠ []) (hs : slash ∉ name) :
    skipelem (slash :: name) = some (name.take dirSiz, []) := by
  have hdrop : (slash :: name).dropWhile (· = slash) = name := by
    rw [List.dropWhile_cons_of_pos (by simp)]
    cases name with
    | nil => rfl
    | cons x xs => exact List.dropWhile_cons_of_neg (by simpa using fun h => hs (by simp [h]))
  have hall : ∀ x ∈ name, decide (x ≠ slash) = true := fun x hx => decide_eq_true fun h => hs (h ▸ hx)
  simp only [skipelem, hdrop, if_neg hne, List.takeWhile_eq_self_iff.2 hall, List.dropWhile_eq_nil_iff.2 hall, List.dropWhile_nil]


theorem rootEntries_file {k : Nat} : (rootEntries files)[k + 2]? = files[k]?.map fun f => ⟨k + 2, strncpy f.base⟩ := by
  simp only [rootEntries, List.getElem?_cons_succ, List.getElem?_map, List.getElem?_zipIdx, Option.map_map, Nat.zero_add]
  rfl

theorem take_dirSiz_eq {name dot : List UInt8} (hdot : dot.length < dirSiz) (h : name.take dirSiz = dot) : name = dot := by
  have hlen := congrArg List.length h
  rw [List.length_take] at hlen
  rw [← h, List.take_of_length_le (by omega)]

/-- No entry before that of a file has its name. -/
theorem rootEntries_miss {f : Input} {k : Nat} (hnul : ∀ f ∈ files, 0 ∉ f.base)
    (hdot : ∀ f ∈ files, f.base ≠ [46] ∧ f.base ≠ [46, 46])
    (hpair : files.Pairwise fun f g => f.base.take dirSiz ≠ g.base.take dirSiz) (hf : files[k]? = some f) :
    ∀ e < k + 2, ∀ de, (rootEntries files)[e]? = some de → ¬de.hit (f.base.take dirSiz)
  | 0, _, de, hde, hhit => by
    cases hde
    have hmem := List.mem_of_getElem? hf
    have := (namecmp_strncpy (hnul f hmem) (by decide)).1 hhit.2
    exact (hdot f hmem).1 (take_dirSiz_eq (by decide) this)
  | 1, _, de, hde, hhit => by
    cases hde
    have hmem := List.mem_of_getElem? hf
    have := (namecmp_strncpy (hnul f hmem) (by decide)).1 hhit.2
    exact (hdot f hmem).2 (take_dirSiz_eq (by decide) this)
  | e + 2, hlt, de, hde, hhit => by
    rw [rootEntries_file, Option.map_eq_some_iff] at hde
    obtain ⟨g, hg, rfl⟩ := hde
    obtain ⟨he, rfl⟩ := List.getElem?_eq_some_iff.1 hg
    obtain ⟨hk, rfl⟩ := List.getElem?_eq_some_iff.1 hf
    have := (namecmp_strncpy (hnul _ (List.getElem_mem hk)) (hnul _ (List.getElem_mem he))).1 hhit.2
    exact List.pairwise_iff_getElem.1 hpair e k he hk (by omega) this.symm

/-- The walk of `namei` over one element of a path. -/
theorem namex_file {s₀ : Fsys} {cwd : InodeIdx} {name : List UInt8} {d : Dinode} {e inum : Nat}
    (hempty : s₀.icache = fun _ => ⟨0, 0, 0, false, Dinode.zero⟩) (hne : name ≠ []) (hs : slash ∉ name)
    (hd : s₀.dinode rootIno = d) (hblk : s₀.sb.iblock rootIno < s₀.disksize) (htype : d.type = tDir) (hlinks : d.nlink ≠ 0)
    (hsize : d.size < wordSize) (hn : direntSize * (e + 1) ≤ d.size)
    (hb : ∀ o < direntSize * (e + 1), Backed s₀ d (o / bSize))
    (hhit : (entryAt s₀.data d e).hit (name.take dirSiz)) (hmiss : ∀ e' < e, ¬(entryAt s₀.data d e').hit (name.take dirSiz))
    (hinum : (entryAt s₀.data d e).inum = inum) (hroot : inum ≠ rootIno) :
    ∃ s, namei cwd (slash :: name) s₀ = .ok (some 1, s) ∧ s.icache 1 = ⟨rootDev, inum, 1, false, Dinode.zero⟩ ∧
      s.sb = s₀.sb ∧ s.disksize = s₀.disksize ∧ s.dinode = s₀.dinode ∧ s.data = s₀.data := by
  have hcache : ∀ i, s₀.icache i = ⟨0, 0, 0, false, Dinode.zero⟩ := fun i => by rw [hempty]
  -- the root directory is taken into the first entry of the cache, and read
  have hget : iget rootDev rootIno s₀ = .ok (0, s₀.entry 0 ⟨rootDev, rootIno, 1, false, Dinode.zero⟩) := by
    have hrun : iget rootDev rootIno s₀ = .ok (0, _) := iget_fresh (fun i hi => by simp [hcache] at hi) (by simp only [hcache]; rfl)
    rwa [hcache] at hrun
  have hlock : ilock 0 (s₀.entry 0 ⟨rootDev, rootIno, 1, false, Dinode.zero⟩) =
      .ok ((), s₀.entry 0 ⟨rootDev, rootIno, 1, true, d⟩) := by
    have := ilock_load (s := s₀.entry 0 ⟨rootDev, rootIno, 1, false, Dinode.zero⟩) (i := 0) (by simp) (by simp) (by simpa using hblk)
      (by simp [hd, htype])
    rw [this]
    simp [Fsys.entry, hd]
  generalize hs₂ : s₀.entry 0 ⟨rootDev, rootIno, 1, true, d⟩ = s₂ at hlock
  have h0 : s₂.icache 0 = ⟨rootDev, rootIno, 1, true, d⟩ := by rw [← hs₂]; simp
  have hi : ∀ i, i ≠ 0 → s₂.icache i = ⟨0, 0, 0, false, Dinode.zero⟩ := fun i hi => by rw [← hs₂]; simp [hi, hcache]
  have hdata : s₂.data = s₀.data := by rw [← hs₂]; rfl
  have hback : ∀ o < direntSize * (e + 1), Backed s₂ d (o / bSize) := fun o ho => by
    obtain ⟨h1, h2, h3⟩ := hb o ho
    exact ⟨by rw [hdata]; exact h1, by rw [hdata, ← hs₂]; exact h2, by rw [← hs₂]; exact h3⟩
  have hlook : lookupLoop 0 (name.take dirSiz) d.size (direntSize * 0) s₂ = .ok (some (direntSize * e, inum), s₂) := by
    rw [← hinum, ← hdata]
    rw [← hdata] at hhit hmiss
    exact lookupLoop_hit (by rw [h0]) hsize hn hback hhit hmiss (Nat.zero_le _) (by simp only [direntSize] at hn; omega)
  -- the file is taken into the next entry
  have hget' : iget rootDev inum s₂ = .ok (1, s₂.entry 1 ⟨rootDev, inum, 1, false, Dinode.zero⟩) := by
    have hrun : iget rootDev inum s₂ = .ok (1, _) := iget_fresh (fun i href hsame => by
      by_cases hi0 : i = 0
      · rw [hi0, h0] at hsame
        exact hroot hsame.2.symm
      · rw [hi i hi0] at href
        exact lt_irrefl _ href) (by
      have hpred : (fun i => (s₂.icache i).ref == 0) = fun i : InodeIdx => decide (i ≠ 0) := funext fun i => by
        by_cases hi0 : i = 0
        · simp [hi0, h0]
        · simp [hi i hi0, hi0]
      rw [hpred]
      rfl)
    rwa [hi 1 (by decide)] at hrun
  have hdir : dirlookup 0 (name.take dirSiz) s₂ = .ok (some (1, direntSize * e), s₂.entry 1 ⟨rootDev, inum, 1, false, Dinode.zero⟩) := by
    unfold dirlookup
    show (if (s₂.icache 0).d.type ≠ tDir then _ else _ : FsM _) s₂ = _
    rw [h0, if_neg (not_not.2 htype)]
    simp only
    rw [show lookupLoop 0 (name.take dirSiz) d.size 0 = lookupLoop 0 (name.take dirSiz) d.size (direntSize * 0) from rfl, run_bind hlook]
    simp only
    rw [run_bind hget']
    rfl
  have hput := iput_drop (s := s₂.entry 1 ⟨rootDev, inum, 1, false, Dinode.zero⟩) (i := 0) (by simp [h0, hlinks])
  have hskip := skipelem_root hne hs
  generalize hs₃ : s₂.entry 1 ⟨rootDev, inum, 1, false, Dinode.zero⟩ = s₃ at hdir hput
  generalize hs₄ : s₃.entry 0 { s₃.icache 0 with ref := (s₃.icache 0).ref - 1 } = s₄ at hput
  have hloop : namexLoop false (name.length + 1 + 1) 0 (slash :: name) (s₀.entry 0 ⟨rootDev, rootIno, 1, false, Dinode.zero⟩) =
      .ok (some (1, []), s₄) := by
    rw [namexLoop, hskip]
    simp only
    rw [run_bind hlock]
    show (if (s₂.icache 0).d.type ≠ tDir then _ else _ : FsM _) s₂ = _
    rw [h0, if_neg (not_not.2 htype), if_neg (by simp), run_bind hdir]
    simp only
    rw [run_bind hput]
    rfl
  refine ⟨s₄, ?_, ?_⟩
  · have hnamex : namex cwd (slash :: name) false s₀ = .ok (some (1, []), s₄) := by
      rw [namex, List.head?_cons, if_pos rfl]
      rw [run_bind hget]
      exact hloop
    rw [namei, run_bind hnamex]
    rfl
  · rw [← hs₄, ← hs₃, ← hs₂]
    simp

theorem mkfs_files (h : mkfs files = some m) : m.freeinode = files.length + 2 := by
  obtain ⟨m₁, m₂, h1, h2, h3⟩ := mkfs_some h
  obtain rfl := finish_some h3
  show m₂.freeinode = _
  rw [(counts_addFiles files h2).2, (makeRoot_ok h1).freeinode, List.length_nil, Nat.add_comm, Nat.add_comm 0]

theorem addFiles_slash : ∀ {fs : List Input} {m m' : Mkfs}, addFiles fs m = some ((), m') → ∀ f ∈ fs, slash ∉ f.name
  | [], _, _, _, f, hf => by cases hf
  | g :: fs, m, m', h, f, hf => by
    obtain ⟨_, m₁, h1, h2⟩ := bind_some.1 h
    rcases List.mem_cons.1 hf with rfl | hf
    · unfold addFile at h1
      split at h1
      · cases h1
      · assumption
    · exact addFiles_slash h2 f hf

theorem Input.mem_name {f : Input} {x : UInt8} (h : x ∈ f.base) : x ∈ f.name := by
  unfold Input.base at h
  split at h
  · exact List.mem_of_mem_tail h
  · exact h

/-- Once the path has been resolved, the inode is read, and then the contents. -/
theorem readFile_found {s₀ s : Fsys} {cwd : InodeIdx} {path : List UInt8} {inum : Nat} {d : Dinode}
    (hnamei : namei cwd path s₀ = .ok (some 1, s)) (hs : s.icache 1 = ⟨rootDev, inum, 1, false, Dinode.zero⟩)
    (hblk : s.sb.iblock inum < s.disksize) (hd : s.dinode inum = d) (ht : d.type ≠ 0) (hsize : d.size < wordSize)
    (hb : ∀ o < d.size, Backed s d (o / bSize)) : ∃ s', readFile cwd path s₀ = .ok (some (contents s.data d), s') := by
  have hlock := ilock_load (s := s) (i := 1) (by rw [hs]) (by rw [hs]) (by rw [hs]; exact hblk) (by rw [hs, hd]; exact ht)
  simp only [hs, hd] at hlock
  generalize hs' : s.entry 1 ⟨rootDev, inum, 1, true, d⟩ = s' at hlock
  have hd' : (s'.icache 1).d = d := by rw [← hs']; simp
  have hread : readi 1 0 d.size s' = _ := readi_present hd' hsize (Nat.zero_add _).le fun o _ ho => by
    obtain ⟨h1, h2, h3⟩ := hb o (by omega)
    rw [← hs']
    exact ⟨h1, h2, h3⟩
  refine ⟨s', ?_⟩
  rw [readFile, run_bind hnamei]
  simp only
  rw [run_bind hlock]
  show readi 1 0 (s'.icache 1).d.size s' = _
  rw [hd', hread, ← hs']
  simp only [Nat.zero_add, Fsys.entry_data, contents]

/-- The kernel's view of a finished image. -/
structure Boots (m : Mkfs) (s : Fsys) : Prop where
  sb : s.sb = mkSb
  disksize : fsSize ≤ s.disksize
  icache : s.icache = fun _ => ⟨0, 0, 0, false, Dinode.zero⟩
  backed : ∀ j o, m.Alloc j → o < (m.dino j).size → Backed s (s.dinode j) (o / bSize)
  byte : ∀ j o, m.Alloc j → o < (m.dino j).size → fileByte s.data (s.dinode j) o = fileByte m.sect (m.dino j) o
  dinode : ∀ j, m.Alloc j → s.dinode j = if j = rootIno then roundRoot (m.dino j) else m.dino j

theorem Finished.boots (hf : Finished m m') (h : Good m m.dino) (hlow : ∀ b < mkSb.inodestart, m'.sect b = blank.sect b) :
    Boots m (mount m'.sect m'.nsect) := by
  have hN : fsSize ≤ m'.nsect := by rw [hf.nsect, h.nsect]
  refine ⟨mount_sb hlow, hN, rfl, fun j o hj ho => ?_, fun j o hj ho => ?_, fun j hj => ?_⟩
  · rw [mount_dinode hlow]
    exact (hf.mounted h hlow hN hj ho).1
  · rw [mount_dinode hlow]
    exact (hf.mounted h hlow hN hj ho).2
  · rw [mount_dinode hlow, hf.dino _ (hj.2.trans_le h.inodes)]

theorem Boots.iblock_lt {s : Fsys} (h : Boots m s) (hm : Good m m.dino) (hj : m.Alloc j) : s.sb.iblock j < s.disksize := by
  have hmeta : nMeta ≤ fsSize := by rw [nMeta_eq]; decide
  rw [h.sb]
  exact (sector_iblock (hj.2.trans_le hm.inodes)).2.trans_le (hmeta.trans h.disksize)

/-- The kernel finds the entries that `mkfs` has written. -/
theorem Boots.entry {s : Fsys} (h : Boots m s) (hb : Built m files) (hfew : files.length + 1 < maxInum) {e : Nat} {de : Dirent}
    (hde : (rootEntries files)[e]? = some de) : entryAt s.data (s.dinode rootIno) e = de := by
  obtain ⟨he, -⟩ := List.getElem?_eq_some_iff.1 hde
  rw [card_rootEntries] at he
  have hr : m.Alloc rootIno := ⟨le_rfl, by rw [hb.freeinode, rootIno]; omega⟩
  rw [← rootEntry_eq hb hfew hde, entryAt, entryAt]
  refine congrArg _ (List.map_congr_left fun o ho => h.byte _ _ hr ?_)
  have := List.mem_range.1 ho
  rw [hb.rootSize]
  simp only [direntSize] at *
  omega

theorem Boots.namei {s₀ : Fsys} (h : Boots m s₀) (hb : Built m files) (hfew : files.length + 1 < maxInum)
    (hnul : ∀ f ∈ files, 0 ∉ f.base) (hname : ∀ f ∈ files, f.base ≠ [] ∧ f.base ≠ [46] ∧ f.base ≠ [46, 46])
    (hpair : files.Pairwise fun f g => f.base.take dirSiz ≠ g.base.take dirSiz) {f : Input} {k : Nat} (hk : files[k]? = some f)
    (hslash : slash ∉ f.base) (cwd : InodeIdx) :
    ∃ s, namei cwd (slash :: f.base) s₀ = .ok (some 1, s) ∧ s.icache 1 = ⟨rootDev, k + 2, 1, false, Dinode.zero⟩ ∧
      s.sb = s₀.sb ∧ s.disksize = s₀.disksize ∧ s.dinode = s₀.dinode ∧ s.data = s₀.data := by
  have hf := List.mem_of_getElem? hk
  obtain ⟨hklt, -⟩ := List.getElem?_eq_some_iff.1 hk
  have hr : m.Alloc rootIno := ⟨le_rfl, by rw [hb.freeinode, rootIno]; omega⟩
  have hroot : s₀.dinode rootIno = roundRoot (m.dino rootIno) := by rw [h.dinode _ hr, if_pos rfl]
  have hsize : direntSize * (files.length + 2) ≤ (s₀.dinode rootIno).size ∧ (s₀.dinode rootIno).size < wordSize := by
    have hmax := (hb.good.shape _ hr).size
    rw [hb.rootSize] at hmax
    rw [hroot, roundRoot, hb.rootSize]
    simp only [maxFileBytes, wordSize, bSize] at *
    omega
  have hown : (rootEntries files)[k + 2]? = some ⟨k + 2, strncpy f.base⟩ := by rw [rootEntries_file, hk]; rfl
  have hentry := h.entry hb hfew hown
  refine namex_file h.icache (hname f hf).1 hslash rfl (h.iblock_lt hb.good hr) (by rw [hroot]; exact hb.rootType)
    (by rw [hroot, roundRoot, hb.rootLinks]; decide) hsize.2 (e := k + 2) (le_trans (Nat.mul_le_mul_left _ (by omega)) hsize.1)
    (fun o ho => h.backed _ _ hr ?_) ?_ (fun e he => ?_) (by rw [hentry]) (by simp [rootIno])
  · rw [hb.rootSize]
    exact ho.trans_le (Nat.mul_le_mul_left _ (by omega))
  · rw [hentry]
    exact ⟨Nat.succ_ne_zero _, (namecmp_strncpy (hnul f hf) (hnul f hf)).2 rfl⟩
  · obtain ⟨de, hde⟩ : ∃ de, (rootEntries files)[e]? = some de :=
      ⟨_, List.getElem?_eq_getElem (by rw [card_rootEntries]; omega)⟩
    rw [h.entry hb hfew hde]
    exact rootEntries_miss hnul (fun f hf => (hname f hf).2) hpair hk e he de hde

/-- A file that `mkfs` has put on the image has the same bytes for the kernel. -/
theorem readFile_mkfs (hrun : mkfs files = some m) (hfew : m.freeinode - 1 < nInodes) (hnul : ∀ f ∈ files, 0 ∉ f.name)
    (hname : ∀ f ∈ files, f.base ≠ [] ∧ f.base ≠ [46] ∧ f.base ≠ [46, 46])
    (hpair : files.Pairwise fun f g => f.base.take dirSiz ≠ g.base.take dirSiz) {f : Input} (hf : f ∈ files) (cwd : InodeIdx) :
    ∃ s, readFile cwd (slash :: f.base) (mount m.sect m.nsect) = .ok (some f.pieces.flatten, s) := by
  rw [mkfs_files hrun] at hfew
  have hfew : files.length + 1 < maxInum := lt_of_lt_of_le (by omega) (show nInodes ≤ maxInum by decide)
  obtain ⟨m₁, m₂, h1, h2, h3⟩ := mkfs_some hrun
  have hb := addFiles_ok (makeRoot_ok h1) (by rw [List.length_nil]; omega) h2
  rw [List.nil_append] at hb
  have hfin := finish_ok hb.good ⟨le_rfl, by rw [hb.freeinode, rootIno]; omega⟩ h3
  have hboots := hfin.boots hb.good fun b hlt => (hfin.low b hlt).trans (hb.low b hlt)
  obtain ⟨k, hk⟩ := List.getElem?_of_mem hf
  obtain ⟨hklt, hkf⟩ := List.getElem?_eq_some_iff.1 hk
  have hfile : m₂.Alloc (k + 2) := ⟨by omega, by rw [hb.freeinode]; omega⟩
  have hself := hboots.dinode _ hfile
  rw [if_neg (by simp [rootIno])] at hself
  generalize mount m.sect m.nsect = s₀ at *
  obtain ⟨s, hnamei, hs, hsb, hdisk, hdino, hdata⟩ := hboots.namei hb hfew (fun f hf h => hnul f hf (Input.mem_name h)) hname hpair hk
    (fun h => addFiles_slash h2 f hf (Input.mem_name h)) cwd
  have hcontents : contents s.data (m₂.dino (k + 2)) = f.pieces.flatten := by
    rw [← hkf, ← hb.file k hklt, contents, contents, hdata]
    refine List.map_congr_left fun o ho => ?_
    rw [← hboots.byte _ _ hfile (List.mem_range.1 ho), hself]
  rw [← hcontents]
  refine readFile_found hnamei hs (by rw [hsb, hdisk]; exact hboots.iblock_lt hb.good hfile) (by rw [hdino, hself])
    (by rw [hb.fileType k hklt]; decide) (Dinode.decode_fits _).size fun o ho => ?_
  obtain ⟨b1, b2, b3⟩ := hboots.backed _ _ hfile ho
  rw [hself] at b1 b2 b3
  exact ⟨by rw [hdata]; exact b1, by rw [hdata, hdisk]; exact b2, by rw [hdisk]; exact b3⟩

/-- A file read in two pieces. -/
theorem readFile_mkfs_two_pieces : ∃ m s, mkfs [⟨[95, 97], [[1, 2], [3]]⟩] = some m ∧
    readFile 0 [47, 97] (mount m.sect m.nsect) = .ok (some [1, 2, 3], s) := by
  obtain ⟨m, hm⟩ := Option.isSome_iff_exists.1 (show (mkfs [⟨[95, 97], [[1, 2], [3]]⟩]).isSome by decide +kernel)
  obtain ⟨s, hs⟩ := readFile_mkfs hm (by rw [mkfs_files hm]; decide) (by decide) (by decide) (by decide) (List.mem_singleton.2 rfl) 0
  exact ⟨m, s, hm, hs⟩

end DemandPaging.FileSys.Mkfs
