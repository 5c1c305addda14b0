/-
Reading a file whose blocks are there: `bmap` finds each block without allocating one, and `readi`
returns the bytes of the file and leaves the file system as it was.
-/
import DemandPaging.FileSys.Tree
import DemandPaging.FileSys.Dir

namespace DemandPaging.FileSys

open Function Bytes Outcome

variable {s : Fsys} {i : InodeIdx} {d : Dinode} {bn off n : Nat}

/-- Block `bn` of the file is there, and can be reached on the disk. -/
structure Backed (s : Fsys) (d : Dinode) (bn : Nat) : Prop where
  ne : blockAddr s.data d bn ≠ 0
  lt : blockAddr s.data d bn < s.disksize
  ind : nDirect ≤ bn → d.addrs (Fin.last nDirect) < s.disksize

theorem access_ok {b : Nat} (h : b < s.disksize) : access b s = .ok ((), s) := if_pos h

theorem bread_ok {b : Nat} (h : b < s.disksize) : bread b s = .ok (s.data b, s) := by
  rw [bread, run_bind (access_ok h)]
  rfl

theorem bread_inv {b : Nat} {v : Block} {s' : Fsys} (h : bread b s = .ok (v, s')) : v = s.data b ∧ s' = s := by
  by_cases hlt : b < s.disksize
  · rw [bread_ok hlt] at h
    cases h
    exact ⟨rfl, rfl⟩
  · obtain ⟨_, s₁, hacc, -⟩ := bind_ok.1 h
    rw [show access b s = .error (.panic "iderw: block out of range") from if_neg hlt] at hacc
    cases hacc

theorem bmapDirect_present {k : Fin (nDirect + 1)} (h : (s.icache i).d.addrs k ≠ 0) :
    bmapDirect i k s = .ok ((s.icache i).d.addrs k, s) := by
  show (if (s.icache i).d.addrs k ≠ 0 then _ else _ : FsM Nat) s = _
  rw [if_pos h]
  rfl

theorem bmapEntry_present {ind : Nat} (hlt : ind < s.disksize) (h : indirect (s.data ind) bn ≠ 0) :
    bmapEntry ind bn s = .ok (indirect (s.data ind) bn, s) := by
  rw [bmapEntry, run_bind (bread_ok hlt), if_pos h]
  rfl

/-- A block that is there is found, and nothing is allocated. -/
theorem bmap_present (hd : (s.icache i).d = d) (h : Backed s d bn) : bmap i bn s = .ok (blockAddr s.data d bn, s) := by
  obtain ⟨hne, -, hind⟩ := h
  subst hd
  unfold blockAddr at hne ⊢
  split at hne
  swap
  · exact absurd rfl hne
  next hmax =>
  rw [dif_pos hmax]
  unfold slotAddr at hne ⊢
  simp only at hne ⊢
  unfold bmap
  split at hne
  · next hk =>
    rw [dif_pos hk, dif_pos hk]
    exact bmapDirect_present hne
  · next hk =>
    rw [dif_neg hk, dif_neg hk, if_pos (by simp only [maxFile] at hmax; omega)]
    split at hne
    · exact absurd rfl hne
    · next h0 =>
      rw [if_neg h0, run_bind (bmapDirect_present h0)]
      exact bmapEntry_present (hind (not_lt.1 hk)) hne

/-- The loop of `readi` over blocks that are there. -/
theorem readLoop_present (hd : (s.icache i).d = d) : ∀ {fuel off n : Nat}, n ≤ fuel →
    (∀ o, off ≤ o → o < off + n → Backed s d (o / bSize)) →
      readLoop i fuel off n s = .ok ((List.range n).map fun o => fileByte s.data d (off + o), s)
  | _, _, 0, _, _ => by unfold readLoop; rfl
  | fuel + 1, off, n + 1, hn, hb => by
    have hback := hb off le_rfl (by omega)
    generalize hm : min (n + 1) (bSize - off % bSize) = m
    have hmpos : 0 < m := by simp only [bSize] at hm; omega
    obtain ⟨r, hr⟩ : ∃ r, n + 1 = m + r := ⟨n + 1 - m, by omega⟩
    have hrest : readLoop i fuel (off + m) r s = _ :=
      readLoop_present hd (by omega) fun o ho ho' => hb o (by omega) (by omega)
    have hrun : readLoop i (fuel + 1) off (n + 1) s = .ok (slice (s.data (blockAddr s.data d (off / bSize))) (off % bSize) m ++
        (List.range r).map fun o => fileByte s.data d (off + m + o), s) := by
      have hsub : n + 1 - m = r := by omega
      simp only [readLoop, hm, hsub]
      rw [run_bind (bmap_present hd hback), run_bind (bread_ok hback.lt), run_bind hrest]
      rfl
    rw [hrun, hr, List.range_add, List.map_append, List.map_map, slice]
    congr 3
    · refine List.map_congr_left fun o ho => ?_
      have ho := List.mem_range.1 ho
      have h1 : (off + o) / bSize = off / bSize := by simp only [bSize] at *; omega
      have h2 : (off + o) % bSize = off % bSize + o := by simp only [bSize] at *; omega
      rw [fileByte, h1, h2]
    · exact List.map_congr_left fun o _ => by simp [Nat.add_assoc]

/-- `readi` inside a file whose blocks are there. -/
theorem readi_present (hd : (s.icache i).d = d) (hsize : d.size < wordSize) (hn : off + n ≤ d.size)
    (hb : ∀ o, off ≤ o → o < off + n → Backed s d (o / bSize)) :
    readi i off n s = .ok (some ((List.range n).map fun o => fileByte s.data d (off + o)), s) := by
  have hrun := readLoop_present hd le_rfl hb
  have hguard : ¬((s.icache i).d.size < off ∨ (off + n) % wordSize < off) := by
    rw [hd, Nat.mod_eq_of_lt (by omega)]
    omega
  have hlen : ¬(s.icache i).d.size < off + n := by rw [hd]; omega
  show (if (s.icache i).d.size < off ∨ (off + n) % wordSize < off then _ else _ : FsM _) s = _
  rw [if_neg hguard, if_neg hlen, run_bind hrun]
  rfl

/-! ## Directories -/

/-- Entry `e` of a directory. -/
def entryAt (data : Nat → Block) (d : Dinode) (e : Nat) : Dirent :=
  Dirent.decode ((List.range direntSize).map fun o => fileByte data d (direntSize * e + o))

/-- Whether `dirlookup` stops at an entry. -/
abbrev Dirent.hit (name : List UInt8) (de : Dirent) : Prop := de.inum ≠ 0 ∧ namecmp name de.name

theorem readEntry_present {e : Nat} {msg : String} (hd : (s.icache i).d = d) (hsize : d.size < wordSize)
    (hn : direntSize * (e + 1) ≤ d.size) (hb : ∀ o < direntSize * (e + 1), Backed s d (o / bSize)) :
    readEntry i (direntSize * e) msg s = .ok (entryAt s.data d e, s) := by
  have hrun : readi i (direntSize * e) direntSize s = _ := readi_present hd hsize (by omega) fun o _ ho => hb o (by omega)
  rw [readEntry, run_bind hrun]
  simp only [List.length_map, List.length_range, if_true]
  rfl

/-- `dirlookup` stops at the first entry with the name. -/
theorem lookupLoop_hit {name : List UInt8} {j : Nat} (hd : (s.icache i).d = d) (hsize : d.size < wordSize)
    (hn : direntSize * (j + 1) ≤ d.size) (hb : ∀ o < direntSize * (j + 1), Backed s d (o / bSize))
    (hhit : (entryAt s.data d j).hit name) (hmiss : ∀ e < j, ¬(entryAt s.data d e).hit name) :
    ∀ {fuel e : Nat}, e ≤ j → j < e + fuel →
      lookupLoop i name fuel (direntSize * e) s = .ok (some (direntSize * j, (entryAt s.data d j).inum), s)
  | 0, e, he, hf => by omega
  | fuel + 1, e, he, hf => by
    have hle : direntSize * (e + 1) ≤ direntSize * (j + 1) := Nat.mul_le_mul_left _ (by omega)
    have hread : readEntry i (direntSize * e) "dirlookup read" s = _ :=
      readEntry_present hd hsize (hle.trans hn) fun o ho => hb o (ho.trans_le hle)
    show (if (s.icache i).d.size ≤ direntSize * e then _ else _ : FsM _) s = _
    rw [if_neg (by rw [hd]; simp only [direntSize] at *; omega), run_bind hread]
    rcases he.eq_or_lt with rfl | hlt
    · rw [if_pos hhit]
      rfl
    · rw [if_neg (hmiss e hlt)]
      exact lookupLoop_hit hd hsize hn hb hhit hmiss hlt (by omega)

end DemandPaging.FileSys
