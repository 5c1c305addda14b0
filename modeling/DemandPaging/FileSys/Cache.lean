/-
The inode cache of `fs.c`: what `iget`, `ilock` and `iput` do to its entries.
-/
import DemandPaging.FileSys.Read

namespace DemandPaging.FileSys

open Function Outcome

variable {s : Fsys} {i j : InodeIdx} {dev inum : Nat}

/-- The file system with one entry of the inode cache replaced. -/
def Fsys.entry (s : Fsys) (i : InodeIdx) (ip : Inode) : Fsys := { s with icache := update s.icache i ip }

@[simp] theorem Fsys.entry_sb (ip : Inode) : (s.entry i ip).sb = s.sb := rfl
@[simp] theorem Fsys.entry_disksize (ip : Inode) : (s.entry i ip).disksize = s.disksize := rfl
@[simp] theorem Fsys.entry_bit (ip : Inode) : (s.entry i ip).bit = s.bit := rfl
@[simp] theorem Fsys.entry_dinode (ip : Inode) : (s.entry i ip).dinode = s.dinode := rfl
@[simp] theorem Fsys.entry_data (ip : Inode) : (s.entry i ip).data = s.data := rfl
@[simp] theorem Fsys.entry_icache (ip : Inode) : (s.entry i ip).icache = update s.icache i ip := rfl

/-- What `iget` does: it finds the entry of the inode, or recycles the first one that is free. -/
theorem iget_cases (dev inum : Nat) (s : Fsys) :
    (∃ i, 0 < (s.icache i).ref ∧ (s.icache i).dev = dev ∧ (s.icache i).inum = inum ∧
      iget dev inum s = .ok (i, s.entry i { s.icache i with ref := (s.icache i).ref + 1 })) ∨
    (∀ i, 0 < (s.icache i).ref → ¬((s.icache i).dev = dev ∧ (s.icache i).inum = inum)) ∧
      match (List.finRange nInode).find? fun i => (s.icache i).ref == 0 with
      | some i => (s.icache i).ref = 0 ∧
          iget dev inum s = .ok (i, s.entry i { s.icache i with dev := dev, inum := inum, ref := 1, valid := false })
      | none => iget dev inum s = .error (.panic "iget: no inodes") := by
  have hrun : iget dev inum s =
      (match (List.finRange nInode).find? (fun i => 0 < (s.icache i).ref && (s.icache i).dev == dev && (s.icache i).inum == inum) with
      | some i => .ok (i, s.entry i { s.icache i with ref := (s.icache i).ref + 1 })
      | none => match (List.finRange nInode).find? (fun i => (s.icache i).ref == 0) with
        | some i => .ok (i, s.entry i { s.icache i with dev := dev, inum := inum, ref := 1, valid := false })
        | none => .error (.panic "iget: no inodes")) := by
    show (match (List.finRange nInode).find? (fun i => 0 < (s.icache i).ref && (s.icache i).dev == dev && (s.icache i).inum == inum) with
      | some i => _ | none => _ : FsM InodeIdx) s = _
    cases (List.finRange nInode).find? (fun i => 0 < (s.icache i).ref && (s.icache i).dev == dev && (s.icache i).inum == inum) with
    | some i => rfl
    | none =>
      simp only
      cases (List.finRange nInode).find? (fun i => (s.icache i).ref == 0) <;> rfl
  cases hfind : (List.finRange nInode).find? (fun i => 0 < (s.icache i).ref && (s.icache i).dev == dev && (s.icache i).inum == inum) with
  | some i =>
    have hp := List.find?_some hfind
    simp only [Bool.and_eq_true, decide_eq_true_eq, beq_iff_eq] at hp
    rw [hfind] at hrun
    exact .inl ⟨i, hp.1.1, hp.1.2, hp.2, hrun⟩
  | none =>
    rw [hfind] at hrun
    refine .inr ⟨fun i hi hsame => ?_, ?_⟩
    · have := List.find?_eq_none.1 hfind i (List.mem_finRange i)
      simp [hi, hsame.1, hsame.2] at this
    · cases hfree : (List.finRange nInode).find? (fun i => (s.icache i).ref == 0) with
      | none =>
        rw [hfree] at hrun
        exact hrun
      | some i =>
        rw [hfree] at hrun
        have hp := List.find?_some hfree
        exact ⟨by simpa using hp, hrun⟩

/-- An entry is recycled for an inode that is not in the cache. -/
theorem iget_fresh (hmiss : ∀ i, 0 < (s.icache i).ref → ¬((s.icache i).dev = dev ∧ (s.icache i).inum = inum))
    (hj : (List.finRange nInode).find? (fun i => (s.icache i).ref == 0) = some j) :
    iget dev inum s = .ok (j, s.entry j { s.icache j with dev := dev, inum := inum, ref := 1, valid := false }) := by
  rcases iget_cases dev inum s with ⟨i, hi, hd, hn, -⟩ | ⟨-, h⟩
  · exact absurd ⟨hd, hn⟩ (hmiss i hi)
  · rw [hj] at h
    exact h.2

/-- An entry that has not been read is read from the disk. -/
theorem ilock_load (href : 1 ≤ (s.icache i).ref) (hv : (s.icache i).valid = false)
    (hlt : s.sb.iblock (s.icache i).inum < s.disksize) (ht : (s.dinode (s.icache i).inum).type ≠ 0) :
    ilock i s = .ok ((), s.entry i { s.icache i with d := s.dinode (s.icache i).inum, valid := true }) := by
  unfold ilock
  show (if (s.icache i).ref < 1 then _ else _ : FsM Unit) s = _
  rw [if_neg (by omega), if_pos hv, run_bind (access_ok hlt)]
  show (if (s.dinode (s.icache i).inum).type = 0 then _ else _ : FsM Unit) _ = _
  rw [if_neg ht]
  rfl

/-- A reference is dropped that is not the last one of an unlinked inode. -/
theorem iput_drop (h : ¬((s.icache i).valid = true ∧ (s.icache i).d.nlink = 0 ∧ (s.icache i).ref = 1)) :
    iput i s = .ok ((), s.entry i { s.icache i with ref := (s.icache i).ref - 1 }) := by
  unfold iput
  show (if (s.icache i).valid = true ∧ (s.icache i).d.nlink = 0 ∧ (s.icache i).ref = 1 then _ else _ : FsM Unit) s = _
  rw [if_neg h]
  rfl

end DemandPaging.FileSys
