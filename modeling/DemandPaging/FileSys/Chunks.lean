/-
Transactions of `filewrite`: the block functions with the blocks that they pass to `log_write`, and the loop that
cuts a write into transactions. Each transaction logs no more blocks than `begin_op` has reserved for it, and the
pieces that are written follow each other.
-/
import DemandPaging.FileSys.Calls
import DemandPaging.FileSys.Contents
import DemandPaging.Lib.Journal

namespace DemandPaging.FileSys

open Function Bytes Outcome Journal

/-- A file-system computation with the blocks that it logs. -/
abbrev LogM := Journal Nat Stuck Fsys

namespace Logged

/-- `log_write`. -/
def logWrite (b : Nat) : LogM Unit := emit b

/-! ## The block functions -/

/-- `bzero`. -/
def bzero (b : Nat) : LogM Unit := do
  quiet (access b)
  quiet (bput b fun _ => 0)
  logWrite b

/-- `balloc`. -/
def balloc : LogM Nat := do
  let s ← quiet get
  match (List.range s.sb.size).find? fun b => !s.bit b with
  | none => quiet (stuck "balloc: out of blocks")
  | some b =>
    quiet (access (s.sb.bblock b))
    quiet (modify fun s => { s with bit := update s.bit b true })
    logWrite (s.sb.bblock b)
    bzero b
    return b

/-- An address in the inode; `bmap` leaves it to `iupdate` to log the inode. -/
def bmapDirect (i : InodeIdx) (k : Fin (nDirect + 1)) : LogM Nat := do
  let s ← quiet get
  if (s.icache i).d.addrs k ≠ 0 then return (s.icache i).d.addrs k
  else do
    let addr ← balloc
    quiet (setDinode i fun d => { d with addrs := update d.addrs k addr })
    return addr

/-- An entry of the indirect block. -/
def bmapEntry (ind bn : Nat) : LogM Nat := do
  let a ← quiet (bread ind)
  if indirect a bn ≠ 0 then return indirect a bn
  else do
    let addr ← balloc
    quiet (modify fun s => { s with data := update s.data ind (putLe (s.data ind) (4 * bn) 4 addr) })
    logWrite ind
    return addr

/-- `bmap`. -/
def bmap (i : InodeIdx) (bn : Nat) : LogM Nat :=
  if h : bn < nDirect then bmapDirect i ⟨bn, Nat.lt_succ_of_lt h⟩
  else if bn - nDirect < nIndirect then do
    let ind ← bmapDirect i (Fin.last nDirect)
    bmapEntry ind (bn - nDirect)
  else quiet (stuck "bmap: out of range")

/-- The loop of `writei`. -/
def writeLoop (i : InodeIdx) : Nat → Nat → List UInt8 → LogM Unit
  | _, _, [] => return ()
  | 0, _, _ => quiet fun _ => .error .diverge
  | fuel + 1, off, src => do
    let addr ← bmap i (off / bSize)
    let b ← quiet (bread addr)
    let m := min src.length (bSize - off % bSize)
    quiet (bput addr (overwrite b (off % bSize) (src.take m)))
    logWrite addr
    writeLoop i fuel (off + m) (src.drop m)

/-- `iupdate`. -/
def iupdate (i : InodeIdx) : LogM Unit := do
  let s ← quiet get
  quiet (access (s.sb.iblock (s.icache i).inum))
  quiet (modify fun s => { s with dinode := update s.dinode (s.icache i).inum (s.icache i).d })
  logWrite (s.sb.iblock (s.icache i).inum)

/-- `writei`. -/
def writei (i : InodeIdx) (src : List UInt8) (off : Nat) : LogM (Option Nat) := do
  let s ← quiet get
  if (s.icache i).d.size < off ∨ (off + src.length) % wordSize < off then return none
  else if maxFileBytes < off + src.length then return none
  else do
    writeLoop i src.length off src
    if 0 < src.length ∧ (s.icache i).d.size < off + src.length then
      quiet (setDinode i fun d => { d with size := off + src.length })
      iupdate i
    return some src.length

/-! ## What they log -/

/-- Apart from the bitmap block only blocks of `P` are logged. -/
def Within (bm : Nat) (P : Finset Nat) (l : List Nat) : Prop := ∀ b ∈ l, b = bm ∨ b ∈ P

section Within

variable {bm b : Nat} {P P' : Finset Nat} {l l' : List Nat}

theorem within_nil : Within bm P [] := fun _ hb => absurd hb List.not_mem_nil

theorem Within.mono (h : Within bm P l) (hP : P ⊆ P') : Within bm P' l := fun b hb => (h b hb).imp_right fun hb' => hP hb'

theorem Within.append (h : Within bm P l) (h' : Within bm P' l') : Within bm (P ∪ P') (l ++ l') := by
  intro b hb
  rcases List.mem_append.1 hb with hb | hb
  · exact (h b hb).imp_right (Finset.mem_union_left _)
  · exact (h' b hb).imp_right (Finset.mem_union_right _)

theorem Within.cons (hb : b = bm ∨ b ∈ P) (h : Within bm P l) : Within bm P (b :: l) := by
  rintro c hc
  rcases List.mem_cons.1 hc with rfl | hc
  · exact hb
  · exact h c hc

theorem Within.card (h : Within bm P l) : l.toFinset.card ≤ P.card + 1 := by
  have hsub : l.toFinset ⊆ insert bm P := by
    intro b hb
    rw [Finset.mem_insert]
    exact h b (List.mem_toFinset.1 hb)
  exact (Finset.card_le_card hsub).trans (Finset.card_insert_le _ _)

end Within

section Records

variable {sb : SuperBlock} {i : InodeIdx}

/-- The superblock, with one block for the bitmap. -/
abbrev On (sb : SuperBlock) (s : Fsys) : Prop := s.sb = sb

theorem on_access {b : Nat} : ∀ s a s', On sb s → access b s = .ok (a, s') → On sb s' := by
  intro s a s' hs h
  unfold access at h
  split at h
  · cases h
    exact hs
  · cases h

theorem on_bread {b : Nat} : ∀ s a s', On sb s → bread b s = .ok (a, s') → On sb s' := by
  intro s a s' hs h
  obtain ⟨-, rfl⟩ := bread_inv h
  exact hs

theorem on_modify {g : Fsys → Fsys} (hg : ∀ s, (g s).sb = s.sb) : ∀ s a s', On sb s → (modify g : FsM Unit) s = .ok (a, s') → On sb s' := by
  intro s a s' hs h
  cases h
  exact (hg s).trans hs

theorem on_stuck {α : Type} {msg : String} : ∀ s a s', On sb s → (stuck msg : FsM α) s = .ok (a, s') → On sb s' := by
  intro s a s' _ h
  cases h

/-- The blocks logged lie in `P x`, where `x` is the result if there is one. -/
def Logs (bm : Nat) (P : Nat → Finset Nat) (r : Except Stuck Nat) (l : List Nat) : Prop := ∃ x, (∀ y, r = .ok y → y = x) ∧ Within bm (P x) l

theorem logs_nil {bm : Nat} {P : Nat → Finset Nat} : ∀ r : Except Stuck Nat, Logs bm P r []
  | .ok x => ⟨x, fun _ hy => (Except.ok.inj hy).symm, within_nil⟩
  | .error _ => ⟨0, fun _ hy => (nomatch hy), within_nil⟩

theorem bzero_records (bm b : Nat) : Records (On sb) (bzero b) (FileSys.bzero b) fun _ l => Within bm {b} l := by
  refine .quiet_bind on_access (fun _ => ?_) fun _ => within_nil
  refine Records.bind_emit (records_quiet (Q := fun _ l => l = []) (on_modify fun _ => rfl) fun _ => rfl) ?_ ?_
  · rintro e l rfl
    exact within_nil
  · rintro l rfl
    exact Within.cons (.inr (Finset.mem_singleton_self b)) within_nil

/-- `balloc` logs the bitmap and the block that it returns. -/
theorem balloc_records (hone : sb.size ≤ bpb) : Records (On sb) balloc FileSys.balloc (Logs sb.bmapstart fun x => {x}) := by
  refine .get_bind fun s hs => ?_
  have hs : s.sb = sb := hs
  cases hfind : (List.range s.sb.size).find? fun b => !s.bit b with
  | none => exact records_quiet on_stuck logs_nil
  | some b =>
    have hlt : b < sb.size := by
      rw [← hs]
      exact List.mem_range.1 (List.mem_of_find?_eq_some hfind)
    have hbm : s.sb.bblock b = sb.bmapstart := by
      rw [hs, SuperBlock.bblock, Nat.div_eq_of_lt (hlt.trans_le hone), Nat.zero_add]
    refine .quiet_bind on_access (fun _ => ?_) fun _ => logs_nil _
    refine .quiet_bind (on_modify fun _ => rfl) (fun _ => ?_) fun _ => logs_nil _
    have hzero : Records (On sb) (do bzero b; return b : LogM Nat) (do FileSys.bzero b; return b) (Logs sb.bmapstart fun x => {x}) := by
      refine (bzero_records sb.bmapstart b).bind (R := fun _ r l => r = .ok b ∧ l = []) (fun _ => records_pure ⟨rfl, rfl⟩) ?_ ?_
      · exact fun e l h => ⟨b, fun _ hy => (by cases hy), h⟩
      · rintro a l r l' h ⟨rfl, rfl⟩
        rw [List.append_nil]
        exact ⟨b, fun _ hy => (Except.ok.inj hy).symm, h⟩
    refine hzero.emit_bind ?_
    rintro r l ⟨x, hx, h⟩
    exact ⟨x, hx, Within.cons (.inl hbm) h⟩

/-- A step that passes the new block on, and may log one more block. -/
theorem balloc_then (hone : sb.size ≤ bpb) {f : Nat → LogM Nat} {g : Nat → FsM Nat} {P : Finset Nat}
    (hf : ∀ x, Records (On sb) (f x) (g x) fun r l => (∀ y, r = .ok y → y = x) ∧ Within sb.bmapstart P l) :
    Records (On sb) (balloc >>= f) (FileSys.balloc >>= g) (Logs sb.bmapstart fun x => {x} ∪ P) := by
  refine (balloc_records hone).bind hf ?_ ?_
  · rintro e l ⟨x, hx, h⟩
    exact ⟨x, fun _ hy => (nomatch hy), h.mono Finset.subset_union_left⟩
  · rintro x l r l' ⟨y, hy, h⟩ ⟨hr, h'⟩
    rw [← hy x rfl] at h
    exact ⟨x, hr, h.append h'⟩

theorem bmapDirect_records (hone : sb.size ≤ bpb) (k : Fin (nDirect + 1)) :
    Records (On sb) (bmapDirect i k) (FileSys.bmapDirect i k) (Logs sb.bmapstart fun x => {x} ∪ ∅) := by
  refine .get_bind fun s hs => ?_
  show Records _ (if (s.icache i).d.addrs k ≠ 0 then _ else _) (if (s.icache i).d.addrs k ≠ 0 then _ else _) _
  by_cases h0 : (s.icache i).d.addrs k ≠ 0
  · rw [if_pos h0, if_pos h0]
    exact records_pure (logs_nil _)
  · rw [if_neg h0, if_neg h0]
    refine balloc_then hone fun x => ?_
    refine .quiet_bind (on_modify fun _ => rfl) (fun _ => records_pure ⟨?_, within_nil⟩) fun e => ⟨fun y hy => (nomatch hy), within_nil⟩
    rintro y hy
    exact (Except.ok.inj hy).symm

theorem bmapEntry_records (hone : sb.size ≤ bpb) (ind bn : Nat) :
    Records (On sb) (bmapEntry ind bn) (FileSys.bmapEntry ind bn) (Logs sb.bmapstart fun x => {x} ∪ {ind}) := by
  refine .quiet_bind on_bread (fun a => ?_) fun _ => logs_nil _
  by_cases h0 : indirect a bn ≠ 0
  · rw [if_pos h0, if_pos h0]
    exact records_pure (logs_nil _)
  · rw [if_neg h0, if_neg h0]
    refine balloc_then hone fun x => ?_
    refine .quiet_bind (on_modify fun _ => rfl) (fun _ => ?_) fun e => ⟨fun y hy => (nomatch hy), within_nil⟩
    refine (records_pure (Q := fun r l => r = .ok x ∧ l = []) ⟨rfl, rfl⟩).emit_bind ?_
    rintro r l ⟨rfl, rfl⟩
    exact ⟨fun y hy => (Except.ok.inj hy).symm, Within.cons (.inr (Finset.mem_singleton_self ind)) within_nil⟩

/-- `bmap` logs the new block of the file, and the indirect block. -/
theorem bmap_records (hone : sb.size ≤ bpb) (bn : Nat) :
    Records (On sb) (bmap i bn) (FileSys.bmap i bn) fun r l => ∃ ind, Logs sb.bmapstart (fun x => {x} ∪ {ind}) r l := by
  unfold bmap FileSys.bmap
  split
  · next hk =>
    refine (bmapDirect_records hone ⟨bn, by omega⟩).post ?_
    rintro r l ⟨x, hx, h⟩
    exact ⟨0, x, hx, h.mono (Finset.union_subset_union_right (Finset.empty_subset _))⟩
  split
  · refine (bmapDirect_records hone (Fin.last nDirect)).bind (fun ind => bmapEntry_records hone ind (bn - nDirect)) ?_ ?_
    · rintro e l ⟨x, hx, h⟩
      exact ⟨0, x, fun _ hy => (nomatch hy), h.mono (Finset.union_subset_union_right (Finset.empty_subset _))⟩
    · -- the indirect block may be new, and is logged again for its new entry
      rintro ind l r l' ⟨y, hy, h⟩ ⟨x, hx, h'⟩
      rw [← hy ind rfl] at h
      exact ⟨ind, x, hx, (h.append h').mono (by intro b; simp)⟩
  · exact records_quiet on_stuck fun r => ⟨0, logs_nil r⟩

/-- The blocks of a piece of a file. -/
def rounds (off n : Nat) : Nat := if n = 0 then 0 else (off % bSize + n + (bSize - 1)) / bSize

/-- The loop of `writei` logs two blocks for each round, apart from the bitmap. -/
theorem writeLoop_records (hone : sb.size ≤ bpb) : ∀ (fuel off : Nat) (src : List UInt8),
    Records (On sb) (writeLoop i fuel off src) (FileSys.writeLoop i fuel off src) fun _ l =>
      ∃ P : Finset Nat, P.card ≤ 2 * rounds off src.length ∧ Within sb.bmapstart P l
  | fuel, off, [] => by
    unfold writeLoop FileSys.writeLoop
    exact records_pure ⟨∅, Nat.zero_le _, within_nil⟩
  | 0, off, b :: src => records_quiet (fun s a s' _ h => (nomatch h)) fun _ => ⟨∅, Nat.zero_le _, within_nil⟩
  | fuel + 1, off, b :: src => by
    simp only [writeLoop, FileSys.writeLoop]
    generalize hm : min (b :: src).length (bSize - off % bSize) = m
    have hmod := Nat.mod_lt off (show 0 < bSize by decide)
    have hlen : 0 < (b :: src).length := by simp
    have hrounds : rounds off (b :: src).length = rounds (off + m) ((b :: src).drop m).length + 1 := by
      rw [List.length_drop]
      generalize (b :: src).length = n at *
      simp only [rounds, bSize] at *
      split_ifs <;> omega
    refine (bmap_records hone (off / bSize)).bind (R := fun x _ l => ∃ P : Finset Nat, P.card ≤ 2 * rounds (off + m) ((b :: src).drop m).length ∧
      Within sb.bmapstart ({x} ∪ P) l) (fun x => ?_) ?_ ?_
    · refine .quiet_bind on_bread (fun v => ?_) fun _ => ⟨∅, Nat.zero_le _, within_nil⟩
      refine .quiet_bind (on_modify fun _ => rfl) (fun _ => ?_) fun _ => ⟨∅, Nat.zero_le _, within_nil⟩
      refine (writeLoop_records hone fuel (off + m) ((b :: src).drop m)).emit_bind ?_
      rintro r l ⟨P, hP, h⟩
      exact ⟨P, hP, Within.cons (.inr (by simp)) (h.mono Finset.subset_union_right)⟩
    · rintro e l ⟨ind, x, hx, h⟩
      refine ⟨{x} ∪ {ind}, ?_, h⟩
      have hcard : ({x} ∪ {ind} : Finset Nat).card ≤ 2 := Finset.card_le_two
      omega
    · rintro x l r l' ⟨ind, y, hy, h⟩ ⟨P, hP, h'⟩
      rw [← hy x rfl] at h
      refine ⟨({x} ∪ {ind}) ∪ P, ?_, (h.append h').mono (by intro b; simp)⟩
      have hcard : ({x} ∪ {ind} : Finset Nat).card ≤ 2 := Finset.card_le_two
      have := Finset.card_union_le ({x} ∪ {ind}) P
      omega

theorem iupdate_records : Records (On sb) (iupdate i) (FileSys.iupdate i) fun _ l => ∃ P : Finset Nat, P.card ≤ 1 ∧ Within sb.bmapstart P l := by
  refine .get_bind fun s hs => ?_
  refine .quiet_bind on_access (fun _ => ?_) fun _ => ⟨∅, Nat.zero_le _, within_nil⟩
  refine Records.bind_emit (records_quiet (Q := fun _ l => l = []) (on_modify fun _ => rfl) fun _ => rfl) ?_ ?_
  · rintro e l rfl
    exact ⟨∅, Nat.zero_le _, within_nil⟩
  · rintro l rfl
    exact ⟨{_}, le_rfl, Within.cons (.inr (Finset.mem_singleton_self _)) within_nil⟩

/-- `writei` logs the blocks of its rounds and the inode. -/
theorem writei_records (hone : sb.size ≤ bpb) (src : List UInt8) (off : Nat) :
    Records (On sb) (writei i src off) (FileSys.writei i src off) fun _ l =>
      ∃ P : Finset Nat, P.card ≤ 2 * rounds off src.length + 1 ∧ Within sb.bmapstart P l := by
  refine .get_bind fun s hs => ?_
  show Records _ (if (s.icache i).d.size < off ∨ (off + src.length) % wordSize < off then _ else if maxFileBytes < off + src.length then _ else _)
    (if (s.icache i).d.size < off ∨ (off + src.length) % wordSize < off then _ else if maxFileBytes < off + src.length then _ else _) _
  by_cases h1 : (s.icache i).d.size < off ∨ (off + src.length) % wordSize < off
  · rw [if_pos h1, if_pos h1]
    exact records_pure ⟨∅, Nat.zero_le _, within_nil⟩
  rw [if_neg h1, if_neg h1]
  by_cases h2 : maxFileBytes < off + src.length
  · rw [if_pos h2, if_pos h2]
    exact records_pure ⟨∅, Nat.zero_le _, within_nil⟩
  rw [if_neg h2, if_neg h2]
  refine (writeLoop_records hone src.length off src).bind
    (R := fun _ _ l => ∃ P : Finset Nat, P.card ≤ 1 ∧ Within sb.bmapstart P l) (fun _ => ?_) ?_ ?_
  · show Records _ (if 0 < src.length ∧ (s.icache i).d.size < off + src.length then _ else _)
      (if 0 < src.length ∧ (s.icache i).d.size < off + src.length then _ else _) _
    by_cases h3 : 0 < src.length ∧ (s.icache i).d.size < off + src.length
    · rw [if_pos h3, if_pos h3]
      refine .quiet_bind (on_modify fun _ => rfl) (fun _ => ?_) fun _ => ⟨∅, Nat.zero_le _, within_nil⟩
      refine iupdate_records.bind (R := fun _ _ l => l = []) (fun _ => records_pure rfl) (fun _ _ h => h) ?_
      rintro a l r l' h rfl
      rw [List.append_nil]
      exact h
    · rw [if_neg h3, if_neg h3]
      exact records_pure ⟨∅, Nat.zero_le _, within_nil⟩
  · rintro e l ⟨P, hP, h⟩
    exact ⟨P, by omega, h⟩
  · rintro a l r l' ⟨P, hP, h⟩ ⟨P', hP', h'⟩
    refine ⟨P ∪ P', ?_, h.append h'⟩
    have := Finset.card_union_le P P'
    omega

end Records

end Logged

/-! ## The loop of `filewrite` -/

/-- What `filewrite` does between a `begin_op` and the next `end_op`: the offset and the bytes that it passes to `writei`, and the
blocks that are logged. -/
structure Chunk where
  off : Nat
  bytes : List UInt8
  logged : List Nat

/-- `ilock` and `writei` in one transaction. -/
def transaction (ip : InodeIdx) (bytes : List UInt8) (off : Nat) : LogM (Option Nat) := do
  quiet (ilock ip)
  Logged.writei ip bytes off

/-- The loop of `filewrite` on an inode, from `off` and with the bytes `src` left: how many of them are written, the offset of the
file afterwards, and the transactions. -/
def filewriteLoop (ip : InodeIdx) : Nat → Nat → List UInt8 → Fsys → Except Stuck (Nat × Nat × Fsys) × List Chunk
  | _, off, [], s => (.ok (0, off, s), [])
  | 0, _, _, _ => (.error .diverge, [])
  | fuel + 1, off, src, s =>
    let bytes := src.take maxWrite
    match transaction ip bytes off s with
    | (.error e, l) => (.error e, [⟨off, bytes, l⟩])
    | (.ok (none, s), l) => (.ok (0, off, s), [⟨off, bytes, l⟩])
    | (.ok (some r, s), l) =>
      if r ≠ bytes.length then (.error (.panic "short filewrite"), [⟨off, bytes, l⟩])
      else
        let rest := filewriteLoop ip fuel ((off + r) % wordSize) (src.drop r) s
        (rest.1.map fun (i, off, s) => (r + i, off, s), ⟨off, bytes, l⟩ :: rest.2)

/-- `filewrite` of `n` bytes from `addr` to a file with an inode; null for `-1`. -/
def filewriteInode (ip : InodeIdx) (off : Nat) (addr : Nat → UInt8) (n : Int) (s : Fsys) :
    Except Stuck (Option Int × Nat × Fsys) × List Chunk :=
  let loop := filewriteLoop ip n.toNat off ((List.range n.toNat).map addr) s
  (loop.1.map fun (i, off, s) => (if (i : Int) = n then some n else none, off, s), loop.2)

/-- Each transaction starts where the one before it has ended. -/
def Consecutive : Nat → List Chunk → Prop
  | _, [] => True
  | off, c :: cs => c.off = off ∧ Consecutive ((off + c.bytes.length) % wordSize) cs

section Loop

variable {sb : SuperBlock} {ip : InodeIdx} {s : Fsys}

theorem on_ilock : ∀ s a s', Logged.On sb s → ilock ip s = .ok (a, s') → Logged.On sb s' := by
  intro s a s' hs h
  change (if (s.icache ip).ref < 1 then _ else _ : FsM Unit) s = _ at h
  split at h
  · cases h
  split at h
  · obtain ⟨_, s₁, hacc, h⟩ := bind_ok.1 h
    have hs₁ := Logged.on_access s _ s₁ hs hacc
    obtain ⟨_, s₂, hset, h⟩ := bind_ok.1 h
    cases hset
    split at h
    · cases h
    · cases h
      exact hs₁
  · cases h
    exact hs

/-- A transaction is `ilock` and `writei`, and logs no more than what is reserved for it. -/
theorem transaction_records (ip : InodeIdx) (hone : sb.size ≤ bpb) {bytes : List UInt8} (hlen : bytes.length ≤ maxWrite) (off : Nat) :
    Records (Logged.On sb) (transaction ip bytes off) (do ilock ip; writei ip bytes off) fun _ l => l.toFinset.card ≤ maxOpBlocks := by
  have hrounds : Logged.rounds off bytes.length ≤ 4 := by
    have hmod := Nat.mod_lt off (show 0 < bSize by decide)
    have hmax : maxWrite = 3 * bSize := rfl
    rw [hmax] at hlen
    unfold Logged.rounds
    split
    · exact Nat.zero_le _
    · refine Nat.le_of_lt_succ (Nat.div_lt_of_lt_mul ?_)
      simp only [bSize] at *
      omega
  refine .quiet_bind on_ilock (fun _ => ?_) fun _ => by simp
  refine (Logged.writei_records hone bytes off).post ?_
  rintro r l ⟨P, hP, h⟩
  have hcard := h.card
  simp only [maxOpBlocks]
  omega

/-- The loop of `filewrite`: its transactions fit and follow each other, and cover what has been written. -/
theorem filewriteLoop_ok (ip : InodeIdx) (hone : sb.size ≤ bpb) : ∀ (fuel off : Nat) (src : List UInt8) (s : Fsys), s.sb = sb →
    (∀ c ∈ (filewriteLoop ip fuel off src s).2, c.bytes ≠ [] ∧ c.logged.toFinset.card ≤ maxOpBlocks) ∧
    Consecutive off (filewriteLoop ip fuel off src s).2 ∧ (filewriteLoop ip fuel off src s).2.flatMap Chunk.bytes <+: src ∧
    ∀ off' s', (filewriteLoop ip fuel off src s).1 = .ok (src.length, off', s') →
      (filewriteLoop ip fuel off src s).2.flatMap Chunk.bytes = src
  | fuel, off, [], s, _ => by
    unfold filewriteLoop
    exact ⟨fun c hc => absurd hc List.not_mem_nil, trivial, List.nil_prefix, fun _ _ _ => rfl⟩
  | 0, off, b :: src, s, _ => ⟨fun c hc => absurd hc List.not_mem_nil, trivial, List.nil_prefix, fun _ _ h => (nomatch h)⟩
  | fuel + 1, off, b :: src, s, hs => by
    have hne : (b :: src).take maxWrite ≠ [] := by
      rw [ne_eq, List.take_eq_nil_iff]
      rintro (h | h)
      · exact absurd h (by decide)
      · cases h
    obtain ⟨hrun, hon, hcard⟩ := transaction_records ip hone (List.length_take_le maxWrite (b :: src)) off s hs
    cases htr : transaction ip ((b :: src).take maxWrite) off s with
    | mk r l =>
      rw [htr] at hrun hcard
      simp only [filewriteLoop, htr]
      -- the first transaction, where it is the only one
      have hfirst : ∀ c ∈ [(⟨off, (b :: src).take maxWrite, l⟩ : Chunk)], c.bytes ≠ [] ∧ c.logged.toFinset.card ≤ maxOpBlocks := by
        intro c hc
        rw [List.mem_singleton] at hc
        subst hc
        exact ⟨hne, hcard⟩
      have hpre : [(⟨off, (b :: src).take maxWrite, l⟩ : Chunk)].flatMap Chunk.bytes <+: b :: src := by
        rw [List.flatMap_singleton]
        exact List.take_prefix _ _
      cases r with
      | error e => exact ⟨hfirst, ⟨rfl, trivial⟩, hpre, fun _ _ h => (nomatch h)⟩
      | ok p =>
        obtain ⟨k, s₁⟩ := p
        cases k with
        | none => exact ⟨hfirst, ⟨rfl, trivial⟩, hpre, fun _ _ h => (nomatch h)⟩
        | some k =>
          by_cases hk : k ≠ ((b :: src).take maxWrite).length
          · simp only [if_pos hk]
            exact ⟨hfirst, ⟨rfl, trivial⟩, hpre, fun _ _ h => (nomatch h)⟩
          · simp only [if_neg hk]
            have hk : k = ((b :: src).take maxWrite).length := not_not.1 hk
            have hsplit : (b :: src).take maxWrite ++ (b :: src).drop k = b :: src := by
              rw [hk, List.length_take]
              rcases le_total maxWrite (b :: src).length with hle | hle
              · rw [Nat.min_eq_left hle, List.take_append_drop]
              · rw [Nat.min_eq_right hle, List.take_of_length_le hle, List.drop_length, List.append_nil]
            have hlen : k + ((b :: src).drop k).length = (b :: src).length := by
              conv_rhs => rw [← hsplit, List.length_append, ← hk]
            obtain ⟨h1, h2, h3, h4⟩ := filewriteLoop_ok ip hone fuel ((off + k) % wordSize) ((b :: src).drop k) s₁ (hon _ _ hrun.symm)
            generalize filewriteLoop ip fuel ((off + k) % wordSize) ((b :: src).drop k) s₁ = rest at *
            refine ⟨fun c hc => ?_, ⟨rfl, by rw [← hk]; exact h2⟩, ?_, fun off' s' hr => ?_⟩
            · rcases List.mem_cons.1 hc with rfl | hc
              · exact ⟨hne, hcard⟩
              · exact h1 c hc
            · rw [List.flatMap_cons]
              conv_rhs => rw [← hsplit]
              exact (List.prefix_append_right_inj _).2 h3
            · obtain ⟨r, cs⟩ := rest
              cases r with
              | error e => cases hr
              | ok p =>
                obtain ⟨j, off'', s''⟩ := p
                simp only [Except.map, Except.ok.injEq, Prod.mk.injEq] at hr
                obtain ⟨hj, -, -⟩ := hr
                have hj' : j = ((b :: src).drop k).length := by omega
                subst hj'
                rw [List.flatMap_cons, h4 off'' s'' rfl, hsplit]

/-- Each transaction of `filewrite` fits into what `begin_op` has reserved. The pieces that it writes are not empty and follow each
other, and are all of the bytes where it returns `n`. -/
theorem filewrite_transactions (ip : InodeIdx) (off : Nat) (addr : Nat → UInt8) (n : Int) (hone : s.sb.size ≤ bpb) :
    (∀ c ∈ (filewriteInode ip off addr n s).2, c.bytes ≠ [] ∧ c.logged.toFinset.card ≤ maxOpBlocks) ∧
    Consecutive off (filewriteInode ip off addr n s).2 ∧
    (filewriteInode ip off addr n s).2.flatMap Chunk.bytes <+: (List.range n.toNat).map addr ∧
    ∀ off' s', (filewriteInode ip off addr n s).1 = .ok (some n, off', s') →
      (filewriteInode ip off addr n s).2.flatMap Chunk.bytes = (List.range n.toNat).map addr := by
  obtain ⟨h1, h2, h3, h4⟩ := filewriteLoop_ok ip hone n.toNat off ((List.range n.toNat).map addr) s rfl
  unfold filewriteInode
  simp only
  generalize filewriteLoop ip n.toNat off ((List.range n.toNat).map addr) s = r at *
  refine ⟨h1, h2, h3, fun off' s' hr => ?_⟩
  obtain ⟨r, cs⟩ := r
  cases r with
  | error e => cases hr
  | ok p =>
    obtain ⟨i, off'', s''⟩ := p
    simp only [Except.map, Except.ok.injEq, Prod.mk.injEq] at hr
    obtain ⟨hi, -, -⟩ := hr
    split at hi
    · next hin =>
      refine h4 off'' s'' ?_
      have hlen : i = ((List.range n.toNat).map addr).length := by simp; omega
      rw [hlen]
    · cases hi

theorem filewrite_transactions_small : ∃ off' s', (filewriteInode 0 0 (fun i => i.toUInt8) 3 smallFs).1 = .ok (some 3, off', s') ∧
    (filewriteInode 0 0 (fun i => i.toUInt8) 3 smallFs).2.flatMap Chunk.bytes = [0, 1, 2] := by
  have hrun : (match (filewriteInode 0 0 (fun i => i.toUInt8) 3 smallFs).1 with | .ok p => p.1 | .error _ => none) = some 3 := by
    decide +kernel
  obtain ⟨-, -, -, hall⟩ := filewrite_transactions 0 0 (fun i => i.toUInt8) 3 (show smallFs.sb.size ≤ bpb by decide)
  cases hr : (filewriteInode 0 0 (fun i => i.toUInt8) 3 smallFs).1 with
  | error e =>
    rw [hr] at hrun
    cases hrun
  | ok p =>
    obtain ⟨r, off', s'⟩ := p
    rw [hr] at hrun hall
    cases hrun
    exact ⟨off', s', rfl, hall off' s' rfl⟩

end Loop

end DemandPaging.FileSys
