/-
Directories as finite maps: the entries of a directory are slots that hold the first `DIRSIZ` bytes of a
name. `dirlookup` finds a name in them, `dirlink` puts one into the first free slot, and an entry that is
zeroed is free again.
-/
import DemandPaging.FileSys.Contents
import DemandPaging.Lib.Slots

namespace DemandPaging.FileSys

open Function Bytes Outcome Slots

/-! ## Entries -/

/-- The name of an entry; a free entry has none. -/
def Dirent.key (de : Dirent) : Option (List UInt8) := if de.inum = 0 then none else some (cname de.name)

/-- The entries of a directory. -/
def dirents (c : List UInt8) : List Dirent :=
  (List.range (c.length / direntSize)).map fun e => Dirent.decode ((c.drop (direntSize * e)).take direntSize)

/-- Where a name is found: the offset and the inode number of its entry. -/
def found (es : List Dirent) (name : List UInt8) : Option (Nat × Nat) :=
  (find Dirent.key (cname name) es).map fun e => (direntSize * e, (es[e]?.map Dirent.inum).getD 0)

/-- The entries of a directory that is in the inode cache. -/
def Fsys.dirents (s : Fsys) (dp : InodeIdx) : List Dirent := FileSys.dirents (contents s.data (s.icache dp).d)

section Entries

variable {c name : List UInt8} {de : Dirent} {n : Nat}

theorem Dirent.hit_iff : de.hit name ↔ de.key = some (cname name) := by
  unfold Dirent.hit Dirent.key namecmp
  split
  · next h0 => exact iff_of_false (fun h => h.1 h0) (by simp)
  · next h0 =>
    rw [beq_iff_eq, Option.some.injEq]
    exact ⟨fun h => h.2.symm, fun h => ⟨h0, h.symm⟩⟩

@[simp] theorem length_dirents : (dirents c).length = c.length / direntSize := by simp [dirents]

theorem dirents_getElem? {e : Nat} (he : e < c.length / direntSize) :
    (dirents c)[e]? = some (Dirent.decode ((c.drop (direntSize * e)).take direntSize)) := by
  rw [dirents, List.getElem?_map, List.getElem?_range he, Option.map_some]

theorem entryAt_eq {data : Nat → Block} {d : Dinode} {e : Nat} (he : e < d.size / direntSize) :
    (dirents (contents data d))[e]? = some (entryAt data d e) := by
  rw [dirents_getElem? (by rwa [length_contents]), take_drop_contents (by simp only [direntSize] at *; omega)]
  rfl

/-- Overwriting an entry sets its slot. -/
theorem dirents_writeAt (hc : c.length % direntSize = 0) (hn : n ≤ c.length / direntSize) (hk : de.inum < 2 ^ 16)
    (hname : de.name.length = dirSiz) : dirents (writeAt c (direntSize * n) (Dirent.encode de)) = put (dirents c) n de := by
  have hlen : (Dirent.encode de).length = direntSize := Dirent.length_encode hname
  have hle : direntSize * n ≤ c.length := by simp only [direntSize] at *; omega
  have htot : (writeAt c (direntSize * n) (Dirent.encode de)).length / direntSize = max (c.length / direntSize) (n + 1) := by
    rw [length_writeAt hle, hlen]
    simp only [direntSize] at *
    omega
  refine List.ext_getElem? fun e => ?_
  by_cases he : e < max (c.length / direntSize) (n + 1)
  swap
  · rw [List.getElem?_eq_none (by rw [length_dirents, htot]; omega),
      List.getElem?_eq_none (by rw [length_put (by simpa using hn), length_dirents]; omega)]
  rw [dirents_getElem? (by rwa [htot]), put, length_dirents]
  by_cases hen : e = n
  · -- the entry itself
    subst hen
    have hget : ((writeAt c (direntSize * e) (Dirent.encode de)).drop (direntSize * e)).take direntSize = Dirent.encode de := by
      rw [writeAt, List.append_assoc]
      exact take_drop_field (by simpa using hle) hlen
    rw [hget, Dirent.decode_encode hk hname]
    split
    · next hlt => rw [List.getElem?_set_self (by simpa using hlt)]
    · next hge =>
      rw [List.getElem?_append_right (by simpa using hge)]
      have h0 : e - (dirents c).length = 0 := by simp only [length_dirents]; omega
      rw [h0]
      rfl
  · have hec : e < c.length / direntSize := by omega
    have hget : ((writeAt c (direntSize * n) (Dirent.encode de)).drop (direntSize * e)).take direntSize =
        (c.drop (direntSize * e)).take direntSize := by
      refine List.ext_getElem ?_ fun o ho ho' => ?_
      · rw [List.length_take, List.length_take, List.length_drop, List.length_drop, length_writeAt hle, hlen]
        simp only [direntSize] at *
        omega
      · have ho2 : o < direntSize := by rw [List.length_take] at ho; omega
        rw [List.getElem_take, List.getElem_take, List.getElem_drop, List.getElem_drop, getElem_writeAt hle,
          if_neg (by rw [hlen]; simp only [direntSize] at *; omega), List.getD_eq_getElem?_getD,
          List.getElem?_eq_getElem (by simp only [direntSize] at *; omega), Option.getD_some]
    rw [hget, ← dirents_getElem? hec]
    split
    · rw [List.getElem?_set_ne (by omega)]
    · rw [List.getElem?_append_left (by simpa using hec)]

end Entries

/-! ## Scans -/

/-- A directory in the inode cache, on a disk whose blocks have one owner each. -/
structure Directory (A : Nat → Prop) (D : Nat → Dinode) (s : Fsys) (dp : InodeIdx) : Prop extends Owned A D s where
  mem : A (s.icache dp).inum
  cached : (s.icache dp).d = D (s.icache dp).inum
  type : (s.icache dp).d.type = tDir
  whole : (s.icache dp).d.size % direntSize = 0

/-- `dirlookup` stops at the entry with an offset and an inode number, or at the end. -/
def Finds (s : Fsys) (dp : InodeIdx) (name : List UInt8) : Option (Nat × Nat) → Prop
  | none => dirlookup dp name s = .ok (none, s)
  | some (off, inum) => dirlookup dp name s = (do return some (← iget (s.icache dp).dev inum, off) : FsM _) s

section Scans

variable {A : Nat → Prop} {D : Nat → Dinode} {s : Fsys} {dp : InodeIdx} {name : List UInt8}

theorem Directory.size_lt (h : Directory A D s dp) : (s.icache dp).d.size < wordSize := by
  have hle := (h.shape _ h.mem).size
  rw [h.cached]
  simp only [maxFileBytes, bSize, wordSize] at *
  omega

theorem Directory.readEntry (h : Directory A D s dp) {e : Nat} (he : e < (s.icache dp).d.size / direntSize) (msg : String) :
    readEntry dp (direntSize * e) msg s = .ok (entryAt s.data (s.icache dp).d e, s) := by
  have hn : direntSize * (e + 1) ≤ (s.icache dp).d.size := by simp only [direntSize] at *; omega
  refine readEntry_present rfl h.size_lt hn fun o ho => ?_
  rw [h.cached] at hn ⊢
  exact h.backed h.mem (ho.trans_le hn)

/-- `dirlookup` goes on to the end where no entry has the name. -/
theorem Directory.lookupLoop_miss (h : Directory A D s dp)
    (hmiss : ∀ e < (s.icache dp).d.size / direntSize, ¬(entryAt s.data (s.icache dp).d e).hit name) :
    ∀ fuel e, lookupLoop dp name fuel (direntSize * e) s = .ok (none, s)
  | 0, e => rfl
  | fuel + 1, e => by
    show (if (s.icache dp).d.size ≤ direntSize * e then _ else _ : FsM _) s = _
    by_cases hend : (s.icache dp).d.size ≤ direntSize * e
    · rw [if_pos hend]
      rfl
    · have hwhole := h.whole
      have he : e < (s.icache dp).d.size / direntSize := by simp only [direntSize] at *; omega
      rw [if_neg hend, run_bind (h.readEntry he _), if_neg (hmiss e he)]
      exact lookupLoop_miss h hmiss fuel (e + 1)

theorem keyAt_dirents {e : Nat} {k : List UInt8} :
    keyAt Dirent.key (s.dirents dp) e = some k ↔
      e < (s.icache dp).d.size / direntSize ∧ (entryAt s.data (s.icache dp).d e).key = some k := by
  unfold Slots.keyAt Fsys.dirents
  by_cases he : e < (s.icache dp).d.size / direntSize
  · rw [entryAt_eq he, Option.bind_some]
    exact ⟨fun hk => ⟨he, hk⟩, fun hk => hk.2⟩
  · rw [List.getElem?_eq_none (by rw [length_dirents, length_contents]; omega)]
    simp [he]

/-- `dirlookup` finds the entry with the name. -/
theorem Directory.finds (h : Directory A D s dp) (name : List UInt8) : Finds s dp name (found (s.dirents dp) name) := by
  have hstart : ∀ r, lookupLoop dp name (s.icache dp).d.size 0 s = .ok (r, s) → dirlookup dp name s =
      (r.elim (return none) fun x => do return some (← iget (s.icache dp).dev x.2, x.1) : FsM _) s := by
    intro r hr
    show (if (s.icache dp).d.type ≠ tDir then _ else _ : FsM _) s = _
    rw [if_neg (not_not.2 h.type)]
    refine (run_bind hr).trans ?_
    cases r <;> rfl
  unfold found
  cases hfind : Slots.find Dirent.key (cname name) (s.dirents dp) with
  | none =>
    have hmiss : ∀ e < (s.icache dp).d.size / direntSize, ¬(entryAt s.data (s.icache dp).d e).hit name := by
      intro e he hhit
      exact find_eq_none_iff.1 hfind e (keyAt_dirents.2 ⟨he, Dirent.hit_iff.1 hhit⟩)
    exact hstart none (h.lookupLoop_miss hmiss _ 0)
  | some e =>
    obtain ⟨hkey, hbefore⟩ := find_eq_some_iff.1 hfind
    obtain ⟨he, hhit⟩ := keyAt_dirents.1 hkey
    have hn : direntSize * (e + 1) ≤ (s.icache dp).d.size := by simp only [direntSize] at *; omega
    have hloop := lookupLoop_hit (s := s) (i := dp) rfl h.size_lt hn
      (fun o ho => by
        rw [h.cached] at hn ⊢
        exact h.backed h.mem (ho.trans_le hn))
      (Dirent.hit_iff.2 hhit) (fun j hj hjhit => hbefore j hj (keyAt_dirents.2 ⟨by omega, Dirent.hit_iff.1 hjhit⟩))
      (Nat.zero_le e) (show e < 0 + (s.icache dp).d.size by simp only [direntSize] at hn; omega)
    have hent : (s.dirents dp)[e]? = some (entryAt s.data (s.icache dp).d e) := entryAt_eq he
    rw [Option.map_some, hent]
    exact hstart _ hloop

/-- The scan of `dirlink` stops at the first free entry. -/
theorem Directory.freeLoop_ok (h : Directory A D s dp) : ∀ fuel e, e ≤ hole Dirent.key (s.dirents dp) →
    hole Dirent.key (s.dirents dp) ≤ e + fuel →
      freeLoop dp fuel (direntSize * e) s = .ok (direntSize * hole Dirent.key (s.dirents dp), s)
  | 0, e, he, hf => by
    rw [le_antisymm hf he]
    rfl
  | fuel + 1, e, he, hf => by
    have hlen : (s.dirents dp).length = (s.icache dp).d.size / direntSize := by
      rw [Fsys.dirents, length_dirents, length_contents]
    have hwhole := h.whole
    have hle := hole_le Dirent.key (s.dirents dp)
    show (if (s.icache dp).d.size ≤ direntSize * e then _ else _ : FsM _) s = _
    by_cases hend : (s.icache dp).d.size ≤ direntSize * e
    · have heq : e = hole Dirent.key (s.dirents dp) := by simp only [direntSize] at *; omega
      rw [if_pos hend, ← heq]
      rfl
    · have hlt : e < (s.icache dp).d.size / direntSize := by simp only [direntSize] at *; omega
      have hent : (s.dirents dp)[e]? = some (entryAt s.data (s.icache dp).d e) := entryAt_eq hlt
      rw [if_neg hend, run_bind (h.readEntry hlt _)]
      rcases he.eq_or_lt with heq | hbefore
      · have hfree : (entryAt s.data (s.icache dp).d e).key = none := by
          have hkey := keyAt_hole Dirent.key (s.dirents dp)
          rw [← heq, Slots.keyAt, hent] at hkey
          exact hkey
        have h0 : (entryAt s.data (s.icache dp).d e).inum = 0 := by
          by_contra hne
          rw [Dirent.key, if_neg hne] at hfree
          cases hfree
        rw [if_pos h0, ← heq]
        rfl
      · have h0 : (entryAt s.data (s.icache dp).d e).inum ≠ 0 := by
          intro h0
          have hnot := List.not_of_lt_findIdx hbefore
          obtain ⟨hlt', hget⟩ := List.getElem?_eq_some_iff.1 hent
          rw [hget, Dirent.key, if_pos h0] at hnot
          cases hnot
        rw [if_neg h0]
        exact freeLoop_ok h fuel (e + 1) hbefore (by omega)

end Scans

/-! ## Links -/

/-- `acquiresleep` on the lock of an inode by a process that holds the lock of another one: nobody else releases its own. -/
def waitLock (held i : InodeIdx) : FsM Unit := if i = held then fun _ => .error .diverge else return ()

/-- `dirlink` with its locks: the callers hold the one of the directory, and `iput` takes the one of the inode that was found. -/
def dirlinkLocked (dp : InodeIdx) (name : List UInt8) (inum : Nat) : FsM Bool := do
  match ← dirlookup dp name with
  | some (ip, _) =>
    waitLock dp ip
    iput ip
    return false
  | none =>
    let off ← freeLoop dp ((← get).icache dp).d.size 0
    match ← writei dp (Dirent.encode ⟨inum, strncpy name⟩) off with
    | some n => if n = direntSize then return true else stuck "dirlink"
    | none => stuck "dirlink"

/-- `iget` has an entry for an inode. -/
def Fsys.Gettable (s : Fsys) (dev inum : Nat) : Prop :=
  (∃ i, 0 < (s.icache i).ref ∧ (s.icache i).dev = dev ∧ (s.icache i).inum = inum) ∨ ∃ i, (s.icache i).ref = 0

/-- A name has been entered into a directory. -/
structure Entered (s : Fsys) (dp : InodeIdx) (name : List UInt8) (inum : Nat) (s' : Fsys) : Prop where
  finds : ∀ nm, Finds s' dp nm (found (s'.dirents dp) nm)
  self : ∃ off, found (s'.dirents dp) name = some (off, inum)
  other : ∀ nm, cname nm ≠ cname name → found (s'.dirents dp) nm = found (s.dirents dp) nm
  unique : Unique Dirent.key (s'.dirents dp)
  reuse : (∃ de ∈ s.dirents dp, de.inum = 0) → (s'.icache dp).d.size = (s.icache dp).d.size

/-- `dirlink` is the insertion into a map. -/
structure DirlinkMap (s : Fsys) (dp : InodeIdx) (name : List UInt8) (inum : Nat) : Prop where
  fails : ∀ s', dirlinkLocked dp name inum s = .ok (false, s') → (found (s.dirents dp) name).isSome
  present : (found (s.dirents dp) name).isSome → ∃ s', dirlinkLocked dp name inum s = .ok (false, s') ∧
    contents s'.data (s'.icache dp).d = contents s.data (s.icache dp).d
  absent : found (s.dirents dp) name = none → (s.icache dp).d.size < maxFileBytes →
    ∃ s', dirlinkLocked dp name inum s = .ok (true, s') ∧ Entered s dp name inum s'

/-- An entry with the name does not lead back to the directory, and its inode fits into the cache; for a new entry there are the
blocks that it needs. -/
structure DirlinkRoom (s : Fsys) (dp : InodeIdx) (name : List UInt8) : Prop where
  present : ∀ off m, found (s.dirents dp) name = some (off, m) → m ≠ (s.icache dp).inum ∧ s.Gettable (s.icache dp).dev m
  absent : found (s.dirents dp) name = none → (s.icache dp).d.size < maxFileBytes →
    growth (s.icache dp).d.size (direntSize * hole Dirent.key (s.dirents dp) + direntSize) ≤ s.free.card

section Found

variable {es : List Dirent} {de : Dirent} {name nm : List UInt8} {n : Nat}

theorem found_put_self (hn : n ≤ es.length) (habsent : found es name = none) (hnew : de.key = some (cname name)) :
    found (put es n de) name = some (direntSize * n, de.inum) := by
  have hfind := find_put_self hn (Option.map_eq_none_iff.1 habsent) hnew
  obtain ⟨hlt, hget⟩ : ∃ h : n < (put es n de).length, (put es n de)[n] = de := by
    have hlt : n < (put es n de).length := by rw [length_put hn]; omega
    refine ⟨hlt, ?_⟩
    unfold put
    split
    · simp
    · next hge => simp [show n = es.length by omega]
  rw [found, hfind, Option.map_some, List.getElem?_eq_getElem hlt, hget]
  rfl

theorem found_put_of_ne (hn : n ≤ es.length) (hold : keyAt Dirent.key es n ≠ some (cname nm)) (hnew : de.key ≠ some (cname nm)) :
    found (put es n de) nm = found es nm := by
  unfold found
  rw [find_put_of_ne hn hold hnew]
  cases hfind : find Dirent.key (cname nm) es with
  | none => rfl
  | some e =>
    have hne : e ≠ n := by
      rintro rfl
      exact hold (find_eq_some_iff.1 hfind).1
    have hlt := lt_length_of_find hfind
    have hget : (put es n de)[e]? = es[e]? := by
      unfold put
      split
      · rw [List.getElem?_set_ne (Ne.symm hne)]
      · rw [List.getElem?_append_left hlt]
    rw [Option.map_some, Option.map_some, hget]

theorem found_some {off m : Nat} (h : found es name = some (off, m)) :
    ∃ e, find Dirent.key (cname name) es = some e ∧ off = direntSize * e := by
  obtain ⟨e, hfind, heq⟩ := Option.map_eq_some_iff.1 h
  cases heq
  exact ⟨e, hfind, rfl⟩

end Found

section Link

variable {A : Nat → Prop} {D : Nat → Dinode} {s : Fsys} {dp : InodeIdx} {name : List UInt8} {inum n m : Nat} {de : Dirent}

theorem Fsys.length_dirents : (s.dirents dp).length = (s.icache dp).d.size / direntSize := by
  rw [Fsys.dirents, FileSys.length_dirents, length_contents]

/-- Writing an entry sets one slot of the directory. -/
theorem Directory.writei_entry (h : Directory A D s dp) (de : Dirent) (hn : n ≤ (s.dirents dp).length) (hk : de.inum < 2 ^ 16)
    (hname : de.name.length = dirSiz) (hmax : direntSize * n + direntSize ≤ maxFileBytes)
    (hroom : growth (s.icache dp).d.size (direntSize * n + direntSize) ≤ s.free.card) :
    ∃ s' D', writei dp (Dirent.encode de) (direntSize * n) s = .ok (some direntSize, s') ∧ Directory A D' s' dp ∧
      s'.dirents dp = put (s.dirents dp) n de ∧ (s'.icache dp).d.size = max (s.icache dp).d.size (direntSize * n + direntSize) := by
  have hlen : (Dirent.encode de).length = direntSize := Dirent.length_encode hname
  have hwhole := h.whole
  have hoff : direntSize * n ≤ (s.icache dp).d.size := by
    rw [Fsys.length_dirents] at hn
    simp only [direntSize] at *
    omega
  rw [h.cached] at hoff hroom
  obtain ⟨s', D', hrun, hown, hd', hwr, hrew, -⟩ := writei_ok h.toOwned h.mem rfl h.cached hoff
    (show _ + (Dirent.encode de).length ≤ _ by rw [hlen]; exact hmax) (by rw [hlen]; exact hroom)
  obtain ⟨a, ha⟩ := hwr.self
  have hinum : (s'.icache dp).inum = (s.icache dp).inum := by rw [hrew.entry, update_self]
  rw [hlen] at hrun
  refine ⟨s', D', hrun, ⟨hown, ?_, ?_, ?_, ?_⟩, ?_, ?_⟩
  · rw [hinum]
    exact h.mem
  · rw [hinum, hd']
  · rw [hd', ha, ← h.cached]
    exact h.type
  · rw [hd', ha, ← h.cached, hlen]
    simp only [direntSize] at *
    omega
  · rw [Fsys.dirents, Fsys.dirents, hd', hwr.contents, h.cached]
    refine dirents_writeAt ?_ ?_ hk hname
    · rw [length_contents, ← h.cached]
      exact hwhole
    · rw [Fsys.length_dirents] at hn
      rw [length_contents, ← h.cached]
      exact hn
  · rw [hd', ha, hlen, ← h.cached]

/-- Nothing is allocated for an entry inside the directory. -/
theorem growth_inside {size last : Nat} (h : last ≤ size) : growth size last = 0 := by
  have hle : nblk last ≤ nblk size := by simp only [nblk, bSize]; omega
  rw [growth, if_neg (by omega)]
  omega

/-- `writei` maps the block of the first byte. -/
theorem writei_bmap {src : List UInt8} {off k : Nat} {s' : Fsys} (h : writei dp src off s = .ok (some k, s')) (hsrc : src ≠ []) :
    ∃ x s₁, bmap dp (off / bSize) s = .ok (x, s₁) := by
  change (if (s.icache dp).d.size < off ∨ (off + src.length) % wordSize < off then _ else _ : FsM _) s = _ at h
  split at h
  · cases h
  split at h
  · cases h
  obtain ⟨_, s₁, hloop, -⟩ := bind_ok.1 h
  cases src with
  | nil => exact absurd rfl hsrc
  | cons b src =>
    obtain ⟨x, s₂, hx, -⟩ := bind_ok.1 hloop
    exact ⟨x, s₂, hx⟩

/-- The lookup of an inode other than the directory, and the `iput` after it. -/
theorem iget_other {dev : Nat} (href : 0 < (s.icache dp).ref) (hm : m ≠ (s.icache dp).inum) (hget : s.Gettable dev m) :
    ∃ i s₁ s', iget dev m s = .ok (i, s₁) ∧ i ≠ dp ∧ iput i s₁ = .ok ((), s') ∧ s'.data = s.data ∧ s'.icache dp = s.icache dp := by
  rcases iget_cases dev m s with ⟨i, hi, -, hinum, hrun⟩ | ⟨hmiss, hfresh⟩
  · have hne : i ≠ dp := by
      rintro rfl
      exact hm hinum.symm
    refine ⟨i, _, _, hrun, hne, iput_drop ?_, rfl, ?_⟩
    · simp only [Fsys.entry_icache, update_self]
      omega
    · simp [update_of_ne (Ne.symm hne)]
  · split at hfresh
    · next i _ =>
      have hne : i ≠ dp := by
        rintro rfl
        omega
      refine ⟨i, _, _, hfresh.2, hne, iput_drop ?_, rfl, ?_⟩
      · simp
      · simp [update_of_ne (Ne.symm hne)]
    · next hnone =>
      rcases hget with ⟨i, hi, hd, hn⟩ | ⟨i, hi⟩
      · exact absurd ⟨hd, hn⟩ (hmiss i hi)
      · have := List.find?_eq_none.1 hnone i (List.mem_finRange i)
        simp [hi] at this

/-- Where the name is there, `dirlink` takes the lock of its inode. -/
theorem Directory.dirlink_present (h : Directory A D s dp) {off : Nat} (hfound : found (s.dirents dp) name = some (off, m)) :
    dirlinkLocked dp name inum s = (do
      let ip ← iget (s.icache dp).dev m
      waitLock dp ip
      iput ip
      return false : FsM Bool) s := by
  have hlook := h.finds name
  rw [hfound] at hlook
  cases hget : iget (s.icache dp).dev m s with
  | ok r =>
    obtain ⟨ip, s₁⟩ := r
    have hrun : dirlookup dp name s = .ok (some (ip, off), s₁) := hlook.trans (run_bind hget)
    rw [dirlinkLocked, run_bind hrun, run_bind hget]
  | error e =>
    have hrun : dirlookup dp name s = .error e := hlook.trans (run_bind_error hget)
    rw [dirlinkLocked, run_bind_error hrun, run_bind_error hget]

/-- Where it is not, `dirlink` writes the first free entry. -/
theorem Directory.dirlink_absent (h : Directory A D s dp) (hfound : found (s.dirents dp) name = none) :
    dirlinkLocked dp name inum s = (do
      match ← writei dp (Dirent.encode ⟨inum, strncpy name⟩) (direntSize * hole Dirent.key (s.dirents dp)) with
      | some n => if n = direntSize then return true else stuck "dirlink"
      | none => stuck "dirlink" : FsM Bool) s := by
  have hlook := h.finds name
  rw [hfound] at hlook
  have hle := hole_le Dirent.key (s.dirents dp)
  rw [Fsys.length_dirents] at hle
  have hfree := h.freeLoop_ok (s.icache dp).d.size 0 (Nat.zero_le _) (by simp only [direntSize] at *; omega)
  rw [dirlinkLocked, run_bind hlook]
  simp only
  rw [run_bind (show (get : FsM Fsys) s = .ok (s, s) from rfl)]
  exact run_bind hfree

theorem Directory.dirlink_enters (h : Directory A D s dp) (huniq : Unique Dirent.key (s.dirents dp)) (h1 : 1 ≤ inum) (h2 : inum < 2 ^ 16)
    (hfound : found (s.dirents dp) name = none) (hmax : (s.icache dp).d.size < maxFileBytes)
    (hroom : growth (s.icache dp).d.size (direntSize * hole Dirent.key (s.dirents dp) + direntSize) ≤ s.free.card) :
    ∃ s', dirlinkLocked dp name inum s = .ok (true, s') ∧ Entered s dp name inum s' := by
  have hle := hole_le Dirent.key (s.dirents dp)
  have hwhole := h.whole
  have hlen : (s.dirents dp).length = _ := Fsys.length_dirents
  obtain ⟨s', D', hrun, hdir, hput, hsize⟩ := h.writei_entry ⟨inum, strncpy name⟩ hle h2 (length_strncpy name)
    (by simp only [maxFileBytes, bSize, direntSize] at *; omega) hroom
  have hkey : Dirent.key ⟨inum, strncpy name⟩ = some (cname name) := by
    rw [Dirent.key, if_neg (by simp only; omega), cname_strncpy]
  refine ⟨s', ?_, ⟨hdir.finds, ⟨direntSize * hole Dirent.key (s.dirents dp), ?_⟩, fun nm hnm => ?_, ?_, ?_⟩⟩
  · rw [h.dirlink_absent hfound, run_bind hrun]
    rfl
  · rw [hput]
    exact found_put_self hle hfound hkey
  · rw [hput]
    refine found_put_of_ne hle ?_ ?_
    · rw [keyAt_hole]
      exact (Option.some_ne_none _).symm
    · rw [hkey]
      exact fun heq => hnm (Option.some.inj heq).symm
  · rw [hput]
    refine huniq.put hle fun k hk => ?_
    rw [hkey] at hk
    cases hk
    exact Option.map_eq_none_iff.1 hfound
  · rintro ⟨de, hde, h0⟩
    -- the first free entry lies inside the directory
    obtain ⟨e, he, rfl⟩ := List.mem_iff_getElem.1 hde
    have hlt := hole_lt he (show Dirent.key _ = none from if_pos h0)
    rw [hsize, hlen] at *
    simp only [direntSize] at *
    omega

/-- `dirlink` is the insertion into a map iff it neither waits for its own lock nor runs out of inodes or blocks. An entry that is
zeroed is removed from the map. -/
theorem dirlink_map (h : Directory A D s dp) (huniq : Unique Dirent.key (s.dirents dp))
    (hcache : ∀ i j, 0 < (s.icache i).ref → 0 < (s.icache j).ref → (s.icache i).dev = (s.icache j).dev →
      (s.icache i).inum = (s.icache j).inum → i = j) (href : 0 < (s.icache dp).ref) (h1 : 1 ≤ inum) (h2 : inum < 2 ^ 16)
    (name : List UInt8) :
    (∀ nm, Finds s dp nm (found (s.dirents dp) nm)) ∧ (DirlinkMap s dp name inum ↔ DirlinkRoom s dp name) ∧
    ∀ off m, found (s.dirents dp) name = some (off, m) → ∃ s', writei dp (List.replicate direntSize 0) off s = .ok (some direntSize, s') ∧
      (∀ nm, Finds s' dp nm (found (s'.dirents dp) nm)) ∧ Unique Dirent.key (s'.dirents dp) ∧
      ∀ nm, found (s'.dirents dp) nm = if cname nm = cname name then none else found (s.dirents dp) nm := by
  refine ⟨h.finds, ⟨fun hmap => ⟨fun off m hfound => ?_, fun hfound hmax => ?_⟩, fun hroom => ⟨fun s' hrun => ?_, fun hsome => ?_,
    fun hfound hmax => h.dirlink_enters huniq h1 h2 hfound hmax (hroom.absent hfound hmax)⟩⟩, fun off m hfound => ?_⟩
  · -- `dirlink` has returned, so it has got the inode and its lock
    obtain ⟨s', hrun, -⟩ := hmap.present (by rw [hfound]; rfl)
    rw [h.dirlink_present hfound] at hrun
    obtain ⟨ip, s₁, hget, hrun⟩ := bind_ok.1 hrun
    obtain ⟨_, s₂, hwait, -⟩ := bind_ok.1 hrun
    have hne : ip ≠ dp := by
      rintro rfl
      rw [waitLock, if_pos rfl] at hwait
      cases hwait
    rcases iget_cases (s.icache dp).dev m s with ⟨i, hi, hdev, hinum, hi'⟩ | ⟨hmiss, hfresh⟩
    · rw [hi'] at hget
      cases hget
      refine ⟨?_, .inl ⟨ip, hi, hdev, hinum⟩⟩
      rintro rfl
      exact hne (hcache ip dp hi href hdev hinum)
    · refine ⟨?_, ?_⟩
      · rintro rfl
        exact hmiss dp href ⟨rfl, rfl⟩
      · split at hfresh
        · next i _ => exact .inr ⟨i, hfresh.1⟩
        · rw [hfresh] at hget
          cases hget
  · -- the blocks of the new entry have been allocated
    obtain ⟨s', hrun, -⟩ := hmap.absent hfound hmax
    rw [h.dirlink_absent hfound] at hrun
    obtain ⟨r, s₁, hwrite, hrun⟩ := bind_ok.1 hrun
    have hle := hole_le Dirent.key (s.dirents dp)
    rw [Fsys.length_dirents] at hle
    generalize hole Dirent.key (s.dirents dp) = n at *
    have hwhole := h.whole
    have hk : direntSize * n / bSize < maxFile := by
      simp only [maxFileBytes, bSize, direntSize, maxFile, nDirect, nIndirect] at *
      omega
    cases r with
    | none => cases hrun
    | some k =>
      obtain ⟨x, s₂, hmap'⟩ := writei_bmap hwrite (by simp [Dirent.encode, leDigits])
      have hneed := need_le (D := D) (k := ⟨direntSize * n / bSize, hk⟩) h.toGeometry (by rw [h.cached]) hmap'
      have hgrow := need_growth (k := ⟨direntSize * n / bSize, hk⟩) (h.shape _ h.mem)
        (show direntSize * n ≤ _ by rw [← h.cached]; simp only [direntSize] at *; omega) rfl (show 0 < direntSize by decide)
        (by simp only [bSize, direntSize]; omega) (le_refl direntSize)
      rw [growth_inside (le_max_right _ _), Nat.add_zero] at hgrow
      rw [h.cached, ← hgrow]
      exact hneed
  · by_contra hnone
    rw [h.dirlink_absent (Option.not_isSome_iff_eq_none.1 hnone)] at hrun
    obtain ⟨r, s₁, -, hrun⟩ := bind_ok.1 hrun
    cases r with
    | none => cases hrun
    | some k =>
      simp only at hrun
      split at hrun <;> cases hrun
  · obtain ⟨⟨off, m⟩, hfound⟩ := Option.isSome_iff_exists.1 hsome
    obtain ⟨hm, hget⟩ := hroom.present off m hfound
    obtain ⟨i, s₁, s', hrun, hne, hput, hdata, hdp⟩ := iget_other href hm hget
    refine ⟨s', ?_, by rw [hdata, hdp]⟩
    have hwait : waitLock dp i s₁ = .ok ((), s₁) := by
      rw [waitLock, if_neg hne]
      rfl
    rw [h.dirlink_present hfound, run_bind hrun, run_bind hwait, run_bind hput]
    rfl
  · obtain ⟨e, hfind, rfl⟩ := found_some hfound
    have hlt := lt_length_of_find hfind
    have hsize := (h.shape _ h.mem).size
    rw [← h.cached] at hsize
    have hin : direntSize * e + direntSize ≤ (s.icache dp).d.size := by
      rw [Fsys.length_dirents] at hlt
      simp only [direntSize] at *
      omega
    obtain ⟨s', D', hrun, hdir, hput, -⟩ := h.writei_entry ⟨0, List.replicate dirSiz 0⟩ hlt.le (by decide) (by simp) (hin.trans hsize)
      (by rw [growth_inside hin]; exact Nat.zero_le _)
    refine ⟨s', hrun, hdir.finds, ?_, fun nm => ?_⟩
    · rw [hput]
      exact huniq.put hlt.le fun k hk => by cases hk
    · rw [hput]
      split
      · next heq => rw [found, heq, find_put_free huniq hfind rfl, Option.map_none]
      · next hne =>
        refine found_put_of_ne hlt.le ?_ (by rw [Dirent.key, if_pos rfl]; exact (Option.some_ne_none _).symm)
        rw [(find_eq_some_iff.1 hfind).1]
        exact fun heq => hne (Option.some.inj heq).symm

end Link

/-- The inodes of a disk with the root directory in block 59, and with empty files. -/
def rootInode : Dinode := { Dinode.zero with type := tDir, nlink := 1, size := 48, addrs := update (fun _ => 0) 0 59 }

def emptyFile : Dinode := { Dinode.zero with type := tFile, nlink := 1 }

/-- That disk, with the root directory in the first entry of the inode cache. The directory has one file. -/
def rootFs : Fsys where
  sb := smallFs.sb
  disksize := smallFs.disksize
  bit := smallFs.bit
  dinode := fun j => if j = rootIno then rootInode else emptyFile
  data := update (fun _ _ => 0) 59 (overwrite (fun _ => 0) 0
    ([⟨rootIno, strncpy [46]⟩, ⟨rootIno, strncpy [46, 46]⟩, ⟨2, strncpy [97]⟩].flatMap Dirent.encode))
  icache := fun i => if i = 0 then ⟨rootDev, rootIno, 1, true, rootInode⟩ else ⟨0, 0, 0, false, Dinode.zero⟩

theorem rootFs_slot (j : Nat) (t : Slot) : slotAddr rootFs.data (rootFs.dinode j) t = if j = rootIno ∧ t = some 0 then 59 else 0 := by
  have hroot : ∀ t : Slot, slotAddr rootFs.data rootInode t = if t = some 0 then 59 else 0 := by
    intro t
    cases t with
    | none => rfl
    | some k =>
      revert k
      decide +kernel
  have hfile : slotAddr rootFs.data emptyFile t = 0 := by
    cases t with
    | none => rfl
    | some k => simp [slotAddr, emptyFile, Dinode.zero]
  show slotAddr _ (if j = rootIno then rootInode else emptyFile) t = _
  by_cases hj : j = rootIno
  · simp [hj, hroot]
  · simp [hj, hfile]

theorem rootFs_directory : Directory (fun j => rootIno ≤ j ∧ j ≤ 51) rootFs.dinode rootFs 0 := by
  have hsize : ∀ j, (rootFs.dinode j).size = if j = rootIno then 48 else 0 := by
    intro j
    show (if j = rootIno then rootInode else emptyFile).size = _
    split <;> rfl
  have hn : ∀ j, nblk (rootFs.dinode j).size = if j = rootIno then 1 else 0 := by
    intro j
    rw [hsize]
    split <;> rfl
  refine ⟨⟨⟨rfl, by decide, by decide, ?_⟩, ⟨?_, ?_⟩, ?_, ?_⟩, by decide, rfl, rfl, rfl⟩
  · intro b hb
    simp only [SuperBlock.bblock, rootFs, smallFs, bpb] at *
    omega
  · intro j t b _ hb
    simp only [rootFs_slot] at hb
    split at hb
    · cases hb
      exact ⟨rfl, by decide⟩
    · cases hb
  · intro j k t u b _ _ hb hb'
    simp only [rootFs_slot] at hb hb'
    split at hb <;> split at hb'
    · next h1 h2 => exact ⟨h1.1.trans h2.1.symm, h1.2.trans h2.2.symm⟩
    · cases hb'
    · cases hb
    · cases hb
  · intro j _
    refine ⟨?_, fun k => ?_, ?_⟩
    · rw [hsize]
      split <;> decide
    · rw [rootFs_slot, hn]
      split_ifs with h1 h2 h2
      · simp [Option.some.inj h1.2]
      · exact absurd h1.1 h2
      · have hk : k ≠ 0 := fun h => h1 ⟨h2, congrArg some h⟩
        have hpos : k.val ≠ 0 := fun h => hk (Fin.ext h)
        simp [hpos]
      · simp
    · rw [rootFs_slot, hn]
      split_ifs <;> simp_all
  · intro j hj
    simp only [SuperBlock.iblock, rootFs, smallFs, ipb]
    omega

theorem rootFs_unique : Unique Dirent.key (rootFs.dirents 0) := by
  have hlen : (rootFs.dirents 0).length = 3 := rfl
  have hpair : ∀ i < 3, ∀ j < 3, (keyAt Dirent.key (rootFs.dirents 0) i).isSome →
      keyAt Dirent.key (rootFs.dirents 0) i = keyAt Dirent.key (rootFs.dirents 0) j → i = j := by decide +kernel
  have hlt : ∀ i k, keyAt Dirent.key (rootFs.dirents 0) i = some k → i < 3 := by
    intro i k hi
    obtain ⟨x, hx, -⟩ := Option.bind_eq_some_iff.1 hi
    exact hlen ▸ (List.getElem?_eq_some_iff.1 hx).1
  intro i j k hi hj
  exact hpair i (hlt i k hi) j (hlt j k hj) (by rw [hi]; rfl) (hi.trans hj.symm)

theorem dirlink_map_new : ∃ s', dirlinkLocked 0 [98] 3 rootFs = .ok (true, s') ∧ Entered rootFs 0 [98] 3 s' := by
  have hcache : ∀ i j, 0 < (rootFs.icache i).ref → 0 < (rootFs.icache j).ref → (rootFs.icache i).dev = (rootFs.icache j).dev →
      (rootFs.icache i).inum = (rootFs.icache j).inum → i = j := by
    have hzero : ∀ i, 0 < (rootFs.icache i).ref → i = 0 := by decide +kernel
    exact fun i j hi hj _ _ => (hzero i hi).trans (hzero j hj).symm
  obtain ⟨-, ⟨-, hroom⟩, -⟩ := dirlink_map rootFs_directory rootFs_unique hcache (by decide) (show 1 ≤ 3 by decide) (by decide) [98]
  have hnone : found (rootFs.dirents 0) [98] = none := by decide +kernel
  refine (hroom ⟨fun off m h => ?_, fun _ _ => ?_⟩).absent hnone (by decide +kernel)
  · rw [hnone] at h
    cases h
  · have hgrow : growth (rootFs.icache 0).d.size (direntSize * hole Dirent.key (rootFs.dirents 0) + direntSize) = 0 := by decide +kernel
    rw [hgrow]
    exact Nat.zero_le _

/-- `link("README", ".")` in the root directory. -/
theorem dirlink_dot_hangs : Directory (fun j => rootIno ≤ j ∧ j ≤ 51) rootFs.dinode rootFs 0 ∧ Unique Dirent.key (rootFs.dirents 0) ∧
    found (rootFs.dirents 0) [46] = some (0, rootIno) ∧ dirlinkLocked 0 [46] 2 rootFs = .error .diverge ∧
    ¬DirlinkMap rootFs 0 [46] 2 := by
  have hfound : found (rootFs.dirents 0) [46] = some (0, rootIno) := by decide +kernel
  have hrun : dirlinkLocked 0 [46] 2 rootFs = .error .diverge := by
    have hstuck : (match dirlinkLocked 0 [46] 2 rootFs with | .error e => some e | .ok _ => none) = some .diverge := by decide +kernel
    split at hstuck
    · next e he => rw [he, Option.some.inj hstuck]
    · cases hstuck
  refine ⟨rootFs_directory, rootFs_unique, hfound, hrun, fun hmap => ?_⟩
  obtain ⟨s', hs', -⟩ := hmap.present (by rw [hfound]; rfl)
  rw [hrun] at hs'
  cases hs'

end DemandPaging.FileSys
