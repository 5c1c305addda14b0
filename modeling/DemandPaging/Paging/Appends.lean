/-
Concurrent appends. `lru_insert` reads the last frame of the ring, and `swap_out*` walks to the last
slot of the process's list, before they take the lock; the locked section then links the new entry
behind what was read. Split into these two atomic steps and interleaved on any number of processors,
the calls keep every entry exactly when no locked section acts on a read that an insertion has
overtaken.
-/
import DemandPaging.Lib.Interleave
import DemandPaging.Lru.Fifo
import DemandPaging.Paging.Locks

namespace DemandPaging

open Chain Interleave

/-! ## The ring -/

/-- What `lru_insert` reads before it takes the lock: `lru.head->prev`, or that the head is null. -/
def readLast (l : Lru) : Option (Option LruIdx) := l.head.map fun head => (l.frames head).prev

/-- The locked section of `lru_insert`: the frame taken, null for `-1`. -/
def insertLocked (pid : Int) (vaddr : Nat) (view : Option (Option LruIdx)) (l : Lru) :
    Except Stuck (Option LruIdx × Lru) := do
  let l ← l.acquire
  match getFreeFrameLru l with
  | none => return (none, ← l.release)
  | some index =>
    match view with
    | none =>
      let l := l.setFrame index ⟨pid, vaddr, some index, some index⟩
      let l := { l with head := some index }
      return (some index, ← (l.setBit index 1).release)
    | some last =>
      -- `lru.head` is read again, `last` is not
      let l := l.setFrame index ⟨pid, vaddr, l.head, last⟩
      let l := l.setPrev (← deref l.head) (some index)
      let l := l.setNext (← deref last) (some index)
      return (some index, ← (l.setBit index 1).release)

/-- Run without interruption the two steps are `lru_insert`. -/
theorem lruInsert_eq_locked (pid : Int) (vaddr : Nat) (l : Lru) : lruInsert pid vaddr l = do
    let (i, l) ← insertLocked pid vaddr (readLast l) l
    return (if i.isSome then 0 else -1, l) := by
  obtain ⟨head, frames, bitmap, lk⟩ := l
  cases lk with
  | true => cases head <;> rfl
  | false =>
    cases head with
    | none =>
      show (match getFreeFrameLru ⟨none, frames, bitmap, true⟩ with | none => _ | some index => _) = _
      simp only [insertLocked, readLast, Lru.acquire, Bool.false_eq_true, if_false, ok_bind, Option.map_none]
      cases getFreeFrameLru ⟨none, frames, bitmap, true⟩ <;> rfl
    | some x =>
      simp only [lruInsert, insertLocked, readLast, Lru.acquire, Bool.false_eq_true, if_false, ok_bind, Option.map_some]
      cases getFreeFrameLru ⟨some x, frames, bitmap, true⟩ with
      | none => rfl
      | some index => cases (frames x).prev <;> rfl

/-- The two steps of `lru_insert`. -/
def insertCall : Call Stuck Lru (Option (Option LruIdx)) (Int × Nat) LruIdx where
  read := fun l => .ok (readLast l)
  commit := fun e view l => insertLocked e.1 e.2 view l

section Insert

variable {l l' : Lru} {pid : Int} {vaddr : Nat} {view : Option (Option LruIdx)} {r : Option LruIdx} {i : LruIdx}

/-- Everything the locked section does to the ring. -/
theorem insertLocked_ok (h : insertLocked pid vaddr view l = .ok (r, l')) :
    r = getFreeFrameLru l ∧ l.lk = false ∧ (r = none → l' = l) ∧
    ∀ i, r = some i → l'.bitmap = Function.update l.bitmap i 1 ∧
      (view = none → l'.head = some i ∧ (l'.frames i).next = some i ∧ (l'.frames i).prev = some i) ∧
      ∀ last, view = some last → ∃ x z, l.head = some x ∧ last = some z ∧ l'.head = some x ∧
        (l'.frames x).prev = some i ∧
        ∀ j, (l'.frames j).next = if j = z then some i else if j = i then some x else (l.frames j).next := by
  unfold insertLocked at h
  obtain ⟨l₁, hacq, h⟩ := bind_eq_ok.1 h
  obtain ⟨rfl, hlk⟩ := Lru.acquire_ok hacq
  have hfree : getFreeFrameLru { l with lk := true } = getFreeFrameLru l := getFreeFrameLru_congr rfl
  rw [hfree] at h
  cases hf : getFreeFrameLru l with
  | none =>
    rw [hf] at h
    obtain ⟨l₂, hrel, h⟩ := bind_eq_ok.1 h
    cases h
    refine ⟨rfl, hlk, fun _ => ?_, nofun⟩
    rw [Lru.release_ok hrel, ← hlk]
  | some i =>
    rw [hf] at h
    cases view with
    | none =>
      obtain ⟨l₂, hrel, h⟩ := bind_eq_ok.1 h
      cases h
      rw [Lru.release_ok hrel]
      refine ⟨rfl, hlk, nofun, fun j hj => ?_⟩
      cases hj
      exact ⟨rfl, fun _ => ⟨rfl, by simp [Lru.setFrame_frames], by simp [Lru.setFrame_frames]⟩, nofun⟩
    | some last =>
      obtain ⟨x, hx, h⟩ := bind_eq_ok.1 h
      obtain ⟨z, hz, h⟩ := bind_eq_ok.1 h
      obtain ⟨l₂, hrel, h⟩ := bind_eq_ok.1 h
      cases h
      rw [Lru.release_ok hrel]
      have hx' : l.head = some x := by
        change deref l.head = .ok x at hx
        cases hh : l.head with
        | none => rw [hh] at hx; cases hx
        | some y => rw [hh] at hx; cases hx; rfl
      have hz' : last = some z := by
        cases last with
        | none => cases hz
        | some y => cases hz; rfl
      refine ⟨rfl, hlk, nofun, fun j hj => ?_⟩
      cases hj
      refine ⟨rfl, nofun, fun last' hl => ?_⟩
      cases hl
      refine ⟨x, z, hx', hz', hx', by simp, fun j => ?_⟩
      simp only [Lru.setBit_frames, Lru.setNext_next, Lru.setPrev_next, Lru.setFrame_frames, hx']
      split
      · rfl
      · split <;> rfl

/-- What can be read from the head after a locked section: the ring up to the frame that was read, and
the new frame. -/
theorem insertLocked_path {R : List LruIdx} (h : insertLocked pid vaddr view l = .ok (some i, l'))
    (hR : Path l.succ l.head R) (hused : ∀ j ∈ R, l.bitmap j ≠ -1)
    (hview : ∀ last, view = some last → ∃ z, last = some z ∧ l.bitmap z ≠ -1) :
    ∃ R', Path l'.succ l'.head R' ∧ (view = none → R' = [i]) ∧
      (∀ A z B, view = some (some z) → R = A ++ z :: B → R' = A ++ [z, i]) ∧
      ∀ z, view = some (some z) → z ∉ R → R' = R := by
  obtain ⟨hfree, -, -, hdo⟩ := insertLocked_ok h
  obtain ⟨hbit, hnone, hsome⟩ := hdo i rfl
  have hi : l.bitmap i = -1 := getFreeFrameLru_some hfree.symm
  cases view with
  | none =>
    obtain ⟨hhd, hn, -⟩ := hnone rfl
    refine ⟨[i], ⟨hhd, ?_⟩, fun _ => rfl, nofun, nofun⟩
    simp [Lru.succ, hn, hhd]
  | some last =>
    obtain ⟨x, z, hx, rfl, hx', -, hnext⟩ := hsome last rfl
    obtain ⟨z', hz', hz⟩ := hview _ rfl
    cases hz'
    have hxR : x ∈ R := by
      rw [hR.head?] at hx
      exact List.mem_of_head? hx
    have hxi : x ≠ i := by rintro rfl; exact hused x hxR hi
    have hzi : z ≠ i := by rintro rfl; exact hz hi
    -- only the frame read and the new one have another successor
    have hsz : l'.succ z = some i := by
      rw [Lru.succ, hnext, hx', if_pos rfl, if_neg (by simpa using hxi.symm)]
    have hsi : l'.succ i = none := by
      rw [Lru.succ, hnext, hx', if_neg hzi.symm, if_pos rfl, if_pos rfl]
    have hso : ∀ u, u ≠ z → u ≠ i → l'.succ u = l.succ u := by
      intro u huz hui
      rw [Lru.succ, hnext, hx', if_neg huz, if_neg hui, Lru.succ, hx]
    by_cases hzR : z ∈ R
    · obtain ⟨A, B, rfl⟩ := List.append_of_mem hzR
      have hnd := hR.nodup
      refine ⟨A ++ [z, i], ?_, nofun, fun A' z' B' hv hA => ?_, fun z' hv hzR' => ?_⟩
      · rw [hx', ← hx]
        refine hR.redirect (fun u hu => hso u ?_ ?_) hsz hsi
        · rintro rfl
          rw [List.nodup_append] at hnd
          exact hnd.2.2 u hu u (by simp) rfl
        · rintro rfl
          exact hused u (by simp [hu]) hi
      · cases hv
        have hz' : z ∉ A ++ B := (List.nodup_cons.1 (List.nodup_middle.1 hnd)).1
        rw [List.mem_append, not_or] at hz'
        rw [((List.append_cons_inj_of_notMem hz'.1 hz'.2).1 hA).1]
      · cases hv
        exact absurd hzR hzR'
    · refine ⟨R, ?_, nofun, fun A' z' B' hv hA => ?_, fun _ _ _ => rfl⟩
      · rw [hx', ← hx]
        refine hR.congr fun u hu => hso u ?_ ?_
        · rintro rfl; exact hzR hu
        · rintro rfl; exact hused u hu hi
      · cases hv
        exact absurd (by rw [hA]; simp) hzR

/-- A frame in use that can no longer be reached from the head. -/
structure FrameLost (j : LruIdx) (l : Lru) : Prop where
  used : l.bitmap j ≠ -1
  prev : ∃ x z, l.head = some x ∧ (l.frames x).prev = some z ∧ l.bitmap z ≠ -1
  path : ∃ R, Path l.succ l.head R ∧ (∀ i ∈ R, l.bitmap i ≠ -1) ∧ j ∉ R

/-- What was read names a frame in use. -/
def FrameValid (view : Option (Option LruIdx)) (l : Lru) : Prop :=
  ∀ last, view = some last → ∃ z, last = some z ∧ l.bitmap z ≠ -1

theorem insertLocked_used (h : insertLocked pid vaddr view l = .ok (r, l')) {j : LruIdx} (hj : l.bitmap j ≠ -1) :
    l'.bitmap j ≠ -1 := by
  obtain ⟨-, -, hnone, hdo⟩ := insertLocked_ok h
  cases r with
  | none => rw [hnone rfl]; exact hj
  | some i =>
    rw [(hdo i rfl).1, Function.update_apply]
    split
    · decide
    · exact hj

theorem FrameValid.mono (h : insertLocked pid vaddr view l = .ok (r, l')) {w : Option (Option LruIdx)}
    (hw : FrameValid w l) : FrameValid w l' := by
  intro last hlast
  obtain ⟨z, hz, hu⟩ := hw last hlast
  exact ⟨z, hz, insertLocked_used h hu⟩

/-- A frame stays lost when what can be reached after a locked section is the new frame or could be
reached before. -/
theorem frameLost_of_path {j : LruIdx} {R R' : List LruIdx} (h : insertLocked pid vaddr view l = .ok (some i, l'))
    (hj : l.bitmap j ≠ -1) (hused : ∀ u ∈ R, l.bitmap u ≠ -1) (hpath : Path l'.succ l'.head R')
    (hsub : ∀ u ∈ R', u ∈ R ∨ u = i) (hjR : j ∉ R') : FrameLost j l' := by
  obtain ⟨hfree, -, -, hdo⟩ := insertLocked_ok h
  obtain ⟨hbit, hnone, hsome⟩ := hdo i rfl
  have hi : l'.bitmap i ≠ -1 := by rw [hbit, Function.update_self]; decide
  refine ⟨insertLocked_used h hj, ?_, R', hpath, fun u hu => ?_, hjR⟩
  · cases view with
    | none =>
      obtain ⟨hhd, -, hp⟩ := hnone rfl
      exact ⟨i, i, hhd, hp, hi⟩
    | some last =>
      obtain ⟨x, z, -, -, hx', hp, -⟩ := hsome last rfl
      exact ⟨x, i, hx', hp, hi⟩
  · rcases hsub u hu with hu | rfl
    · exact insertLocked_used h (hused u hu)
    · exact hi

theorem FrameLost.commit {j : LruIdx} (hlost : FrameLost j l) (hview : FrameValid view l)
    (h : insertLocked pid vaddr view l = .ok (r, l')) : FrameLost j l' := by
  cases r with
  | none =>
    obtain ⟨-, -, hnone, -⟩ := insertLocked_ok h
    rw [hnone rfl]
    exact hlost
  | some i =>
    obtain ⟨R, hR, hused, hjR⟩ := hlost.path
    obtain ⟨R', hR', hv₀, hv₁, hv₂⟩ := insertLocked_path h hR hused hview
    have hji : j ≠ i := by
      rintro rfl
      exact hlost.used (getFreeFrameLru_some (insertLocked_ok h).1.symm)
    -- what can be reached is cut, or the new frame alone, or as before
    have hsub : ∀ u ∈ R', u ∈ R ∨ u = i := by
      intro u hu
      cases view with
      | none => rw [hv₀ rfl] at hu; exact .inr (by simpa using hu)
      | some last =>
        obtain ⟨z, rfl, -⟩ := hview _ rfl
        by_cases hz : z ∈ R
        · obtain ⟨A, B, rfl⟩ := List.append_of_mem hz
          rw [hv₁ A z B rfl rfl] at hu
          simp at hu ⊢
          tauto
        · rw [hv₂ z rfl hz] at hu; exact .inl hu
    refine frameLost_of_path h hlost.used hused hR' hsub fun hc => ?_
    rcases hsub j hc with hc | hc
    · exact hjR hc
    · exact hji hc

/-- What a read sees in a well-formed ring. -/
theorem LruRep.readLast_eq {L : List LruIdx} (h : LruRep l L) : readLast l = L.getLast?.map some := by
  unfold readLast
  rw [h.head]
  cases L with
  | nil => rfl
  | cons x L =>
    obtain ⟨z, hz⟩ : ∃ z, (x :: L).getLast? = some z := ⟨_, List.getLast?_eq_some_getLast (by simp)⟩
    have hprev : (l.frames x).prev = (x :: L).getLast? := h.ring.prev_head
    rw [List.head?_cons, Option.map_some, hprev, hz]
    rfl

theorem LruRep.commit {L : List LruIdx} (h : LruRep l L)
    (hc : insertLocked pid vaddr (L.getLast?.map some) l = .ok (some i, l')) : LruRep l' (L ++ [i]) := by
  obtain ⟨hfree, hlk, -⟩ := insertLocked_ok hc
  obtain ⟨l₁, hins, hrep, -⟩ := lruInsert_rep h hlk hfree.symm pid vaddr
  rw [lruInsert_eq_locked, h.readLast_eq, hc] at hins
  cases hins
  exact hrep

theorem LruRep.commit_stale {L E : List LruIdx} (h : LruRep l (L ++ E)) (hE : E ≠ [])
    (hc : insertLocked pid vaddr (L.getLast?.map some) l = .ok (some i, l')) : ∃ j ∈ E, FrameLost j l' := by
  obtain ⟨j, hj⟩ := List.exists_mem_of_ne_nil E hE
  have hused : ∀ u ∈ L ++ E, l.bitmap u ≠ -1 := fun u hu => (h.used u).2 hu
  have hji : j ≠ i := by
    rintro rfl
    exact hused j (by simp [hj]) (getFreeFrameLru_some (insertLocked_ok hc).1.symm)
  have hnd := h.ring.nodup
  refine ⟨j, hj, ?_⟩
  rcases List.eq_nil_or_concat' L with rfl | ⟨A, z, rfl⟩
  · obtain ⟨R', hR', hv₀, -⟩ := insertLocked_path hc h.path hused nofun
    rw [hv₀ rfl] at hR'
    exact frameLost_of_path hc (hused j (by simp [hj])) hused hR' (by simp) (by simpa using hji)
  · rw [List.getLast?_concat] at hc
    obtain ⟨R', hR', -, hv₁, -⟩ := insertLocked_path hc h.path hused (by
      rintro _ ⟨⟩
      exact ⟨z, rfl, hused z (by simp)⟩)
    rw [hv₁ A z E rfl (by simp)] at hR'
    refine frameLost_of_path hc (hused j (by simp [hj])) hused hR' (by simp; tauto) fun hc' => ?_
    have hAz : j ∉ A ++ [z] := fun hm => (List.nodup_append.1 hnd).2.2 j hm j hj rfl
    simp only [List.mem_append, List.mem_cons, List.not_mem_nil, or_false] at hc' hAz
    tauto

/-- The frames added to a ring that held `L`. -/
def insertSpec (L : List LruIdx) : Spec insertCall where
  room := fun l => ∃ i, l.bitmap i = -1
  kept := fun l i => l.ring.count i = 1
  good := fun l D => LruRep l (L ++ D)
  seen := fun D => (L ++ D).getLast?.map some
  lost := FrameLost
  valid := FrameValid
  commit_room := by
    intro a v st r st' h
    obtain ⟨rfl, -⟩ := insertLocked_ok h
    rw [← not_iff_not, Bool.not_eq_true, Option.isSome_eq_false_iff, Option.isNone_iff_eq_none, getFreeFrameLru_none]
    push Not
    rfl
  commit_valid := fun h hw => hw.mono h
  read_good := by
    rintro st D v h ⟨⟩
    exact h.readLast_eq
  seen_valid := by
    intro st D E h last hlast
    obtain ⟨z, hz, rfl⟩ := Option.map_eq_some_iff.1 hlast
    refine ⟨z, rfl, (h.used z).2 ?_⟩
    have := List.mem_of_getLast? hz
    rw [← List.append_assoc]
    exact List.mem_append_left _ this
  commit_none := by
    intro a v st D st' h hc
    obtain ⟨-, -, hnone, -⟩ := insertLocked_ok hc
    rw [hnone rfl]
    exact h
  commit_good := by
    intro a st D i st' h hc
    rw [← List.append_assoc]
    exact h.commit hc
  commit_stale := by
    intro a st D E i st' h hE hc
    rw [← List.append_assoc] at h
    obtain ⟨j, hj, hlost⟩ := h.commit_stale hE hc
    exact ⟨j, List.mem_append_right _ hj, hlost⟩
  read_lost := by
    rintro st j v h ⟨⟩ last hlast
    obtain ⟨x, z, hx, hz, hu⟩ := h.prev
    rw [readLast, hx] at hlast
    cases hlast
    exact ⟨z, hz, hu⟩
  commit_lost := fun h hv hc => h.commit hv hc
  kept_good := by
    intro st D i h hi
    rw [Lru.ring_eq h.path]
    exact List.count_eq_one_of_mem h.ring.nodup (by simp [hi])
  not_kept_lost := by
    intro st j h hk
    obtain ⟨R, hR, -, hj⟩ := h.path
    rw [Lru.ring_eq hR, List.count_eq_zero_of_not_mem hj] at hk
    cases hk

end Insert

/-! ## The swap list of a process -/

/-- What `swap_out*` reads before it takes the lock: the end of the list, null for an empty one. -/
def readTail (list : Option SlotIdx) (sw : Swap) : Except Stuck (Option SlotIdx) :=
  match list with
  | none => .ok none
  | some head => do return some (← lastSlot sw maxFrameSwap head)

/-- The locked section of `swap_out*`: the slot taken (null when there is none), the new `swap_list`
and the table. -/
def linkLocked (kind : SwapKind) (vaddr : Nat) (view : Option SlotIdx) (list : Option SlotIdx) (sw : Swap) :
    Except Stuck (Option SlotIdx × Option SlotIdx × Swap) := do
  let sw ← sw.acquire
  match swapGetFreeFrame sw with
  | none => return (none, list, sw)
  | some (findex, sw) =>
    match view with
    | none => return (some findex, some findex, ← (sw.setSlot findex ⟨vaddr, none, kind, 1⟩).release)
    | some curr =>
      let sw := sw.setNext curr (some findex)
      return (some findex, list, ← (sw.setSlot findex ⟨vaddr, none, kind, 1⟩).release)

/-- The two steps of `swap_out*` of a process, on its list and the table. -/
def linkCall : Call Stuck (Option SlotIdx × Swap) (Option SlotIdx) (SwapKind × Nat) SlotIdx where
  read := fun st => readTail st.1 st.2
  commit := fun e view st => linkLocked e.1 e.2 view st.1 st.2

section Link

variable {list list' : Option SlotIdx} {sw sw' : Swap} {kind : SwapKind} {vaddr : Nat} {view r : Option SlotIdx} {i : SlotIdx}

/-- Everything the locked section does to the lists. -/
theorem linkLocked_ok (h : linkLocked kind vaddr view list sw = .ok (r, list', sw')) :
    r = freeSlot? sw ∧ (r = none → list' = list ∧ sw'.frames = sw.frames ∧ sw'.bitmap = sw.bitmap) ∧
    ∀ i, r = some i → sw'.bitmap = Function.update sw.bitmap i 1 ∧ (sw'.frames i).next = none ∧
      (view = none → list' = some i) ∧
      ∀ z, view = some z → list' = list ∧
        ∀ j, j ≠ i → (sw'.frames j).next = if j = z then some i else (sw.frames j).next := by
  unfold linkLocked at h
  obtain ⟨sw₁, hacq, h⟩ := bind_eq_ok.1 h
  obtain ⟨rfl, hlk⟩ := Swap.acquire_ok hacq
  have hfree : freeSlot? { sw with lk := true } = freeSlot? sw := freeSlot?_congr rfl
  unfold swapGetFreeFrame at h
  rw [hfree] at h
  cases hf : freeSlot? sw with
  | none =>
    rw [hf] at h
    cases h
    exact ⟨rfl, fun _ => ⟨rfl, rfl, rfl⟩, nofun⟩
  | some i =>
    rw [hf] at h
    cases view with
    | none =>
      obtain ⟨sw₂, hrel, h⟩ := bind_eq_ok.1 h
      cases h
      rw [Swap.release_ok hrel]
      refine ⟨rfl, nofun, ?_⟩
      rintro j ⟨⟩
      exact ⟨rfl, by simp [Swap.setSlot_frames], fun _ => rfl, nofun⟩
    | some z =>
      obtain ⟨sw₂, hrel, h⟩ := bind_eq_ok.1 h
      cases h
      rw [Swap.release_ok hrel]
      refine ⟨rfl, nofun, ?_⟩
      rintro j ⟨⟩
      refine ⟨rfl, by simp [Swap.setSlot_frames], nofun, ?_⟩
      rintro y ⟨⟩
      refine ⟨rfl, fun j hj => ?_⟩
      simp only [Swap.setSlot_frames, if_neg hj, Swap.setNext_frames, Swap.setBit_frames]
      split <;> rfl

/-- The list after a locked section: cut behind the slot that was read, with the new slot at its end. -/
theorem linkLocked_path {R : List SlotIdx} (h : linkLocked kind vaddr view list sw = .ok (some i, list', sw'))
    (hR : SwapList sw list R) (hused : ∀ j ∈ R, sw.bitmap j ≠ -1) (hview : ∀ z, view = some z → sw.bitmap z ≠ -1) :
    ∃ R', SwapList sw' list' R' ∧ (view = none → R' = [i]) ∧
      (∀ A z B, view = some z → R = A ++ z :: B → R' = A ++ [z, i]) ∧ ∀ z, view = some z → z ∉ R → R' = R := by
  obtain ⟨hfree, -, hdo⟩ := linkLocked_ok h
  obtain ⟨-, hi, hnone, hsome⟩ := hdo i rfl
  have hfi : sw.bitmap i = -1 := freeSlot?_some hfree.symm
  cases view with
  | none =>
    refine ⟨[i], ?_, fun _ => rfl, nofun, nofun⟩
    rw [hnone rfl]
    exact ⟨rfl, hi⟩
  | some z =>
    obtain ⟨rfl, hnext⟩ := hsome z rfl
    have hzi : z ≠ i := by rintro rfl; exact hview z rfl hfi
    have hRi : ∀ u ∈ R, u ≠ i := by rintro u hu rfl; exact hused u hu hfi
    have hz : (sw'.frames z).next = some i := by rw [hnext z hzi, if_pos rfl]
    by_cases hzR : z ∈ R
    · obtain ⟨A, B, rfl⟩ := List.append_of_mem hzR
      have hnd := (List.nodup_cons.1 (List.nodup_middle.1 hR.nodup)).1
      rw [List.mem_append, not_or] at hnd
      refine ⟨A ++ [z, i], ?_, nofun, ?_, ?_⟩
      · refine hR.redirect (fun u hu => ?_) hz hi
        rw [hnext u (hRi u (by simp [hu])), if_neg]
        rintro rfl
        exact hnd.1 hu
      · rintro A' z' B' ⟨⟩ hA
        rw [((List.append_cons_inj_of_notMem hnd.1 hnd.2).1 hA).1]
      · rintro z' ⟨⟩ hzR'
        exact absurd hzR hzR'
    · refine ⟨R, ?_, nofun, ?_, fun _ _ _ => rfl⟩
      · refine hR.congr fun u hu => ?_
        rw [hnext u (hRi u hu), if_neg]
        rintro rfl
        exact hzR hu
      · rintro A' z' B' ⟨⟩ hA
        exact absurd (by rw [hA]; simp) hzR

theorem linkLocked_used (h : linkLocked kind vaddr view list sw = .ok (r, list', sw')) {j : SlotIdx}
    (hj : sw.bitmap j ≠ -1) : sw'.bitmap j ≠ -1 := by
  obtain ⟨-, hnone, hdo⟩ := linkLocked_ok h
  cases r with
  | none => rw [(hnone rfl).2.2]; exact hj
  | some i =>
    rw [(hdo i rfl).1, Function.update_apply]
    split
    · decide
    · exact hj

theorem linkLocked_taken (h : linkLocked kind vaddr view list sw = .ok (some i, list', sw')) :
    sw.bitmap i = -1 ∧ sw'.bitmap i ≠ -1 := by
  obtain ⟨hfree, -, hdo⟩ := linkLocked_ok h
  refine ⟨freeSlot?_some hfree.symm, ?_⟩
  rw [(hdo i rfl).1, Function.update_self]
  decide

/-- A slot in use that is not on the list. -/
structure SlotLost (j : SlotIdx) (st : Option SlotIdx × Swap) : Prop where
  used : st.2.bitmap j ≠ -1
  path : ∃ R, SwapList st.2 st.1 R ∧ (∀ i ∈ R, st.2.bitmap i ≠ -1) ∧ j ∉ R

theorem SlotLost.commit {j : SlotIdx} (hlost : SlotLost j (list, sw)) (hview : ∀ z, view = some z → sw.bitmap z ≠ -1)
    (h : linkLocked kind vaddr view list sw = .ok (r, list', sw')) : SlotLost j (list', sw') := by
  obtain ⟨R, hR, hused, hjR⟩ := hlost.path
  refine ⟨linkLocked_used h hlost.used, ?_⟩
  cases r with
  | none =>
    obtain ⟨-, hnone, -⟩ := linkLocked_ok h
    obtain ⟨rfl, hfr, hbit⟩ := hnone rfl
    exact ⟨R, SwapList.congr hR fun u _ => by rw [hfr], by rw [hbit]; exact hused, hjR⟩
  | some i =>
    obtain ⟨R', hR', hv₀, hv₁, hv₂⟩ := linkLocked_path h hR hused hview
    obtain ⟨hfi, hui⟩ := linkLocked_taken h
    have hsub : ∀ u ∈ R', u ∈ R ∨ u = i := by
      intro u hu
      cases view with
      | none => rw [hv₀ rfl] at hu; exact .inr (by simpa using hu)
      | some z =>
        by_cases hz : z ∈ R
        · obtain ⟨A, B, rfl⟩ := List.append_of_mem hz
          rw [hv₁ A z B rfl rfl] at hu
          simp at hu ⊢
          tauto
        · rw [hv₂ z rfl hz] at hu; exact .inl hu
    refine ⟨R', hR', fun u hu => ?_, fun hc => ?_⟩
    · rcases hsub u hu with hu | rfl
      · exact linkLocked_used h (hused u hu)
      · exact hui
    · rcases hsub j hc with hc | rfl
      · exact hjR hc
      · exact hlost.used hfi

theorem readTail_eq {L : List SlotIdx} (h : SwapList sw list L) : readTail list sw = .ok L.getLast? := by
  unfold readTail
  cases list with
  | none => rw [path_none.1 h]; rfl
  | some head =>
    obtain ⟨A, z, rfl⟩ := Path.exists_snoc h
    have hlen := SwapList.length_le h
    rw [List.length_append, List.length_singleton] at hlen
    simp only [lastSlot_eq A head z maxFrameSwap h (by omega), List.getLast?_concat]
    rfl

/-- The slots of a list, read along `next`. -/
def slotsOf (list : Option SlotIdx) (sw : Swap) : List SlotIdx := follow (fun i => (sw.frames i).next) maxFrameSwap list

theorem slotsOf_eq {L : List SlotIdx} (h : SwapList sw list L) : slotsOf list sw = L := Path.follow_eq h h.length_le

/-- The slots added to a list that held `L`. -/
def linkSpec (L : List SlotIdx) : Spec linkCall where
  room := fun st => ∃ i, st.2.bitmap i = -1
  kept := fun st i => (slotsOf st.1 st.2).count i = 1
  good := fun st D => SwapList st.2 st.1 (L ++ D) ∧ ∀ i ∈ L ++ D, st.2.bitmap i ≠ -1
  seen := fun D => (L ++ D).getLast?
  lost := SlotLost
  valid := fun view st => ∀ z, view = some z → st.2.bitmap z ≠ -1
  commit_room := by
    intro a v st r st' h
    obtain ⟨rfl, -⟩ := linkLocked_ok h
    rw [← not_iff_not, Bool.not_eq_true, Option.isSome_eq_false_iff, Option.isNone_iff_eq_none, freeSlot?_none]
    push Not
    rfl
  commit_valid := fun h hw z hz => linkLocked_used h (hw z hz)
  read_good := by
    rintro st D v h hr
    have := (readTail_eq h.1).symm.trans hr
    cases this
    rfl
  seen_valid := by
    intro st D E h z hz
    refine h.2 z ?_
    rw [← List.append_assoc]
    exact List.mem_append_left _ (List.mem_of_getLast? hz)
  commit_none := by
    intro a v st D st' h hc
    obtain ⟨-, hnone, -⟩ := linkLocked_ok hc
    obtain ⟨hl, hfr, hbit⟩ := hnone rfl
    refine ⟨?_, by rw [hbit]; exact h.2⟩
    rw [hl]
    exact SwapList.congr h.1 fun u _ => by rw [hfr]
  commit_good := by
    intro a st D i st' h hc
    obtain ⟨hL, hused⟩ := h
    obtain ⟨hfi, hui⟩ := linkLocked_taken hc
    rw [← List.append_assoc]
    obtain ⟨R', hR', hv₀, hv₁, -⟩ := linkLocked_path hc hL hused fun z hz => hused z (List.mem_of_getLast? hz)
    have hR : R' = L ++ D ++ [i] := by
      rcases List.eq_nil_or_concat' (L ++ D) with he | ⟨A, z, he⟩
      · rw [hv₀ (by rw [he]; rfl), he]; rfl
      · rw [hv₁ A z [] (by rw [he, List.getLast?_concat]) he, he]
        simp
    rw [hR] at hR'
    refine ⟨hR', fun u hu => ?_⟩
    rcases List.mem_append.1 hu with hu | hu
    · exact linkLocked_used hc (hused u hu)
    · obtain rfl := List.mem_singleton.1 hu
      exact hui
  commit_stale := by
    intro a st D E i st' h hE hc
    obtain ⟨hL, hused⟩ := h
    obtain ⟨hfi, hui⟩ := linkLocked_taken hc
    obtain ⟨j, hj⟩ := List.exists_mem_of_ne_nil E hE
    rw [← List.append_assoc] at hL hused
    have hju : st.2.bitmap j ≠ -1 := hused j (List.mem_append_right _ hj)
    have hji : j ≠ i := by rintro rfl; exact hju hfi
    have hnd := hL.nodup
    obtain ⟨R', hR', hv₀, hv₁, -⟩ := linkLocked_path hc hL hused fun z hz =>
      hused z (List.mem_append_left _ (List.mem_of_getLast? hz))
    refine ⟨j, List.mem_append_right _ hj, linkLocked_used hc hju, R', hR', ?_⟩
    rcases List.eq_nil_or_concat' (L ++ D) with he | ⟨A, z, he⟩
    · rw [hv₀ (by rw [he]; rfl)]
      exact ⟨by simpa using hui, by simpa using hji⟩
    · rw [he] at hused hnd
      rw [hv₁ A z E (by rw [he, List.getLast?_concat]) (by rw [he]; simp)]
      constructor
      · intro u hu
        rcases List.mem_append.1 hu with hu | hu
        · exact linkLocked_used hc (hused u (by simp [hu]))
        · rcases List.mem_cons.1 hu with rfl | hu
          · exact linkLocked_used hc (hused u (by simp))
          · obtain rfl := List.mem_singleton.1 hu
            exact hui
      · have hAz : j ∉ A ++ [z] := fun hm => (List.nodup_append.1 hnd).2.2 j hm j hj rfl
        simp only [List.mem_append, List.mem_cons, List.not_mem_nil, or_false] at hAz ⊢
        tauto
  read_lost := by
    intro st j v h hr z hz
    obtain ⟨R, hR, hused, -⟩ := h.path
    have := (readTail_eq hR).symm.trans hr
    cases this
    exact hused z (List.mem_of_getLast? hz)
  commit_lost := fun h hv hc => h.commit hv hc
  kept_good := by
    intro st D i h hi
    rw [slotsOf_eq h.1]
    exact List.count_eq_one_of_mem h.1.nodup (by simp [hi])
  not_kept_lost := by
    intro st j h hk
    obtain ⟨R, hR, -, hj⟩ := h.path
    rw [slotsOf_eq hR, List.count_eq_zero_of_not_mem hj] at hk
    cases hk

end Link

/-! ## Interleaved calls -/

end DemandPaging
