/-
What each LRU operation does to the ring: `LruRep l L` says that the frames of `L`, in this order,
are the ring read from `lru.head` and exactly the frames in use. On a represented ring an insertion
appends the first free frame, a removal that leaves a frame behind takes out the frames it names,
and every walk ends.
-/
import DemandPaging.Lib.Ring
import DemandPaging.Kernel.Lru

namespace DemandPaging

open Ring

/-! ## Field updates -/

namespace Lru

/-- What a frame records. -/
def entry (l : Lru) (i : LruIdx) : Int × Nat := ((l.frames i).pid, (l.frames i).vaddr)

theorem acquire_eq {l : Lru} (h : l.lk = false) : l.acquire = .ok { l with lk := true } := by
  simp [acquire, h]

theorem release_eq {l : Lru} (h : l.lk = true) : l.release = .ok { l with lk := false } := by
  simp [release, h]

theorem acquire_ok {l l' : Lru} (h : l.acquire = .ok l') : l' = { l with lk := true } ∧ l.lk = false := by
  unfold acquire at h
  split at h <;> simp_all

theorem release_ok {l l' : Lru} (h : l.release = .ok l') : l' = { l with lk := false } := by
  unfold release at h
  split at h <;> simp_all

variable (l : Lru) (i j : LruIdx) (q : Option LruIdx) (b : Int) (f : Frame)

@[simp] theorem setFrame_head : (l.setFrame i f).head = l.head := rfl
@[simp] theorem setFrame_bitmap : (l.setFrame i f).bitmap = l.bitmap := rfl
@[simp] theorem setFrame_lk : (l.setFrame i f).lk = l.lk := rfl
@[simp] theorem setNext_head : (l.setNext i q).head = l.head := rfl
@[simp] theorem setNext_bitmap : (l.setNext i q).bitmap = l.bitmap := rfl
@[simp] theorem setNext_lk : (l.setNext i q).lk = l.lk := rfl
@[simp] theorem setPrev_head : (l.setPrev i q).head = l.head := rfl
@[simp] theorem setPrev_bitmap : (l.setPrev i q).bitmap = l.bitmap := rfl
@[simp] theorem setPrev_lk : (l.setPrev i q).lk = l.lk := rfl
@[simp] theorem setBit_head : (l.setBit i b).head = l.head := rfl
@[simp] theorem setBit_frames : (l.setBit i b).frames = l.frames := rfl
@[simp] theorem setBit_lk : (l.setBit i b).lk = l.lk := rfl

@[simp] theorem setBit_bitmap : (l.setBit i b).bitmap j = if j = i then b else l.bitmap j := by
  simp [setBit, Function.update_apply]

theorem setFrame_frames : (l.setFrame i f).frames j = if j = i then f else l.frames j := by
  simp [setFrame, Function.update_apply]

@[simp] theorem setNext_next : ((l.setNext i q).frames j).next = if j = i then q else (l.frames j).next := by
  rw [setNext, setFrame_frames]; split <;> rfl

@[simp] theorem setNext_prev : ((l.setNext i q).frames j).prev = (l.frames j).prev := by
  rw [setNext, setFrame_frames]; split <;> simp_all

@[simp] theorem setPrev_prev : ((l.setPrev i q).frames j).prev = if j = i then q else (l.frames j).prev := by
  rw [setPrev, setFrame_frames]; split <;> rfl

@[simp] theorem setPrev_next : ((l.setPrev i q).frames j).next = (l.frames j).next := by
  rw [setPrev, setFrame_frames]; split <;> simp_all

@[simp] theorem setNext_entry : (l.setNext i q).entry j = l.entry j := by
  rw [entry, setNext, setFrame_frames]; split <;> simp_all [entry]

@[simp] theorem setPrev_entry : (l.setPrev i q).entry j = l.entry j := by
  rw [entry, setPrev, setFrame_frames]; split <;> simp_all [entry]

@[simp] theorem setBit_entry : (l.setBit i b).entry j = l.entry j := rfl

end Lru

/-! ## The represented ring -/

/-- `l` holds the ring `L`: it is read from `lru.head`, and its frames are those in use. -/
structure LruRep (l : Lru) (L : List LruIdx) : Prop where
  head : l.head = L.head?
  ring : IsRing (fun i => (l.frames i).next) (fun i => (l.frames i).prev) L
  used : ∀ i, l.bitmap i ≠ -1 ↔ i ∈ L

/-- The representation invariant of the ring. -/
def RingOk (l : Lru) : Prop := ∃ L, LruRep l L

theorem lruInit_rep : LruRep lruInit [] := ⟨rfl, isRing_nil, by simp [lruInit]⟩

/-- A ring has one order of its frames. -/
theorem LruRep.length_le {l : Lru} {L : List LruIdx} (h : LruRep l L) : L.length ≤ maxFrameLru := by
  simpa using h.ring.nodup.length_le_card

theorem getFreeFrameLru_some {l : Lru} {i : LruIdx} (h : getFreeFrameLru l = some i) : l.bitmap i = -1 := by
  unfold getFreeFrameLru at h
  simpa using Fin.eq_true_of_find?_eq_some h

theorem getFreeFrameLru_none {l : Lru} : getFreeFrameLru l = none ↔ ∀ i, l.bitmap i ≠ -1 := by
  unfold getFreeFrameLru; rw [Fin.find?_eq_none_iff]; simp

theorem getFreeFrameLru_congr {l l' : Lru} (h : l'.bitmap = l.bitmap) : getFreeFrameLru l' = getFreeFrameLru l := by
  unfold getFreeFrameLru; rw [h]

/-! ## Insertion -/

/-- A full ring refuses the insertion and is left alone. -/
theorem lruInsert_full {l : Lru} (hlk : l.lk = false) (hf : getFreeFrameLru l = none) (pid : Int) (vaddr : Nat) :
    lruInsert pid vaddr l = .ok (-1, l) := by
  have hf' : ∀ l' : Lru, l'.bitmap = l.bitmap → getFreeFrameLru l' = none := fun l' h => by
    rw [getFreeFrameLru_congr h, hf]
  have hl : ({ l with lk := false } : Lru) = l := by cases l; simp_all
  unfold lruInsert
  cases l.head <;> simp [Lru.acquire_eq hlk, hf', Lru.release_eq, hl]

/-- An insertion appends the first free frame. -/
theorem lruInsert_rep {l : Lru} {L : List LruIdx} (h : LruRep l L) (hlk : l.lk = false) {i : LruIdx}
    (hf : getFreeFrameLru l = some i) (pid : Int) (vaddr : Nat) :
    ∃ l', lruInsert pid vaddr l = .ok (0, l') ∧ LruRep l' (L ++ [i]) ∧ l'.lk = false ∧
      l'.entry = Function.update l.entry i (pid, vaddr) := by
  have hi : i ∉ L := fun hc => (h.used i).2 hc (getFreeFrameLru_some hf)
  have hf' : ∀ l' : Lru, l'.bitmap = l.bitmap → getFreeFrameLru l' = some i := fun l' h => by
    rw [getFreeFrameLru_congr h, hf]
  unfold lruInsert
  cases L with
  | nil =>
    have hh : l.head = none := h.head
    simp only [hh, Lru.acquire_eq hlk, ok_bind, hf']
    rw [Lru.release_eq rfl]
    refine ⟨_, rfl, ⟨rfl, ?_, fun j => ?_⟩, rfl, ?_⟩
    · exact isRing_singleton.2 (by simp [Lru.setBit, Lru.setFrame])
    · by_cases hj : j = i
      · subst hj; simp
      · simpa [hj] using h.used j
    · funext j
      by_cases hj : j = i <;> simp [Lru.entry, Lru.setFrame, hj]
  | cons x L =>
    obtain ⟨z, hz⟩ : ∃ z, (x :: L).getLast? = some z := ⟨_, List.getLast?_eq_some_getLast (by simp)⟩
    have hh : l.head = some x := h.head
    have hp : (l.frames x).prev = some z := by rw [← hz]; exact h.ring.prev_head
    have hzm : z ∈ x :: L := List.mem_of_getLast? hz
    have hzi : z ≠ i := by rintro rfl; exact hi hzm
    have hxi : x ≠ i := by rintro rfl; exact hi (by simp)
    simp only [hh, Lru.acquire_eq hlk, ok_bind, hf', hp, deref_some]
    rw [Lru.release_eq rfl]
    refine ⟨_, rfl, ⟨by simp, ?_, fun j => ?_⟩, rfl, ?_⟩
    · refine h.ring.push hz hi ?_ ?_ ?_ ?_ ?_ ?_
      · -- all but the last keep their successor
        intro u hu
        have hum : u ∈ x :: L := List.mem_of_mem_dropLast hu
        have huz : u ≠ z := by
          rintro rfl
          have hnd := h.ring.nodup
          rw [← List.dropLast_append_getLast? _ hz, List.nodup_append] at hnd
          exact hnd.2.2 u hu u (by simp) rfl
        have hui : u ≠ i := by rintro rfl; exact hi hum
        simp [Lru.setFrame_frames, huz, hui]
      · intro u hu
        have hux : u ≠ x := by rintro rfl; exact (List.nodup_cons.1 h.ring.nodup).1 hu
        have hui : u ≠ i := by rintro rfl; exact hi (by simp [hu])
        simp [Lru.setFrame_frames, hux, hui]
      · simp
      · simp [Lru.setFrame_frames, hxi.symm]
      · simp [Lru.setFrame_frames, hzi.symm]
      · simp
    · by_cases hj : j = i
      · subst hj; simp
      · simpa [hj] using h.used j
    · funext j
      by_cases hj : j = i
      · subst hj
        simp [Lru.entry, Lru.setNext, Lru.setPrev, Lru.setFrame_frames, hzi.symm, hxi.symm]
      · simp [hj, Lru.entry, Lru.setNext, Lru.setPrev, Lru.setFrame_frames]
        split_ifs <;> simp_all

/-! ## Unlinking one frame -/

namespace Lru

/-- Link `w` behind `z`. -/
def join (l : Lru) (z w : LruIdx) : Lru := (l.setNext z (some w)).setPrev w (some z)

@[simp] theorem join_head (l : Lru) (z w : LruIdx) : (l.join z w).head = l.head := rfl
@[simp] theorem join_bitmap (l : Lru) (z w : LruIdx) : (l.join z w).bitmap = l.bitmap := rfl
@[simp] theorem join_lk (l : Lru) (z w : LruIdx) : (l.join z w).lk = l.lk := rfl

@[simp] theorem join_entry (l : Lru) (z w j : LruIdx) : (l.join z w).entry j = l.entry j := by
  simp [join]

@[simp] theorem join_next (l : Lru) (z w j : LruIdx) :
    ((l.join z w).frames j).next = if j = z then some w else (l.frames j).next := by
  simp [join]

@[simp] theorem join_prev (l : Lru) (z w j : LruIdx) :
    ((l.join z w).frames j).prev = if j = w then some z else (l.frames j).prev := by
  simp [join]

end Lru

section Unlink

variable {l : Lru} {A B : List LruIdx} {x z w : LruIdx}

theorem unlinkFrame_eq (hz : (l.frames x).prev = some z) (hw : (l.frames x).next = some w) :
    unlinkFrame l x = .ok (l.join z w) := by
  unfold unlinkFrame Lru.join
  simp [hz, hw]

/-- In a ring with another frame the neighbours of `x` are other frames, and joining them leaves
the ring without `x`. -/
theorem ring_join (h : IsRing (fun i => (l.frames i).next) (fun i => (l.frames i).prev) (A ++ x :: B))
    (hne : A ++ B ≠ []) :
    ∃ z w, (l.frames x).prev = some z ∧ (l.frames x).next = some w ∧ z ≠ x ∧ w ≠ x ∧
      (B ++ A).head? = some w ∧
      IsRing (fun i => ((l.join z w).frames i).next) (fun i => ((l.join z w).frames i).prev) (A ++ B) := by
  have hr : IsRing (fun i => (l.frames i).next) (fun i => (l.frames i).prev) (x :: (B ++ A)) := by
    simpa using h.rotate
  have hne' : B ++ A ≠ [] := by simpa [and_comm] using hne
  obtain ⟨z, hz⟩ : ∃ z, (B ++ A).getLast? = some z := ⟨_, List.getLast?_eq_some_getLast hne'⟩
  obtain ⟨w, hw⟩ : ∃ w, (B ++ A).head? = some w := ⟨_, List.head?_eq_some_head hne'⟩
  have hx : x ∉ B ++ A := (List.nodup_cons.1 hr.nodup).1
  have hzx : z ≠ x := by rintro rfl; exact hx (List.mem_of_getLast? hz)
  have hwx : w ≠ x := by rintro rfl; exact hx (List.mem_of_head? hw)
  refine ⟨z, w, ?_, ?_, hzx, hwx, hw, ?_⟩
  · have := hr.prev_head
    rw [List.getLast?_cons, hz] at this
    simpa using this
  · have := hr.next_head
    rw [List.head?_append, hw] at this
    simpa using this
  · have hnd := (List.nodup_cons.1 hr.nodup).2
    refine IsRing.rotate (hr.unlink_head hz hw ?_ ?_ (by simp) (by simp))
    · intro u hu
      have : u ≠ z := by
        rintro rfl
        rw [← List.dropLast_append_getLast? _ hz, List.nodup_append] at hnd
        exact hnd.2.2 u hu u (by simp) rfl
      simp [this]
    · intro u hu
      have : u ≠ w := by
        rintro rfl
        rw [← List.cons_head?_tail hw, List.nodup_cons] at hnd
        exact hnd.1 hu
      simp [this]

end Unlink

/-! ## Removing one frame -/

section Walk

variable {l : Lru} {pid : Int} {vaddr : Nat} {x : LruIdx} {L A R : List LruIdx}

/-- The search of `lru_free_frame` stops at the first frame of the page from `curr` on; at the
frame it starts from it leaves `prev` as it was. -/
theorem freeFrameWalk_found (h : IsRing (fun i => (l.frames i).next) (fun i => (l.frames i).prev) (x :: L)) :
    ∀ (P A Q : List LruIdx) (curr y : LruIdx) (fuel : Nat) (prev : Option LruIdx),
      x :: L = A ++ (P ++ y :: Q) → (P ++ [y]).head? = some curr → P.length < fuel →
      (∀ i ∈ P, l.entry i ≠ (pid, vaddr)) → l.entry y = (pid, vaddr) →
      ∃ prev', freeFrameWalk l pid vaddr x fuel curr prev = .ok (y, prev') ∧ (P = [] → prev' = prev)
  | [], A, Q, curr, y, fuel + 1, prev, hL, hc, _, _, hy => by
    simp at hc
    subst hc
    simp only [Lru.entry, Prod.mk.injEq] at hy
    exact ⟨prev, by simp [freeFrameWalk, hy.1, hy.2], fun _ => rfl⟩
  | c :: P, A, Q, curr, y, fuel + 1, prev, hL, hc, hlen, hP, hy => by
    simp at hc
    subst hc
    have hmis : (l.frames c).pid ≠ pid ∨ (l.frames c).vaddr ≠ vaddr := by
      have := hP c (by simp)
      simp only [Lru.entry, ne_eq, Prod.mk.injEq, not_and_or] at this
      exact this
    obtain ⟨r, hr⟩ : ∃ r, (P ++ [y]).head? = some r := ⟨_, List.head?_eq_some_head (by simp)⟩
    have hnext : (l.frames c).next = some r := by
      rw [hL] at h
      have h' := h.next_mid (A := A) (x := c) (B := P ++ y :: Q)
      rw [h']
      cases P <;> simpa using hr
    have hrx : r ≠ x := by
      rintro rfl
      have hnd := h.nodup
      have hrm : r ∈ P ++ y :: Q := by
        have := List.mem_of_head? hr
        simp at this ⊢; tauto
      rw [hL] at hnd
      cases A with
      | nil =>
        simp only [List.nil_append, List.cons_append, List.cons.injEq] at hL
        obtain ⟨rfl, -⟩ := hL
        simp only [List.nil_append, List.cons_append, List.nodup_cons] at hnd
        exact hnd.1 hrm
      | cons a A =>
        simp only [List.cons_append, List.cons.injEq] at hL
        obtain ⟨rfl, -⟩ := hL
        simp only [List.cons_append, List.nodup_cons] at hnd
        exact hnd.1 (by simp at hrm ⊢; tauto)
    obtain ⟨p', hp', -⟩ := freeFrameWalk_found h P (A ++ [c]) Q r y fuel (some c) (by simp [hL]) hr
      (by simp at hlen; omega) (fun i hi => hP i (by simp [hi])) hy
    refine ⟨p', ?_, by simp⟩
    rw [freeFrameWalk, if_pos hmis, if_neg (by rw [hnext]; simpa using hrx), hnext]
    exact hp'
  | [], _, _, _, _, 0, _, _, _, h, _, _ => by simp at h
  | _ :: _, _, _, _, _, 0, _, _, _, h, _, _ => by simp at h

/-- Without the page in the ring the search ends on a frame of another page. -/
theorem freeFrameWalk_missing (h : IsRing (fun i => (l.frames i).next) (fun i => (l.frames i).prev) (x :: L))
    (hm : ∀ i ∈ x :: L, l.entry i ≠ (pid, vaddr)) :
    ∀ (R A : List LruIdx) (curr : LruIdx) (fuel : Nat) (prev : Option LruIdx), x :: L = A ++ curr :: R →
      R.length < fuel → ∃ c p', freeFrameWalk l pid vaddr x fuel curr prev = .ok (c, p') ∧ c ∈ x :: L
  | [], A, curr, fuel + 1, prev, hL, _ => by
    have hmis := hm curr (by rw [hL]; simp)
    simp only [Lru.entry, ne_eq, Prod.mk.injEq, not_and_or] at hmis
    have hnext : (l.frames curr).next = some x := by
      have h' := (hL ▸ h : IsRing _ _ (A ++ curr :: [])).next_mid
      rw [h']
      cases A with
      | nil => simp at hL; simp [hL.1]
      | cons a A => simp at hL; simp [hL.1]
    refine ⟨curr, some curr, ?_, by rw [hL]; simp⟩
    rw [freeFrameWalk, if_pos hmis, if_pos hnext]
  | r :: R, A, curr, fuel + 1, prev, hL, hlen => by
    have hmis := hm curr (by rw [hL]; simp)
    simp only [Lru.entry, ne_eq, Prod.mk.injEq, not_and_or] at hmis
    have hnext : (l.frames curr).next = some r := by
      have h' := (hL ▸ h : IsRing _ _ (A ++ curr :: r :: R)).next_mid
      rw [h']; simp
    have hrx : r ≠ x := by
      rintro rfl
      have hnd := h.nodup
      rw [hL] at hnd
      cases A with
      | nil => simp at hL; obtain ⟨rfl, -⟩ := hL; simp at hnd
      | cons a A => simp at hL; obtain ⟨rfl, -⟩ := hL; simp at hnd
    obtain ⟨c, p', hp', hc⟩ := freeFrameWalk_missing h hm R (A ++ [curr]) r fuel (some curr) (by simp [hL])
      (by simp at hlen; omega)
    refine ⟨c, p', ?_, hc⟩
    rw [freeFrameWalk, if_pos hmis, if_neg (by rw [hnext]; simpa using hrx), hnext]
    exact hp'
  | _, _, _, 0, _, _, h => by simp at h

end Walk

section Remove

variable {l : Lru} {pid : Int} {vaddr : Nat} {x : LruIdx} {L A B : List LruIdx}

/-- The ring of which `x` has just been unlinked and freed. -/
theorem LruRep.removed {l l' : Lru} (h : LruRep l (A ++ x :: B))
    (hr : IsRing (fun i => (l'.frames i).next) (fun i => (l'.frames i).prev) (A ++ B))
    (hb : l'.bitmap = Function.update l.bitmap x (-1)) (hh : l'.head = (A ++ B).head?) :
    LruRep l' (A ++ B) := by
  refine ⟨hh, hr, fun i => ?_⟩
  have hnd := h.ring.nodup
  rw [hb]
  by_cases hi : i = x
  · subst hi
    simp [List.nodup_append] at hnd
    simp
    exact ⟨fun hc => (hnd.2.2 i hc).1 rfl, hnd.2.1.1⟩
  · have := h.used i
    simp [hi] at this ⊢
    exact this

/-- `lru_free_frame` of a page without a frame changes nothing. -/
theorem lruFreeFrame_missing (h : LruRep l L) (hlk : l.lk = false) (hm : ∀ i ∈ L, l.entry i ≠ (pid, vaddr)) :
    lruFreeFrame pid vaddr l = .ok l := by
  have hl : ({ l with lk := false } : Lru) = l := by cases l; simp_all
  unfold lruFreeFrame
  cases L with
  | nil => rw [show l.head = none from h.head]
  | cons x L =>
    have hlen := h.length_le
    obtain ⟨c, p', hw, hc⟩ := freeFrameWalk_missing (l := { l with lk := true }) h.ring hm L [] x maxFrameLru none rfl
      (by simp at hlen; omega)
    have hmis := hm c hc
    have hhd : l.head = some x := h.head
    simp only [Lru.entry, ne_eq, Prod.mk.injEq] at hmis
    simp only [hhd] at hw hl
    simp only [hhd, Lru.acquire_eq hlk, ok_bind, hw]
    rw [if_neg hmis, Lru.release_eq rfl, hl]

/-- `lru_free_frame` takes out the first frame of the page when another frame stays. -/
theorem lruFreeFrame_rep {y : LruIdx} (h : LruRep l (A ++ y :: B)) (hlk : l.lk = false) (hne : A ++ B ≠ [])
    (hA : ∀ i ∈ A, l.entry i ≠ (pid, vaddr)) (hy : l.entry y = (pid, vaddr)) :
    ∃ l', lruFreeFrame pid vaddr l = .ok l' ∧ LruRep l' (A ++ B) ∧ l'.lk = false ∧ l'.entry = l.entry := by
  obtain ⟨x, L, hL⟩ : ∃ x L, A ++ y :: B = x :: L := by cases A <;> simp
  have hlen := h.length_le
  have hhd : l.head = some x := by rw [h.head, hL]; rfl
  obtain ⟨p', hw, hp'⟩ := freeFrameWalk_found (l := { l with lk := true }) (hL ▸ h.ring) A [] B x y maxFrameLru none
    (by simp [hL]) (by cases A <;> simp_all) (by simp at hlen; omega) hA hy
  obtain ⟨z, w, hz, hwn, hzy, hwy, hwh, hring⟩ := ring_join h.ring hne
  have hy' := hy
  simp only [Lru.entry, Prod.mk.injEq] at hy'
  -- the branch that reads `prev` is taken for no frame: at the head `prev` is null
  have hbr : ∀ l₁ : Lru, l₁.head = (A ++ B).head? → ¬(some y = l₁.head ∧ p' ≠ none) := by
    rintro l₁ hl₁ ⟨h1, h2⟩
    have hyA : y ∉ A ++ B := by
      have hnd := h.ring.nodup
      simp [List.nodup_append] at hnd
      simp
      exact ⟨fun hc => (hnd.2.2 y hc).1 rfl, hnd.2.1.1⟩
    rw [hl₁] at h1
    exact hyA (List.mem_of_head? h1.symm)
  have hunl : ∀ l₁ : Lru, l₁.frames = l.frames → unlinkFrame l₁ y = .ok (l₁.join z w) := by
    intro l₁ hf; exact unlinkFrame_eq (by rw [hf]; exact hz) (by rw [hf]; exact hwn)
  -- the head after `lru.head = lru.head->next`
  obtain ⟨l₁, hl₁, hf₁, hb₁, hk₁, hh₁⟩ : ∃ l₁ : Lru,
      (if y = x then ({ head := (l.frames x).next, frames := l.frames, bitmap := l.bitmap, lk := true } : Lru)
        else { l with lk := true }) = l₁ ∧ l₁.frames = l.frames ∧ l₁.bitmap = l.bitmap ∧ l₁.lk = true ∧
        l₁.head = (A ++ B).head? := by
    refine ⟨_, rfl, ?_⟩
    split
    · rename_i hyx
      subst hyx
      refine ⟨rfl, rfl, rfl, ?_⟩
      cases A with
      | nil => simp at hL hwh ⊢; rw [hwn, hwh]
      | cons a A =>
        simp at hL
        have hnd := h.ring.nodup
        simp [hL.1] at hnd
    · rename_i hyx
      refine ⟨rfl, rfl, rfl, ?_⟩
      cases A with
      | nil => simp at hL; exact absurd hL.1 hyx
      | cons a A => simp at hL ⊢; rw [hhd, hL.1]
  refine ⟨{ (l₁.join z w).setBit y (-1) with lk := false }, ?_, ?_, rfl, ?_⟩
  · unfold lruFreeFrame
    simp only [hhd, Lru.acquire_eq hlk, ok_bind]
    simp only [hhd] at hw
    rw [hw]
    simp only [ok_bind, hy', and_self, if_true]
    rw [show (if y = x then ({ head := (l.frames x).next, frames := l.frames, bitmap := l.bitmap, lk := true } : Lru)
        else { head := some x, frames := l.frames, bitmap := l.bitmap, lk := true }) = l₁ by
          rw [← hl₁]; simp [hhd], if_neg (hbr l₁ hh₁), hunl l₁ hf₁, ok_bind, Lru.release_eq (by simpa using hk₁)]
  · refine h.removed ?_ ?_ hh₁
    · refine hring.congr (fun u _ => ?_) (fun u _ => ?_) <;> simp [hf₁]
    · funext j; simp [hb₁, Function.update_apply]
  · funext j; simp [Lru.entry, Lru.join, Lru.setNext, Lru.setPrev, Lru.setFrame_frames, hf₁]; split_ifs <;> simp_all

/-- `lru_free_frame` of the only frame frees it and leaves `lru.head` on it. -/
theorem lruFreeFrame_only (h : LruRep l [x]) (hlk : l.lk = false) (hx : l.entry x = (pid, vaddr)) :
    ∃ l', lruFreeFrame pid vaddr l = .ok l' ∧ l'.head = some x ∧ l'.bitmap x = -1 ∧ l'.lk = false ∧ l'.entry = l.entry := by
  obtain ⟨hn, hp⟩ := isRing_singleton.1 h.ring
  simp only [Lru.entry, Prod.mk.injEq] at hx
  have hhd : l.head = some x := h.head
  have hwalk : freeFrameWalk { l with lk := true } pid vaddr x maxFrameLru x none = .ok (x, none) := by
    simp [freeFrameWalk, hx.1, hx.2]
  refine ⟨{ ({ l with head := some x, lk := true }.join x x).setBit x (-1) with lk := false }, ?_, by simp, by simp,
    rfl, funext fun j => Lru.join_entry _ x x j⟩
  unfold lruFreeFrame
  simp only [hhd] at hwalk
  simp only [hhd, Lru.acquire_eq hlk, ok_bind, hwalk, hx, and_self, if_true, ne_eq, not_true_eq_false, and_false,
    if_false, hn]
  rw [unlinkFrame_eq (l := { l with head := some x, lk := true }) hp hn, ok_bind, Lru.release_eq (by simp)]

/-- `lru_delete` followed by `lru_release_frame` takes out the head when another frame stays. -/
theorem lruDelete_rep (h : LruRep l (x :: L)) (hlk : l.lk = false) (hne : L ≠ []) :
    ∃ l₁ l₂, lruDelete l = .ok (some x, l₁) ∧ l₁.lk = true ∧ l₁.entry = l.entry ∧
      lruReleaseFrame x l₁ = .ok l₂ ∧ LruRep l₂ L ∧ l₂.lk = false ∧ l₂.entry = l.entry := by
  have hhd : l.head = some x := h.head
  obtain ⟨z, w, hz, hw, hzx, hwx, hwh, hring⟩ := ring_join (A := []) h.ring hne
  let l₀ : Lru := ({ l with lk := true }).join z w
  let l₁ : Lru := ({ l₀ with head := some w }.setNext x none).setPrev x none
  have hent : l₁.entry = l.entry := by
    funext j
    rw [Lru.setPrev_entry, Lru.setNext_entry]
    exact Lru.join_entry { l with lk := true } z w j
  refine ⟨l₁, { l₁.setBit x (-1) with lk := false }, ?_, rfl, hent, ?_, ?_, rfl, ?_⟩
  · unfold lruDelete
    have hnext : ((({ l with lk := true } : Lru).join z w).frames x).next = some w := by
      simp [hzx.symm, hw]
    simp only [hhd] at hnext
    simp only [hhd, Lru.acquire_eq hlk, ok_bind, hw, Option.some.injEq, if_neg hwx]
    rw [unlinkFrame_eq (l := { l with head := some x, lk := true }) hz hw, ok_bind, hnext]
    simp [l₁, l₀, hhd, Lru.join, Lru.setNext, Lru.setPrev, Lru.setFrame]
  · exact Lru.release_eq rfl
  · refine LruRep.removed (A := []) h ?_ ?_ (show some w = _ by simpa using hwh.symm)
    · have hx : x ∉ L := (List.nodup_cons.1 h.ring.nodup).1
      refine hring.congr (fun u hu => ?_) (fun u hu => ?_) <;>
        · have : u ≠ x := by rintro rfl; exact hx hu
          simp [l₁, l₀, this]
    · funext j; simp [l₁, l₀, Function.update_apply]
  · exact hent

/-- `lru_delete` of the only frame frees it and leaves `lru.head` on it, with null pointers. -/
theorem lruDelete_only (h : LruRep l [x]) (hlk : l.lk = false) :
    ∃ l₁ l₂, lruDelete l = .ok (some x, l₁) ∧ lruReleaseFrame x l₁ = .ok l₂ ∧ l₂.head = some x ∧
      l₂.bitmap x = -1 ∧ l₂.lk = false := by
  have hhd : l.head = some x := h.head
  have hn : (l.frames x).next = some x := (isRing_singleton.1 h.ring).1
  refine ⟨(({ l with lk := true }).setNext x none).setPrev x none, _, ?_, Lru.release_eq rfl, by simp [hhd], by simp,
    rfl⟩
  unfold lruDelete
  simp only [hhd, Lru.acquire_eq hlk, ok_bind, hn, if_true]
  rfl

end Remove

/-! ## Removing the frames of a process -/

section Free

variable {l : Lru} {pid : Int}

/-- The body of `lru_free` at a frame with neighbours `z` and `w`. -/
theorem freeCurr_eq {x z w : LruIdx} (hz : (l.frames x).prev = some z) (hw : (l.frames x).next = some w) :
    freeCurr l x = ((({ l with head := if some x = l.head then some w else l.head }).join z w).setBit x (-1),
      decide (some x = l.head)) := by
  unfold freeCurr Lru.join
  by_cases hx : some x = l.head <;> simp [hx, hz, hw]

/-- `lru_free` of the only frame frees it and leaves `lru.head` on it. -/
theorem lruFree_only {x : LruIdx} (h : LruRep l [x]) (hlk : l.lk = false) (hx : (l.frames x).pid = pid) :
    ∃ l', lruFree pid l = .ok l' ∧ l'.head = some x ∧ l'.bitmap x = -1 ∧ l'.lk = false ∧ l'.entry = l.entry := by
  obtain ⟨hn, hp⟩ := isRing_singleton.1 h.ring
  have hhd : l.head = some x := h.head
  have hfc := freeCurr_eq (l := { l with head := some x, lk := true }) hp hn
  refine ⟨{ ({ l with head := some x, lk := true }.join x x).setBit x (-1) with lk := false }, ?_, by simp, by simp,
    rfl, funext fun j => Lru.join_entry _ x x j⟩
  unfold lruFree
  simp only [hhd, Lru.acquire_eq hlk, ok_bind]
  rw [lruFreeLoop, if_pos hx, hfc]
  simp only [if_true, Lru.setBit_frames, Lru.join_next, Lru.join_prev, deref_some, ok_bind, and_self, pure_ok]
  exact Lru.release_eq rfl

/-- One round of `lru_free` at a frame of the process, in a ring with another frame. -/
theorem freeCurr_rep {V R : List LruIdx} {c : LruIdx} (h : LruRep l (V ++ c :: R)) (hne : V ++ R ≠ []) :
    ∃ l', freeCurr l c = (l', decide (V = [])) ∧ LruRep l' (V ++ R) ∧ l'.entry = l.entry ∧ l'.lk = l.lk ∧
      (l'.frames c).next = (R ++ V).head? := by
  obtain ⟨z, w, hz, hw, hzc, hwc, hwh, hring⟩ := ring_join h.ring hne
  have hV : some c = l.head ↔ V = [] := by
    rw [h.head]
    cases V with
    | nil => simp
    | cons v V =>
      have hnd := h.ring.nodup
      simp at hnd ⊢
      tauto
  refine ⟨(({ l with head := if V = [] then some w else l.head }).join z w).setBit c (-1),
    by rw [freeCurr_eq hz hw]; simp only [hV], ?_, ?_, rfl, ?_⟩
  · refine h.removed ?_ ?_ ?_
    · refine hring.congr (fun u _ => ?_) (fun u _ => ?_) <;> simp
    · funext j; simp [Function.update_apply]
    · cases V with
      | nil => simpa using hwh.symm
      | cons v V => simp [h.head]
  · funext j; exact Lru.join_entry _ z w j
  · simp [hzc.symm, hw, hwh]

/-- The loop of `lru_free` in a ring of at least two frames, `V` already passed over: the frames of
other processes stay, in their order. When there are none the last frame stays. -/
theorem lruFreeLoop_rep (pid : Int) : ∀ (R V : List LruIdx) (c : LruIdx) (fuel : Nat) (l : Lru), LruRep l (V ++ c :: R) →
    V ++ R ≠ [] → (∀ i ∈ V, (l.entry i).1 ≠ pid) → R.length < fuel →
    ∃ l' L', lruFreeLoop pid fuel c l = .ok l' ∧ LruRep l' L' ∧ l'.entry = l.entry ∧ l'.lk = l.lk ∧
      (L' = V ++ (c :: R).filter (fun i => (l.entry i).1 ≠ pid) ∧ L' ≠ [] ∨
        V ++ (c :: R).filter (fun i => (l.entry i).1 ≠ pid) = [] ∧ (c :: R).getLast? = L'.head? ∧ L'.length = 1)
  | R, V, c, fuel + 1, l, h, hne, hV, hlen => by
    -- the frame the loop moves on to, and whether it stops there
    have hself : ∀ {l₁ : Lru} {x : LruIdx} {L : List LruIdx}, LruRep l₁ (x :: L) →
        (((l₁.frames x).next = some x ∧ (l₁.frames x).prev = some x) ↔ L = []) := by
      intro l₁ x L h₁
      constructor
      · rintro ⟨hx, -⟩; exact h₁.ring.next_self_iff.1 hx
      · rintro rfl; exact isRing_singleton.1 h₁.ring
    have hrot : ∀ {l₁ : Lru} {r : LruIdx} {A B : List LruIdx}, LruRep l₁ (A ++ r :: B) → A ++ B ≠ [] →
        ¬((l₁.frames r).next = some r ∧ (l₁.frames r).prev = some r) := by
      rintro l₁ r A B h₁ hAB ⟨hr, -⟩
      have hr' : IsRing (fun i => (l₁.frames i).next) (fun i => (l₁.frames i).prev) (r :: (B ++ A)) := by
        simpa using h₁.ring.rotate
      exact hAB (by simpa [and_comm] using hr'.next_self_iff.1 hr)
    rw [lruFreeLoop]
    by_cases hc : (l.frames c).pid = pid
    · obtain ⟨l₁, hfc, h₁, he₁, hk₁, hn₁⟩ := freeCurr_rep h hne
      have hcf : (c :: R).filter (fun i => (l.entry i).1 ≠ pid) = R.filter (fun i => (l.entry i).1 ≠ pid) := by
        simp [Lru.entry, hc]
      rw [if_pos hc, hfc]
      simp only
      cases R with
      | nil =>
        cases V with
        | nil => simp at hne
        | cons v V =>
          -- the last frame of the round goes: the next one is the head, where the loop ends
          rw [hn₁]
          refine ⟨l₁, v :: V, ?_, by simpa using h₁, he₁, hk₁, .inl ⟨by rw [hcf]; simp, by simp⟩⟩
          have hhd : l₁.head = some v := by simpa using h₁.head
          simp [hhd]
      | cons r R =>
        rw [hn₁]
        simp only [List.cons_append, List.head?_cons, deref_some, ok_bind]
        cases V with
        | nil =>
          simp only [List.nil_append] at h₁ hcf ⊢
          cases R with
          | nil =>
            -- only `r` is left, and the loop ends without looking at its process
            refine ⟨l₁, [r], by rw [if_pos ((hself h₁).2 rfl)]; rfl, h₁, he₁, hk₁, ?_⟩
            rw [hcf]
            by_cases hr : (l.entry r).1 = pid
            · exact .inr ⟨by simp [hr], by simp, rfl⟩
            · exact .inl ⟨by simp [hr], by simp⟩
          | cons r' R =>
            obtain ⟨l', L', hl', hrep, he, hk, hres⟩ := lruFreeLoop_rep pid (r' :: R) [] r fuel l₁ h₁ (by simp) (by simp)
              (by simp at hlen ⊢; omega)
            refine ⟨l', L', ?_, hrep, he.trans he₁, hk.trans hk₁, ?_⟩
            · rw [if_neg (fun hs => by simpa using (hself h₁).1 hs)]
              simpa using hl'
            · rw [he₁] at hres
              rw [hcf]
              simpa using hres
        | cons v V =>
          obtain ⟨l', L', hl', hrep, he, hk, hres⟩ := lruFreeLoop_rep pid R (v :: V) r fuel l₁ h₁ (by simp)
            (by rw [he₁]; exact hV) (by simp at hlen ⊢; omega)
          refine ⟨l', L', ?_, hrep, he.trans he₁, hk.trans hk₁, ?_⟩
          · have hhd : l₁.head = some v := by simpa using h₁.head
            have hrv : r ≠ v := by
              rintro rfl
              have := h₁.ring.nodup
              simp at this
            rw [if_neg (hrot h₁ (by simp)), if_pos (by simp [hhd, hrv])]
            exact hl'
          · rw [he₁] at hres
            rw [hcf]
            simpa using hres
    · rw [if_neg hc]
      simp only
      have hn : (l.frames c).next = (R ++ V ++ [c]).head? := h.ring.next_mid
      have hcf : (c :: R).filter (fun i => (l.entry i).1 ≠ pid) = c :: R.filter (fun i => (l.entry i).1 ≠ pid) := by
        simp [Lru.entry, hc]
      cases R with
      | nil =>
        cases V with
        | nil => simp at hne
        | cons v V =>
          have hhd : l.head = some v := by simpa using h.head
          refine ⟨l, v :: V ++ [c], ?_, h, rfl, rfl, .inl ⟨by rw [hcf]; simp, by simp⟩⟩
          rw [hn]
          simp [hhd]
      | cons r R =>
        obtain ⟨l', L', hl', hrep, he, hk, hres⟩ := lruFreeLoop_rep pid R (V ++ [c]) r fuel l (by simpa using h) (by simp)
          (by intro i hi; rcases List.mem_append.1 hi with hi | hi
              · exact hV i hi
              · simp at hi; subst hi; exact hc) (by simp at hlen ⊢; omega)
        refine ⟨l', L', ?_, hrep, he, hk, ?_⟩
        · rw [hn]
          have hrh : some r ≠ l.head := by
            rw [h.head]
            have hnd := h.ring.nodup
            cases V with
            | nil => simp at hnd ⊢; rintro rfl; simp at hnd
            | cons v V => simp at hnd ⊢; rintro rfl; simp at hnd
          have hr := hrot (A := V ++ [c]) (r := r) (B := R) (by simpa using h) (by simp)
          simp only [List.cons_append, List.head?_cons, deref_some, ok_bind]
          rw [if_neg hr, if_pos (.inr hrh)]
          exact hl'
        · rw [hcf]
          simpa using hres
  | _, _, _, 0, _, _, _, _, h => by simp at h

/-- `lru_free` in a ring of at least two frames: the frames of other processes stay, in their order, and
when there are none the last frame stays. -/
theorem lruFree_many (pid : Int) {x y : LruIdx} {L : List LruIdx} (h : LruRep l (x :: y :: L)) (hlk : l.lk = false) :
    ∃ l' L', lruFree pid l = .ok l' ∧ LruRep l' L' ∧ l'.lk = false ∧ l'.entry = l.entry ∧ L' ≠ [] ∧
      (L' = (x :: y :: L).filter (fun i => (l.entry i).1 ≠ pid) ∨
        (x :: y :: L).filter (fun i => (l.entry i).1 ≠ pid) = [] ∧ ∃ z ∈ x :: y :: L, L' = [z]) := by
  have hhd : l.head = some x := h.head
  have hrep : LruRep { l with lk := true } ([] ++ x :: y :: L) := ⟨h.head, h.ring, h.used⟩
  have hlen := h.length_le
  obtain ⟨l', L', h1, h2, h3, h4, hres⟩ := lruFreeLoop_rep pid (y :: L) [] x maxFrameLru { l with lk := true }
    hrep (by simp) (by simp) (by simp at hlen ⊢; omega)
  have hrun : lruFree pid l = .ok { l' with lk := false } := by
    unfold lruFree
    simp only [hhd] at h1
    simp only [hhd, Lru.acquire_eq hlk, ok_bind, h1]
    exact Lru.release_eq h4
  refine ⟨{ l' with lk := false }, L', hrun, ⟨h2.head, h2.ring, h2.used⟩, rfl, h3, ?_⟩
  rcases hres with ⟨hL', hne⟩ | ⟨hnil, hlast, hone⟩
  · exact ⟨hne, .inl hL'⟩
  · obtain ⟨z, rfl⟩ := List.length_eq_one_iff.1 hone
    exact ⟨by simp, .inr ⟨hnil, z, List.mem_of_getLast? hlast, rfl⟩⟩

/-- `lru_free` in a ring that is not a single frame of the process: the frames of other processes
stay, in their order. When there are none, one frame stays. -/
theorem lruFree_rep (pid : Int) {L : List LruIdx} (h : LruRep l L) (hlk : l.lk = false)
    (hs : ∀ x, L = [x] → (l.frames x).pid ≠ pid) :
    ∃ l' L', lruFree pid l = .ok l' ∧ LruRep l' L' ∧ l'.lk = false ∧ l'.entry = l.entry ∧
      (L' = L.filter (fun i => (l.entry i).1 ≠ pid) ∨
        L.filter (fun i => (l.entry i).1 ≠ pid) = [] ∧ 2 ≤ L.length ∧ ∃ x ∈ L, L' = [x]) := by
  rcases L with _ | ⟨x, _ | ⟨y, L⟩⟩
  · exact ⟨l, [], by rw [lruFree, show l.head = none from h.head], h, hlk, rfl, .inl rfl⟩
  · -- a single frame of another process: one round, no change
    have hl : ({ l with lk := false } : Lru) = l := by cases l; simp_all
    have hhd : l.head = some x := h.head
    obtain ⟨hn, hp⟩ := isRing_singleton.1 h.ring
    have hx : (l.frames x).pid ≠ pid := hs x rfl
    refine ⟨l, [x], ?_, h, hlk, rfl, .inl (by simp [Lru.entry, hx])⟩
    unfold lruFree
    simp only [hhd] at hl
    simp only [hhd, Lru.acquire_eq hlk, ok_bind]
    rw [lruFreeLoop]
    simp only [if_neg hx, hn, hp, deref_some, ok_bind, and_self, if_true, pure_ok]
    rw [Lru.release_eq rfl, hl]
  · obtain ⟨l', L', h1, h2, h3, h4, -, hres⟩ := lruFree_many pid h hlk
    refine ⟨l', L', h1, h2, h3, h4, ?_⟩
    rcases hres with hL' | ⟨hnil, hz⟩
    · exact .inl hL'
    · exact .inr ⟨hnil, by simp, hz⟩

end Free

end DemandPaging
