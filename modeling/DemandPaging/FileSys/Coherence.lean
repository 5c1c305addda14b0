/-
The buffer cache is coherent: whatever the processes read, change, write, pin and release, the cache
and the disk together behave as a plain map from block numbers to contents.
-/
import DemandPaging.FileSys.Buffers

namespace DemandPaging.FileSys

open Function Ring Chain

namespace BufCache

variable {c c' : BufCache} {i j : BufIdx} {order A B : List BufIdx}

/-! ## The list -/

/-- The list holds the buffers of `order`, most recently used first. -/
def Listed (c : BufCache) (order : List BufIdx) : Prop :=
  IsRing (fun x => some (c.next x)) (fun x => some (c.prev x)) (none :: order.map some)

theorem Listed.nodup (h : c.Listed order) : order.Nodup :=
  List.Nodup.of_map _ (List.nodup_cons.1 (Ring.IsRing.nodup h)).2

theorem Listed.next_none (h : c.Listed order) : c.next none = order.head? := by
  have := Ring.IsRing.next_head h
  cases order <;> simpa using this

theorem Listed.prev_none (h : c.Listed order) : c.prev none = order.getLast? := by
  have := Ring.IsRing.prev_head h
  rcases List.eq_nil_or_concat' order with rfl | ⟨L, z, rfl⟩ <;> simpa [List.getLast?_cons] using this

theorem Listed.next_some (h : c.Listed (A ++ i :: B)) : c.next (some i) = B.head? := by
  have hr : IsRing (fun x => some (c.next x)) (fun x => some (c.prev x)) ((none :: A.map some) ++ some i :: B.map some) := by
    simpa [Listed] using h
  have := hr.next_mid
  cases B <;> simpa using this

theorem Listed.prev_some (h : c.Listed (A ++ i :: B)) : c.prev (some i) = A.getLast? := by
  have hr : IsRing (fun x => some (c.next x)) (fun x => some (c.prev x)) ((none :: A.map some) ++ some i :: B.map some) := by
    simpa [Listed] using h
  have := hr.prev_mid
  rcases List.eq_nil_or_concat' A with rfl | ⟨L, z, rfl⟩
  · simpa [List.getLast?_cons, List.getLast?_append] using this
  · simpa [List.getLast?_cons, List.getLast?_append] using this

theorem Listed.path_next : ∀ {B A : List BufIdx}, c.Listed (A ++ B) → Path (fun i => c.next (some i)) B.head? B
  | [], _, _ => rfl
  | i :: B, A, h => by
    have ih := Listed.path_next (B := B) (A := A ++ [i]) (by simpa using h)
    refine ⟨rfl, ?_⟩
    show Path _ (c.next (some i)) B
    rw [h.next_some]
    exact ih

theorem Listed.path_prev : ∀ {L B : List BufIdx}, c.Listed (L.reverse ++ B) → Path (fun i => c.prev (some i)) L.head? L
  | [], _, _ => rfl
  | i :: L, B, h => by
    have h : c.Listed (L.reverse ++ i :: B) := by simpa using h
    refine ⟨rfl, ?_⟩
    show Path _ (c.prev (some i)) L
    rw [h.prev_some, List.getLast?_reverse]
    exact Listed.path_prev h

theorem scan_path {step : Node → Node} {test : Buf → Bool} : ∀ {L : List BufIdx} {o : Node} {n : Nat},
    Path (fun i => step (some i)) o L → L.length < n → c.scan step test n o = .ok (L.find? fun i => test (c.buf i))
  | [], _, n + 1, h, _ => by cases h; rfl
  | i :: L, _, n + 1, h, hn => by
    obtain ⟨rfl, h⟩ := h
    rw [scan, List.find?_cons]
    cases ht : test (c.buf i) with
    | true => rfl
    | false => simpa using scan_path h (by simpa using hn)

/-- Both loops of `bget` go over the whole list. -/
theorem Listed.scan_next (h : c.Listed order) (hn : order.length ≤ nBuf) (test : Buf → Bool) :
    c.scan c.next test (nBuf + 1) (c.next none) = .ok (order.find? fun i => test (c.buf i)) := by
  rw [h.next_none]
  exact scan_path (Listed.path_next (A := []) h) (by omega)

theorem Listed.scan_prev (h : c.Listed order) (hn : order.length ≤ nBuf) (test : Buf → Bool) :
    c.scan c.prev test (nBuf + 1) (c.prev none) = .ok (order.reverse.find? fun i => test (c.buf i)) := by
  rw [h.prev_none, ← List.head?_reverse]
  refine scan_path (Listed.path_prev (B := []) ?_) (by simp; omega)
  simpa using h

theorem linkFirst_next (x : Node) :
    (c.linkFirst i).next x = if x = none then some i else if x = some i then c.next none else c.next x := by
  simp [linkFirst, update_apply]

theorem linkFirst_prev (x : Node) :
    (c.linkFirst i).prev x = if x = c.next none then some i else if x = some i then none else c.prev x := by
  simp [linkFirst, update_apply]

theorem Listed.linkFirst (h : c.Listed order) (hi : i ∉ order) : (c.linkFirst i).Listed (i :: order) := by
  -- read from the first buffer on, the new one is hung behind the head, which is last
  have hrot : IsRing (fun x => some (c.next x)) (fun x => some (c.prev x)) (order.map some ++ [none]) :=
    IsRing.rotate (A := [none]) h
  obtain ⟨x, L, hxL⟩ : ∃ x L, order.map some ++ [none] = x :: L := List.exists_cons_of_ne_nil (by simp)
  have hx : c.next none = x := by
    rw [h.next_none]
    cases order <;> simp at hxL <;> exact hxL.1
  have hnd : (x :: L).Nodup := hxL ▸ hrot.nodup
  have hlast : (x :: L).getLast? = some none := by rw [← hxL]; simp
  have hy : some i ∉ x :: L := by rw [← hxL]; simpa using hi
  rw [hxL] at hrot
  have hpush : IsRing (fun x => some ((c.linkFirst i).next x)) (fun x => some ((c.linkFirst i).prev x)) (x :: L ++ [some i]) := by
    refine hrot.push hlast hy (fun u hu => ?_) (fun u hu => ?_) ?_ ?_ ?_ ?_
    · rw [← hxL, List.dropLast_concat] at hu
      obtain ⟨j, hj, rfl⟩ := List.mem_map.1 hu
      have hji : j ≠ i := fun e => hi (e ▸ hj)
      simp [linkFirst_next, hji]
    · have hux : u ≠ x := fun e => (List.nodup_cons.1 hnd).1 (e ▸ hu)
      have hui : u ≠ some i := fun e => hy (List.mem_cons_of_mem _ (e ▸ hu))
      simp [linkFirst_prev, hx, hux, hui]
    · simp [linkFirst_next]
    · have hix : some i ≠ x := fun e => hy (e ▸ List.mem_cons_self)
      simp [linkFirst_prev, hx, hix]
    · simp [linkFirst_next, hx]
    · simp [linkFirst_prev, hx]
  rw [← hxL] at hpush
  have hring : IsRing (fun x => some ((c.linkFirst i).next x)) (fun x => some ((c.linkFirst i).prev x))
      (order.map some ++ [none, some i]) := by simpa using hpush
  simpa [Listed] using hring.rotate

theorem unlink_next (x : Node) (h : c.next (some i) ≠ some i) :
    (c.unlink i).next x = if x = c.prev (some i) then c.next (some i) else c.next x := by
  simp [BufCache.unlink, update_apply, h.symm]

theorem unlink_prev (x : Node) :
    (c.unlink i).prev x = if x = c.next (some i) then c.prev (some i) else c.prev x := by
  simp [BufCache.unlink, update_apply]

theorem Listed.unlink (h : c.Listed (A ++ i :: B)) : (c.unlink i).Listed (A ++ B) := by
  have hring : IsRing (fun x => some (c.next x)) (fun x => some (c.prev x)) ((none :: A.map some) ++ some i :: B.map some) := by
    simpa [Listed] using h
  have hrot : IsRing (fun x => some (c.next x)) (fun x => some (c.prev x)) (some i :: (B.map some ++ none :: A.map some)) := by
    simpa using hring.rotate
  obtain ⟨L, hL⟩ : ∃ L, B.map some ++ none :: A.map some = L := ⟨_, rfl⟩
  rw [hL] at hrot
  have hne : L ≠ [] := by rw [← hL]; simp
  have hnd := List.nodup_cons.1 hrot.nodup
  have hw : L.head? = some (c.next (some i)) := by
    rw [hrot.next_head]
    cases L with
    | nil => exact absurd rfl hne
    | cons w L => rfl
  have hz : L.getLast? = some (c.prev (some i)) := by
    rw [hrot.prev_head, List.getLast?_cons, List.getLast?_eq_some_getLast hne]
    rfl
  have hself : c.next (some i) ≠ some i := fun e => hnd.1 (e ▸ List.mem_of_head? hw)
  have hcut : IsRing (fun x => some ((c.unlink i).next x)) (fun x => some ((c.unlink i).prev x)) L := by
    refine hrot.unlink_head hz hw (fun u hu => ?_) (fun u hu => ?_) ?_ ?_
    · have hu' : u ≠ c.prev (some i) := by
        rintro rfl
        obtain ⟨K, hK⟩ := List.getLast?_eq_some_iff.1 hz
        rw [hK, List.dropLast_concat] at hu
        have := hnd.2
        rw [hK, List.nodup_append] at this
        exact this.2.2 _ hu _ (by simp) rfl
      rw [unlink_next u hself, if_neg hu']
    · have hu' : u ≠ c.next (some i) := by
        rintro rfl
        obtain ⟨K, hK⟩ := List.head?_eq_some_iff.1 hw
        rw [hK] at hu
        have := hnd.2
        rw [hK] at this
        exact (List.nodup_cons.1 this).1 hu
      rw [unlink_prev, if_neg hu']
    · rw [unlink_next _ hself, if_pos rfl]
    · rw [unlink_prev, if_pos rfl]
  rw [← hL] at hcut
  simpa [Listed] using hcut.rotate

/-- Releasing a buffer makes it the most recently used one. -/
theorem Listed.relink (h : c.Listed (A ++ i :: B)) : ((c.unlink i).linkFirst i).Listed (i :: (A ++ B)) := by
  refine h.unlink.linkFirst ?_
  have := h.nodup
  simp only [List.nodup_append, List.nodup_cons, List.mem_append, not_or] at this ⊢
  exact ⟨fun hA => this.2.2 i hA i (by simp) rfl, this.2.1.1⟩

theorem binit_listed (disk : Nat → Block) (disksize : Nat) :
    (binit disk disksize).Listed (List.finRange nBuf).reverse := by
  have key : ∀ (L : List BufIdx) (c : BufCache) (order : List BufIdx), c.Listed order → L.Nodup → (∀ i ∈ L, i ∉ order) →
      (L.foldl BufCache.linkFirst c).Listed (L.reverse ++ order) := by
    intro L
    induction L with
    | nil => intro c order h _ _; exact h
    | cons i L ih =>
      intro c order h hnd hout
      obtain ⟨hi, hnd⟩ := List.nodup_cons.1 hnd
      have := ih _ _ (h.linkFirst (hout i (by simp))) hnd fun j hj => by
        have hji : j ≠ i := fun e => hi (e ▸ hj)
        simp [hji, hout j (by simp [hj])]
      simpa using this
  have hzero : (zeroed disk disksize).Listed [] := isRing_singleton.2 ⟨rfl, rfl⟩
  simpa [binit] using key _ _ _ hzero (List.nodup_finRange nBuf) (by simp)

/-! ## What the functions do -/

@[simp] theorem setBuf_buf (b : Buf) (j : BufIdx) : (c.setBuf i b).buf j = if j = i then b else c.buf j := by
  simp [setBuf, update_apply]

@[simp] theorem setBuf_disk (b : Buf) : (c.setBuf i b).disk = c.disk := rfl

/-- A block is found in the one buffer that has it, or takes the place of an unused clean one. -/
theorem bget_cases {dev blockno : Nat} (hl : c.Listed order) (hp : order.Perm (List.finRange nBuf))
    (h : c.bget dev blockno = .ok (i, c')) :
    ((c.buf i).dev = dev ∧ (c.buf i).blockno = blockno ∧ c' = c.setBuf i { c.buf i with refcnt := (c.buf i).refcnt + 1 }) ∨
      ((∀ j, (c.buf j).dev = dev → (c.buf j).blockno ≠ blockno) ∧ (c.buf i).refcnt = 0 ∧ (c.buf i).dirty = false ∧
        c' = c.setBuf i { c.buf i with dev := dev, blockno := blockno, valid := false, dirty := false, refcnt := 1 }) := by
  have hlen : order.length ≤ nBuf := by rw [hp.length_eq, List.length_finRange]
  have hall : ∀ j, j ∈ order := fun j => hp.mem_iff.2 (List.mem_finRange j)
  rw [bget, hl.scan_next hlen] at h
  cases hf : order.find? fun i => (c.buf i).dev == dev && (c.buf i).blockno == blockno with
  | some k =>
    simp only [hf] at h
    cases h
    have := List.find?_some hf
    simp only [Bool.and_eq_true, beq_iff_eq] at this
    exact .inl ⟨this.1, this.2, rfl⟩
  | none =>
    simp only [hf] at h
    have hnone : ∀ j, (c.buf j).dev = dev → (c.buf j).blockno ≠ blockno := by
      intro j hd hb
      have := List.find?_eq_none.1 hf j (hall j)
      simp [hd, hb] at this
    obtain ⟨_, ho, h⟩ := bind_eq_ok.1 h
    cases ho
    obtain ⟨_, ho, h⟩ := bind_eq_ok.1 h
    rw [hl.scan_prev hlen] at ho
    cases ho
    cases hv : order.reverse.find? fun i => (c.buf i).refcnt == 0 && !(c.buf i).dirty with
    | none => simp only [hv] at h; cases h
    | some k =>
      simp only [hv] at h
      cases h
      have := List.find?_some hv
      simp only [Bool.and_eq_true, beq_iff_eq, Bool.not_eq_true'] at this
      exact .inr ⟨hnone, this.1, this.2, rfl⟩

/-- `bget` fails only where every buffer is referenced or dirty. -/
theorem bget_error {dev blockno : Nat} {e : Stuck} (hl : c.Listed order) (hp : order.Perm (List.finRange nBuf))
    (h : c.bget dev blockno = .error e) :
    e = .panic "bget: no buffers" ∧ ∀ j, (c.buf j).refcnt = 0 → (c.buf j).dirty = true := by
  have hlen : order.length ≤ nBuf := by rw [hp.length_eq, List.length_finRange]
  rw [bget, hl.scan_next hlen] at h
  cases hf : order.find? fun i => (c.buf i).dev == dev && (c.buf i).blockno == blockno with
  | some k => simp only [hf] at h; cases h
  | none =>
    simp only [hf, hl.scan_prev hlen] at h
    cases hv : order.reverse.find? fun i => (c.buf i).refcnt == 0 && !(c.buf i).dirty with
    | some k => simp only [hv] at h; cases h
    | none =>
      simp only [hv] at h
      cases h
      refine ⟨rfl, fun j hj => ?_⟩
      have := List.find?_eq_none.1 hv j (by simpa using hp.mem_iff.2 (List.mem_finRange j))
      simpa [hj] using this

theorem acquiresleep_some {p : Nat} (h : c.acquiresleep p i = some c') :
    (c.buf i).lock = none ∧ c' = c.setBuf i { c.buf i with lock := some p } := by
  unfold acquiresleep at h
  split at h
  · next hl => exact ⟨hl, (Option.some.inj h).symm⟩
  · cases h

/-- What `iderw` does for the holder of a buffer of the disk that is not in step with it. -/
theorem iderw_eq {p : Nat} (hl : (c.buf i).lock = some p) (hd : (c.buf i).dev = 1)
    (hf : (c.buf i).valid = true → (c.buf i).dirty = true) :
    c.iderw p i =
      if c.disksize ≤ (c.buf i).blockno then .error (.panic "iderw: block out of range")
      else if (c.buf i).dirty then
        .ok { c.setBuf i { c.buf i with dirty := false, valid := true } with
              disk := update c.disk (c.buf i).blockno (c.buf i).data }
      else .ok (c.setBuf i { c.buf i with data := c.disk (c.buf i).blockno, valid := true }) := by
  have hv : ¬((c.buf i).valid = true ∧ ¬(c.buf i).dirty = true) := fun h => h.2 (hf h.1)
  unfold iderw
  simp only
  rw [if_neg (by simpa using hl), if_neg hv, if_neg (by simpa using hd)]

theorem iderw_block {p : Nat} (h : c.iderw p i = .ok c') (j : BufIdx) :
    (c'.buf j).dev = (c.buf j).dev ∧ (c'.buf j).blockno = (c.buf j).blockno ∧ (c'.buf j).lock = (c.buf j).lock := by
  unfold iderw at h
  simp only at h
  repeat' split at h
  all_goals
    cases h
  all_goals
    by_cases hj : j = i
    · subst hj; simp
    · simp [hj]

theorem fill_block {p : Nat} (h : c.fill p i = .ok c') (j : BufIdx) :
    (c'.buf j).dev = (c.buf j).dev ∧ (c'.buf j).blockno = (c.buf j).blockno ∧ (c'.buf j).lock = (c.buf j).lock := by
  unfold fill at h
  split at h
  · cases h; exact ⟨rfl, rfl, rfl⟩
  · exact iderw_block h j

end BufCache

/-! ## Processes -/

/-- How far the holder of a buffer has come. -/
inductive Use
  /-- In `bread`, before it tests `B_VALID`. -/
  | fresh
  /-- Obtained with `bget`. -/
  | raw
  /-- Obtained with `bget` and overwritten. -/
  | overwritten
  /-- Returned by `bread`, or written. -/
  | clean
  | changed
  deriving DecidableEq, Repr

/-- A process that waits for the lock of a buffer, with the block it has asked for. -/
structure Wait where
  proc : Nat
  buf : BufIdx
  block : Nat
  viaRead : Bool
  deriving DecidableEq, Repr

/-- The cache and the processes that use it: for each locked buffer the block its holder has asked for and
how far it has come, the processes that wait for a lock, those between the two halves of `brelse`, and the
data left by the last write to each block. -/
structure BufSys where
  cache : BufCache
  asked : BufIdx → Nat
  use : BufIdx → Use
  waiting : List Wait
  leaving : List BufIdx
  spec : Nat → Block

inductive BufAct
  | look (p blockno : Nat) (viaRead : Bool)
  | lock (w : Wait)
  | fill (p : Nat) (i : BufIdx)
  | change (p : Nat) (i : BufIdx) (data : Block)
  | bwrite (p : Nat) (i : BufIdx)
  | logWrite (p : Nat) (i : BufIdx)
  | unlock (p : Nat) (i : BufIdx)
  | unref (i : BufIdx)

/-- The data that the holder of a buffer leaves in it. -/
def Use.change : Use → Use
  | .raw => .overwritten
  | .overwritten => .overwritten
  | _ => .changed

/-- One step of a process; nothing happens where it is not its turn or where it sleeps. A buffer that
`bget` has returned is overwritten and written with `bwrite`; one that `bread` has returned is released as it
is, or after a write that follows its last change. -/
def BufSys.step (s : BufSys) : BufAct → Except Stuck BufSys
  | .look p blockno viaRead => do
    let (i, c) ← s.cache.bget 1 blockno
    .ok { s with cache := c, waiting := ⟨p, i, blockno, viaRead⟩ :: s.waiting }
  | .lock w =>
    if w ∈ s.waiting then
      match s.cache.acquiresleep w.proc w.buf with
      | some c =>
        .ok { s with cache := c, asked := update s.asked w.buf w.block,
                     use := update s.use w.buf (if w.viaRead then .fresh else .raw), waiting := s.waiting.erase w }
      | none => .ok s
    else .ok s
  | .fill p i =>
    if (s.cache.buf i).lock = some p ∧ s.use i = .fresh then do
      let c ← s.cache.fill p i
      .ok { s with cache := c, use := update s.use i .clean }
    else .ok s
  | .change p i data =>
    if (s.cache.buf i).lock = some p ∧ s.use i ≠ .fresh then
      .ok { s with cache := s.cache.setBuf i { s.cache.buf i with data }, use := update s.use i (s.use i).change }
    else .ok s
  | .bwrite p i =>
    if (s.cache.buf i).lock = some p ∧ s.use i ≠ .fresh ∧ s.use i ≠ .raw then do
      let c ← s.cache.bwrite p i
      .ok { s with cache := c, use := update s.use i .clean,
                   spec := update s.spec (s.cache.buf i).blockno (s.cache.buf i).data }
    else .ok s
  | .logWrite p i =>
    if (s.cache.buf i).lock = some p ∧ (s.use i = .clean ∨ s.use i = .changed) then
      .ok { s with cache := s.cache.pin i, use := update s.use i .clean,
                   spec := update s.spec (s.cache.buf i).blockno (s.cache.buf i).data }
    else .ok s
  | .unlock p i =>
    if (s.cache.buf i).lock = some p ∧ s.use i = .clean then do
      let c ← s.cache.unlock p i
      .ok { s with cache := c, leaving := i :: s.leaving }
    else .ok s
  | .unref i =>
    if i ∈ s.leaving then .ok { s with cache := s.cache.unref i, leaving := s.leaving.erase i } else .ok s

def BufSys.run (s : BufSys) (acts : List BufAct) : Except Stuck BufSys := acts.foldlM BufSys.step s

def BufSys.boot (disk : Nat → Block) (disksize : Nat) : BufSys :=
  ⟨BufCache.binit disk disksize, fun _ => 0, fun _ => .fresh, [], [], disk⟩

/-! ## Invariant -/

/-- The references that processes have to a buffer. -/
def BufSys.refs (s : BufSys) (i : BufIdx) : Nat :=
  (s.waiting.map Wait.buf).count i + s.leaving.count i + if (s.cache.buf i).lock = none then 0 else 1

structure Coherent (s : BufSys) : Prop where
  listed : ∃ order, order.Perm (List.finRange nBuf) ∧ s.cache.Listed order
  refcnt : ∀ i, (s.cache.buf i).refcnt = s.refs i
  /-- A buffer that has not been used yet. -/
  dev : ∀ i, (s.cache.buf i).dev = 1 ∨ (s.cache.buf i).dev = 0 ∧ (s.cache.buf i).refcnt = 0 ∧
    (s.cache.buf i).valid = false ∧ (s.cache.buf i).dirty = false
  unique : ∀ i j, (s.cache.buf i).dev = 1 → (s.cache.buf j).dev = 1 →
    (s.cache.buf i).blockno = (s.cache.buf j).blockno → i = j
  waits : ∀ w ∈ s.waiting, (s.cache.buf w.buf).blockno = w.block
  asked : ∀ i, (s.cache.buf i).lock ≠ none → (s.cache.buf i).blockno = s.asked i
  dirty : ∀ i, (s.cache.buf i).dirty = true → (s.cache.buf i).valid = true
  valid : ∀ i, (s.cache.buf i).lock ≠ none → s.use i = .clean ∨ s.use i = .changed → (s.cache.buf i).valid = true
  /-- Outside a change that has not been written yet, a valid buffer holds the last data. -/
  data : ∀ i, (s.cache.buf i).valid = true → (s.cache.buf i).lock = none ∨ s.use i ≠ .changed ∧ s.use i ≠ .overwritten →
    (s.cache.buf i).data = s.spec (s.cache.buf i).blockno
  /-- The disk is behind only where a dirty buffer holds the block. -/
  disk : ∀ blockno, s.cache.disk blockno = s.spec blockno ∨
    ∃ i, (s.cache.buf i).dev = 1 ∧ (s.cache.buf i).blockno = blockno ∧ (s.cache.buf i).dirty = true

variable {s s' : BufSys} {a : BufAct} {i j : BufIdx} {p : Nat}

theorem Coherent.unused (h : Coherent s) (hi : (s.cache.buf i).refcnt = 0) :
    (s.cache.buf i).lock = none ∧ (∀ w ∈ s.waiting, w.buf ≠ i) ∧ i ∉ s.leaving := by
  have := h.refcnt i
  rw [hi, BufSys.refs] at this
  refine ⟨?_, fun w hw hwi => ?_, fun hl => ?_⟩
  · by_contra hn
    simp [hn] at this
  · have : 0 < (s.waiting.map Wait.buf).count i := List.count_pos_iff.2 (List.mem_map.2 ⟨w, hw, hwi⟩)
    omega
  · have : 0 < s.leaving.count i := List.count_pos_iff.2 hl
    omega

theorem Coherent.dev_of_ref (h : Coherent s) (hi : 0 < (s.cache.buf i).refcnt) : (s.cache.buf i).dev = 1 :=
  (h.dev i).resolve_right fun hn => by omega

theorem Coherent.dev_of_lock (h : Coherent s) (hi : (s.cache.buf i).lock ≠ none) : (s.cache.buf i).dev = 1 := by
  refine h.dev_of_ref ?_
  rw [h.refcnt, BufSys.refs, if_neg hi]
  omega

/-- A step that leaves what is dirty dirty leaves the disk no further behind. -/
theorem Coherent.disk_setBuf (h : Coherent s) {b : Buf} (hb : (s.cache.buf i).dirty = true → (s.cache.buf i).dev = 1 →
    b.dev = 1 ∧ b.blockno = (s.cache.buf i).blockno ∧ b.dirty = true) (blockno : Nat) :
    s.cache.disk blockno = s.spec blockno ∨ ∃ j, ((s.cache.setBuf i b).buf j).dev = 1 ∧
      ((s.cache.setBuf i b).buf j).blockno = blockno ∧ ((s.cache.setBuf i b).buf j).dirty = true := by
  refine (h.disk blockno).imp id fun ⟨j, hdev, hblk, hdirty⟩ => ⟨j, ?_⟩
  rw [BufCache.setBuf_buf]
  split
  · next hji =>
    subst hji
    obtain ⟨h1, h2, h3⟩ := hb hdirty hdev
    exact ⟨h1, h2.trans hblk, h3⟩
  · exact ⟨hdev, hblk, hdirty⟩

theorem Coherent.look (h : Coherent s) {c : BufCache} {blockno : Nat} {r : Bool} (hb : s.cache.bget 1 blockno = .ok (i, c)) :
    Coherent { s with cache := c, waiting := ⟨p, i, blockno, r⟩ :: s.waiting } := by
  obtain ⟨order, hperm, hl⟩ := h.listed
  rcases BufCache.bget_cases hl hperm hb with ⟨hd, hblk, rfl⟩ | ⟨hmiss, href, hdirty, rfl⟩
  · refine ⟨⟨order, hperm, hl⟩, fun j => ?_, ?_, ?_, ?_, ?_, ?_, ?_, ?_, h.disk_setBuf fun h1 h2 => ⟨h2, rfl, h1⟩⟩
    · have := h.refcnt j
      simp only [BufSys.refs, List.map_cons, List.count_cons, BufCache.setBuf_buf] at this ⊢
      grind
    all_goals grind [BufCache.setBuf_buf, Coherent]
  · obtain ⟨hlock, hwait, hleave⟩ := h.unused href
    refine ⟨⟨order, hperm, hl⟩, fun j => ?_, ?_, ?_, ?_, ?_, ?_, ?_, ?_, h.disk_setBuf (by simp [hdirty])⟩
    · have := h.refcnt j
      simp only [BufSys.refs, List.map_cons, List.count_cons, BufCache.setBuf_buf] at this ⊢
      grind
    all_goals grind [BufCache.setBuf_buf, Coherent]

theorem Coherent.lock (h : Coherent s) {w : Wait} (hw : w ∈ s.waiting) (hl : (s.cache.buf w.buf).lock = none) :
    Coherent { s with cache := s.cache.setBuf w.buf { s.cache.buf w.buf with lock := some w.proc },
                      asked := update s.asked w.buf w.block,
                      use := update s.use w.buf (if w.viaRead then .fresh else .raw), waiting := s.waiting.erase w } := by
  refine ⟨h.listed, fun j => ?_, ?_, ?_, ?_, ?_, ?_, ?_, ?_, h.disk_setBuf fun h1 h2 => ⟨h2, rfl, h1⟩⟩
  · have := h.refcnt j
    have hcount := ((List.perm_cons_erase hw).map Wait.buf).count_eq j
    simp only [BufSys.refs, BufCache.setBuf_buf, List.map_cons, List.count_cons] at this hcount ⊢
    grind
  all_goals grind [BufCache.setBuf_buf, Coherent, List.mem_of_mem_erase]

/-- A step of the holder of a buffer that leaves the references as they are. -/
theorem Coherent.hold (h : Coherent s) (hl : (s.cache.buf i).lock ≠ none) {b : Buf} {u : Use} (hlock : b.lock = (s.cache.buf i).lock)
    (href : b.refcnt = (s.cache.buf i).refcnt) (hdev : b.dev = (s.cache.buf i).dev) (hblk : b.blockno = (s.cache.buf i).blockno)
    (hdirty : b.dirty = true → b.valid = true) (hkeep : (s.cache.buf i).dirty = true → b.dirty = true)
    (hvalid : u = .clean ∨ u = .changed → b.valid = true)
    (hdata : b.valid = true → u ≠ .changed ∧ u ≠ .overwritten → b.data = s.spec b.blockno) :
    Coherent { s with cache := s.cache.setBuf i b, use := update s.use i u } := by
  have hone := h.dev_of_lock hl
  refine ⟨h.listed, fun j => ?_, ?_, ?_, ?_, ?_, ?_, ?_, ?_, h.disk_setBuf fun h1 h2 => ⟨by rw [hdev, h2], hblk, hkeep h1⟩⟩
  · have := h.refcnt j
    simp only [BufSys.refs, BufCache.setBuf_buf] at this ⊢
    grind
  all_goals grind [BufCache.setBuf_buf, Coherent]

theorem Coherent.fill (h : Coherent s) (hl : (s.cache.buf i).lock = some p) (hu : s.use i = .fresh) {c : BufCache}
    (hf : s.cache.fill p i = .ok c) : Coherent { s with cache := c, use := update s.use i .clean } := by
  have hlock : (s.cache.buf i).lock ≠ none := by simp [hl]
  have hdev := h.dev_of_lock hlock
  unfold BufCache.fill at hf
  split at hf
  · next hv =>
    cases hf
    have := h.hold hlock (b := s.cache.buf i) (u := .clean) rfl rfl rfl rfl (h.dirty i) id (fun _ => hv)
      fun _ _ => h.data i hv (.inr (by simp [hu]))
    simpa [BufCache.setBuf] using this
  · next hv =>
    -- the block is in no other buffer, so the disk has its last data
    have hclean : ¬(s.cache.buf i).dirty = true := fun hd => hv (h.dirty i hd)
    have hdisk : s.cache.disk (s.cache.buf i).blockno = s.spec (s.cache.buf i).blockno := by
      refine (h.disk _).resolve_right fun ⟨j, hj, hblk, hd⟩ => ?_
      rw [h.unique j i hj hdev hblk] at hd
      exact hclean hd
    rw [BufCache.iderw_eq hl hdev (fun hv' => absurd hv' hv), if_neg hclean] at hf
    split at hf
    · cases hf
    · cases hf
      exact h.hold hlock rfl rfl rfl rfl (fun _ => rfl) (fun hd => absurd hd hclean) (fun _ => rfl) fun _ _ => hdisk

theorem Coherent.change (h : Coherent s) (hl : (s.cache.buf i).lock = some p) (hu : s.use i ≠ .fresh) (data : Block) :
    Coherent { s with cache := s.cache.setBuf i { s.cache.buf i with data }, use := update s.use i (s.use i).change } := by
  have hlock : (s.cache.buf i).lock ≠ none := by simp [hl]
  have hv := h.valid i hlock
  refine h.hold hlock rfl rfl rfl rfl (h.dirty i) id (fun hc => ?_) fun _ hc => ?_
  · cases hui : s.use i <;> simp [hui, Use.change] at hc hu hv ⊢ <;> exact hv
  · cases hui : s.use i <;> simp [hui, Use.change] at hc

/-- Storing the last data of the block that a buffer holds. -/
theorem Coherent.stored (h : Coherent s) (hl : (s.cache.buf i).lock = some p) {b : Buf} {c : BufCache}
    (hbuf : ∀ j, c.buf j = if j = i then b else s.cache.buf j) (hnext : c.next = s.cache.next) (hprev : c.prev = s.cache.prev)
    (hb : b.lock = (s.cache.buf i).lock ∧ b.refcnt = (s.cache.buf i).refcnt ∧ b.dev = (s.cache.buf i).dev ∧
      b.blockno = (s.cache.buf i).blockno ∧ b.data = (s.cache.buf i).data ∧ b.valid = true)
    (hdisk : ∀ n, n ≠ (s.cache.buf i).blockno → c.disk n = s.cache.disk n)
    (hself : b.dirty = true ∨ c.disk (s.cache.buf i).blockno = (s.cache.buf i).data) :
    Coherent { s with cache := c, use := update s.use i .clean,
                      spec := update s.spec (s.cache.buf i).blockno (s.cache.buf i).data } := by
  obtain ⟨hlock, href, hdev, hblk, hdata, hvalid⟩ := hb
  have hone := h.dev_of_lock (i := i) (by simp [hl])
  refine ⟨?_, fun j => ?_, ?_, ?_, ?_, ?_, ?_, ?_, fun j hv hj => ?_, fun n => ?_⟩
  · simpa only [BufCache.Listed, hnext, hprev] using h.listed
  · have := h.refcnt j
    simp only [BufSys.refs, hbuf] at this ⊢
    grind
  iterate 6 grind [Coherent]
  · simp only [hbuf] at hv hj ⊢
    by_cases hji : j = i
    · subst hji
      simp [hblk, hdata]
    · -- another buffer holds another block
      rw [if_neg hji] at hv hj ⊢
      have hj1 : (s.cache.buf j).dev = 1 := (h.dev j).resolve_right fun hn => by simp [hn] at hv
      have hne : (s.cache.buf j).blockno ≠ (s.cache.buf i).blockno := fun e => hji (h.unique j i hj1 hone e)
      rw [update_of_ne hji] at hj
      rw [update_of_ne hne]
      exact h.data j hv hj
  · show c.disk n = update s.spec _ _ n ∨ _
    by_cases hn : n = (s.cache.buf i).blockno
    · subst hn
      rcases hself with hd | hd
      · exact .inr ⟨i, by simp [hbuf, hdev, hone], by simp [hbuf, hblk], by simp [hbuf, hd]⟩
      · exact .inl (by rw [update_self]; exact hd)
    · rcases h.disk n with hs | ⟨j, hj, hblk', hd⟩
      · exact .inl ((hdisk n hn).trans (hs.trans (update_of_ne hn ..).symm))
      · have hji : j ≠ i := fun e => hn (by rw [← hblk', e])
        exact .inr ⟨j, by simp [hbuf, hji, hj], by simp [hbuf, hji, hblk'], by simp [hbuf, hji, hd]⟩

theorem Coherent.bwrite (h : Coherent s) (hl : (s.cache.buf i).lock = some p) {c : BufCache} (hw : s.cache.bwrite p i = .ok c) :
    Coherent { s with cache := c, use := update s.use i .clean,
                      spec := update s.spec (s.cache.buf i).blockno (s.cache.buf i).data } := by
  have hone := h.dev_of_lock (i := i) (by simp [hl])
  rw [BufCache.bwrite, if_neg (by simp [hl]), BufCache.iderw_eq (by simpa using hl) (by simpa using hone) (by simp)] at hw
  split at hw
  · cases hw
  · simp only [BufCache.setBuf_buf, if_true] at hw
    cases hw
    refine h.stored hl (b := { s.cache.buf i with dirty := false, valid := true }) (fun j => ?_) rfl rfl
      ⟨rfl, rfl, rfl, rfl, rfl, rfl⟩ (fun n hn => update_of_ne hn ..) (.inr (update_self ..))
    rw [BufCache.setBuf_buf, BufCache.setBuf_buf]
    split <;> rfl

theorem Coherent.logWrite (h : Coherent s) (hl : (s.cache.buf i).lock = some p) (hu : s.use i = .clean ∨ s.use i = .changed) :
    Coherent { s with cache := s.cache.pin i, use := update s.use i .clean,
                      spec := update s.spec (s.cache.buf i).blockno (s.cache.buf i).data } :=
  h.stored hl (b := { s.cache.buf i with dirty := true }) (fun _ => BufCache.setBuf_buf ..) rfl rfl
    ⟨rfl, rfl, rfl, rfl, rfl, h.valid i (by simp [hl]) hu⟩ (fun _ _ => rfl) (.inl rfl)

theorem Coherent.unlock (h : Coherent s) (hl : (s.cache.buf i).lock = some p) (hu : s.use i = .clean) :
    Coherent { s with cache := s.cache.setBuf i { s.cache.buf i with lock := none }, leaving := i :: s.leaving } := by
  refine ⟨h.listed, fun j => ?_, ?_, ?_, ?_, ?_, ?_, ?_, ?_, h.disk_setBuf fun h1 h2 => ⟨h2, rfl, h1⟩⟩
  · have := h.refcnt j
    simp only [BufSys.refs, BufCache.setBuf_buf, List.count_cons] at this ⊢
    grind
  all_goals grind [BufCache.setBuf_buf, Coherent]

theorem unref_buf (c : BufCache) (i j : BufIdx) :
    (c.unref i).buf j = if j = i then { c.buf i with refcnt := (c.buf i).refcnt - 1 } else c.buf j := by
  unfold BufCache.unref
  simp only
  split <;> exact BufCache.setBuf_buf ..

theorem unref_disk (c : BufCache) (i : BufIdx) : (c.unref i).disk = c.disk := by
  unfold BufCache.unref
  simp only
  split <;> rfl

theorem Coherent.unref (h : Coherent s) (hi : i ∈ s.leaving) :
    Coherent { s with cache := s.cache.unref i, leaving := s.leaving.erase i } := by
  obtain ⟨order, hperm, hl⟩ := h.listed
  refine ⟨?_, fun j => ?_, ?_, ?_, ?_, ?_, ?_, ?_, ?_, fun n => ?_⟩
  · unfold BufCache.unref
    simp only
    split
    · obtain ⟨A, B, rfl⟩ := List.append_of_mem (hperm.mem_iff.2 (List.mem_finRange i))
      exact ⟨i :: (A ++ B), List.perm_middle.symm.trans hperm, BufCache.Listed.relink hl⟩
    · exact ⟨order, hperm, hl⟩
  · have := h.refcnt j
    have hcount := (List.perm_cons_erase hi).count_eq j
    simp only [BufSys.refs, unref_buf, List.count_cons] at this hcount ⊢
    grind
  iterate 7 grind [unref_buf, Coherent]
  · rw [unref_disk]
    refine (h.disk n).imp id fun ⟨j, hdev, hblk, hdirty⟩ => ⟨j, ?_⟩
    rw [unref_buf]
    grind

/-! ## Runs -/

theorem Coherent.step (h : Coherent s) (hs : s.step a = .ok s') : Coherent s' := by
  cases a with
  | look p blockno r =>
    obtain ⟨⟨i, c⟩, hb, hs⟩ := bind_eq_ok.1 hs
    cases hs
    exact h.look hb
  | lock w =>
    simp only [BufSys.step] at hs
    split at hs
    · next hw =>
      split at hs
      · next c hc =>
        cases hs
        obtain ⟨hl, rfl⟩ := BufCache.acquiresleep_some hc
        exact h.lock hw hl
      · cases hs; exact h
    · cases hs; exact h
  | fill p i =>
    simp only [BufSys.step] at hs
    split at hs
    · next hg =>
      obtain ⟨c, hc, hs⟩ := bind_eq_ok.1 hs
      cases hs
      exact h.fill hg.1 hg.2 hc
    · cases hs; exact h
  | change p i data =>
    simp only [BufSys.step] at hs
    split at hs
    · next hg => cases hs; exact h.change hg.1 hg.2 data
    · cases hs; exact h
  | bwrite p i =>
    simp only [BufSys.step] at hs
    split at hs
    · next hg =>
      obtain ⟨c, hc, hs⟩ := bind_eq_ok.1 hs
      cases hs
      exact h.bwrite hg.1 hc
    · cases hs; exact h
  | logWrite p i =>
    simp only [BufSys.step] at hs
    split at hs
    · next hg => cases hs; exact h.logWrite hg.1 hg.2
    · cases hs; exact h
  | unlock p i =>
    simp only [BufSys.step] at hs
    split at hs
    · next hg =>
      rw [BufCache.unlock, if_neg (by simp [hg.1])] at hs
      cases hs
      exact h.unlock hg.1 hg.2
    · cases hs; exact h
  | unref i =>
    simp only [BufSys.step] at hs
    split at hs
    · next hi => cases hs; exact h.unref hi
    · cases hs; exact h

theorem boot_coherent (disk : Nat → Block) (disksize : Nat) : Coherent (BufSys.boot disk disksize) := by
  have hbuf : ∀ i, (BufCache.binit disk disksize).buf i = (BufCache.zeroed disk disksize).buf i ∧
      (BufCache.binit disk disksize).disk = disk := by
    have key : ∀ (L : List BufIdx) (c : BufCache) (i : BufIdx),
        (L.foldl BufCache.linkFirst c).buf i = c.buf i ∧ (L.foldl BufCache.linkFirst c).disk = c.disk := by
      intro L
      induction L with
      | nil => exact fun _ _ => ⟨rfl, rfl⟩
      | cons j L ih => exact fun c i => ih (c.linkFirst j) i
    exact fun i => key _ _ i
  refine ⟨⟨_, List.reverse_perm _, BufCache.binit_listed disk disksize⟩, ?_, ?_, ?_, ?_, ?_, ?_, ?_, ?_, ?_⟩ <;>
    simp [BufSys.boot, BufSys.refs, hbuf, (hbuf 0).2, BufCache.zeroed]

theorem BufSys.run_coherent : ∀ {acts : List BufAct} {s s' : BufSys}, Coherent s → s.run acts = .ok s' → Coherent s'
  | [], _, _, h, hr => by cases hr; exact h
  | a :: acts, s, s', h, hr => by
    obtain ⟨s₁, hs, hr⟩ := bind_eq_ok.1 hr
    exact run_coherent (h.step hs) hr

/-- A buffer changes its block only where it is neither referenced nor dirty. -/
theorem Coherent.recycled (h : Coherent s) (hs : s.step a = .ok s')
    (hne : (s'.cache.buf i).dev ≠ (s.cache.buf i).dev ∨ (s'.cache.buf i).blockno ≠ (s.cache.buf i).blockno) :
    (s.cache.buf i).refcnt = 0 ∧ (s.cache.buf i).dirty = false := by
  by_cases hsame : (s'.cache.buf i).dev = (s.cache.buf i).dev ∧ (s'.cache.buf i).blockno = (s.cache.buf i).blockno
  · exact absurd hsame.2 (hne.resolve_left (absurd hsame.1))
  cases a with
  | look p blockno r =>
    obtain ⟨⟨k, c⟩, hb, hs⟩ := bind_eq_ok.1 hs
    cases hs
    obtain ⟨order, hperm, hl⟩ := h.listed
    by_cases hik : i = k
    · subst hik
      rcases BufCache.bget_cases hl hperm hb with ⟨-, -, rfl⟩ | ⟨-, href, hdirty, -⟩
      · exact absurd (by simp) hsame
      · exact ⟨href, hdirty⟩
    · refine absurd ?_ hsame
      rcases BufCache.bget_cases hl hperm hb with ⟨-, -, rfl⟩ | ⟨-, -, -, rfl⟩ <;> simp [hik]
  | lock w =>
    refine absurd ?_ hsame
    simp only [BufSys.step] at hs
    split at hs
    · split at hs
      · next c hc =>
        cases hs
        obtain ⟨-, rfl⟩ := BufCache.acquiresleep_some hc
        grind [BufCache.setBuf_buf]
      · cases hs; exact ⟨rfl, rfl⟩
    · cases hs; exact ⟨rfl, rfl⟩
  | fill p k =>
    refine absurd ?_ hsame
    simp only [BufSys.step] at hs
    split at hs
    · obtain ⟨c, hc, hs⟩ := bind_eq_ok.1 hs
      cases hs
      obtain ⟨h1, h2, -⟩ := BufCache.fill_block hc i
      exact ⟨h1, h2⟩
    · cases hs; exact ⟨rfl, rfl⟩
  | change p k data =>
    refine absurd ?_ hsame
    simp only [BufSys.step] at hs
    split at hs <;> cases hs
    · grind [BufCache.setBuf_buf]
    · exact ⟨rfl, rfl⟩
  | bwrite p k =>
    refine absurd ?_ hsame
    simp only [BufSys.step] at hs
    split at hs
    · obtain ⟨c, hc, hs⟩ := bind_eq_ok.1 hs
      cases hs
      unfold BufCache.bwrite at hc
      split at hc
      · cases hc
      · have := BufCache.iderw_block hc i
        grind [BufCache.setBuf_buf]
    · cases hs; exact ⟨rfl, rfl⟩
  | logWrite p k =>
    refine absurd ?_ hsame
    simp only [BufSys.step, BufCache.pin] at hs
    split at hs <;> cases hs
    · grind [BufCache.setBuf_buf]
    · exact ⟨rfl, rfl⟩
  | unlock p k =>
    refine absurd ?_ hsame
    simp only [BufSys.step, BufCache.unlock] at hs
    split at hs
    · split at hs
      · cases hs
      · cases hs; grind [BufCache.setBuf_buf]
    · cases hs; exact ⟨rfl, rfl⟩
  | unref k =>
    refine absurd ?_ hsame
    simp only [BufSys.step] at hs
    split at hs <;> cases hs
    · grind [unref_buf]
    · exact ⟨rfl, rfl⟩

/-- The panics that are left: no buffer to recycle, and a block that the disk does not have. -/
theorem Coherent.panics {e : Stuck} (h : Coherent s) (hs : s.step a = .error e) :
    (e = .panic "bget: no buffers" ∧ ∀ i, (s.cache.buf i).refcnt = 0 → (s.cache.buf i).dirty = true) ∨
      e = .panic "iderw: block out of range" := by
  cases a with
  | look p blockno r =>
    obtain ⟨order, hperm, hl⟩ := h.listed
    simp only [BufSys.step] at hs
    cases hb : s.cache.bget 1 blockno with
    | error e' =>
      rw [hb] at hs
      cases hs
      exact .inl (BufCache.bget_error hl hperm hb)
    | ok r => rw [hb] at hs; cases hs
  | lock w =>
    simp only [BufSys.step] at hs
    split at hs
    · split at hs <;> cases hs
    · cases hs
  | fill p i =>
    simp only [BufSys.step] at hs
    split at hs
    · next hg =>
      have hone := h.dev_of_lock (i := i) (by simp [hg.1])
      unfold BufCache.fill at hs
      by_cases hv : (s.cache.buf i).valid = true
      · rw [if_pos hv] at hs; cases hs
      rw [if_neg hv, BufCache.iderw_eq hg.1 hone (fun hv' => absurd hv' hv)] at hs
      split at hs
      · cases hs; exact .inr rfl
      · split at hs <;> cases hs
    · cases hs
  | change p i data => simp only [BufSys.step] at hs; split at hs <;> cases hs
  | bwrite p i =>
    simp only [BufSys.step] at hs
    split at hs
    · next hg =>
      have hone := h.dev_of_lock (i := i) (by simp [hg.1])
      rw [BufCache.bwrite, if_neg (by simp [hg.1]),
        BufCache.iderw_eq (by simpa using hg.1) (by simpa using hone) (by simp)] at hs
      split at hs
      · cases hs; exact .inr rfl
      · split at hs <;> cases hs
    · cases hs
  | logWrite p i => simp only [BufSys.step] at hs; split at hs <;> cases hs
  | unlock p i =>
    simp only [BufSys.step] at hs
    split at hs
    · next hg => rw [BufCache.unlock, if_neg (by simp [hg.1])] at hs; cases hs
    · cases hs
  | unref i => simp only [BufSys.step] at hs; split at hs <;> cases hs

/-- The cache and the disk together are a plain map of blocks, in every run of any number of processes. -/
theorem cache_coherent {disk : Nat → Block} {disksize : Nat} {acts : List BufAct}
    (hrun : (BufSys.boot disk disksize).run acts = .ok s) :
    (∀ i j, (s.cache.buf i).dev = 1 → (s.cache.buf j).dev = 1 →
        (s.cache.buf i).blockno = (s.cache.buf j).blockno → i = j) ∧
      (∀ p i s', (s.cache.buf i).lock = some p → s.use i = .fresh → s.step (.fill p i) = .ok s' →
        (s'.cache.buf i).dev = 1 ∧ (s'.cache.buf i).blockno = s.asked i ∧ (s'.cache.buf i).data = s.spec (s.asked i)) ∧
      (∀ a s' i, s.step a = .ok s' →
        (s'.cache.buf i).dev ≠ (s.cache.buf i).dev ∨ (s'.cache.buf i).blockno ≠ (s.cache.buf i).blockno →
          (s.cache.buf i).refcnt = 0 ∧ (s.cache.buf i).dirty = false) ∧
      (∃ order, order.Perm (List.finRange nBuf) ∧ s.cache.Listed order) ∧
      ∀ a e, s.step a = .error e →
        (e = .panic "bget: no buffers" ∧ ∀ i, (s.cache.buf i).refcnt = 0 → (s.cache.buf i).dirty = true) ∨
          e = .panic "iderw: block out of range" := by
  have h := BufSys.run_coherent (boot_coherent disk disksize) hrun
  refine ⟨h.unique, fun p i s' hl hu hs => ?_, fun a s' i hs => h.recycled hs, h.listed, fun a e => h.panics⟩
  have h' := h.step hs
  rw [BufSys.step, if_pos ⟨hl, hu⟩] at hs
  obtain ⟨c, hc, hs⟩ := bind_eq_ok.1 hs
  cases hs
  have hlock : (c.buf i).lock ≠ none := by
    rw [(BufCache.fill_block hc i).2.2, hl]
    simp
  have hclean : update s.use i .clean i = .clean := update_self ..
  have hasked : (c.buf i).blockno = s.asked i := h'.asked i hlock
  have hdata : (c.buf i).data = s.spec (c.buf i).blockno :=
    h'.data i (h'.valid i hlock (.inl hclean)) (.inr (by simp))
  exact ⟨h'.dev_of_lock hlock, hasked, by rw [hdata, hasked]⟩

/-- A process has looked up block 5, which takes the place of the least recently used buffer, and holds its lock. -/
theorem cache_coherent_first_read : ∃ s s' : BufSys,
    (BufSys.boot (fun _ _ => 3) 1000).run [.look 7 5 true, .lock ⟨7, 0, 5, true⟩] = .ok s ∧
      s.step (.fill 7 0) = .ok s' ∧ (s'.cache.buf 0).data = fun _ => 3 := by
  refine ⟨_, _, rfl, rfl, ?_⟩
  have hrun : (BufSys.boot (fun _ _ => 3) 1000).run [.look 7 5 true, .lock ⟨7, 0, 5, true⟩] = .ok _ := rfl
  exact ((cache_coherent hrun).2.1 7 0 _ rfl rfl rfl).2.2

end DemandPaging.FileSys
