/-
Pipes: `pipe.c` from `pipealloc` on, used by any number of readers and writers. The steps are the parts
of a call that hold the lock of the pipe, up to its release or to a `sleep`, so that a writer with more
bytes than there is room for takes several. A thread that sleeps may go on at any time. The pipe is a
queue: what is read is what was written, in that order, also when the counters wrap.
-/
import DemandPaging.Kernel.Basic
import DemandPaging.Lib.Circular

namespace DemandPaging.Ipc

/-! ## The code -/

/-- `PIPESIZE`. -/
abbrev pipeSize : Nat := 512

/-- `struct pipe`, without the lock. -/
structure Pipe extends Circular UInt8 32 pipeSize where
  readopen : Bool
  writeopen : Bool

/-- The pipe that `pipealloc` sets up on a page with whatever bytes. -/
def pipealloc (data : Fin pipeSize → UInt8) : Pipe := ⟨⟨data, 0, 0⟩, true, true⟩

/-- `pipeclose`: the pipe, and whether its page is freed. -/
def pipeclose (p : Pipe) (writable : Bool) : Pipe × Bool :=
  let p := if writable then { p with writeopen := false } else { p with readopen := false }
  (p, p.readopen = false ∧ p.writeopen = false)

/-- How a part of a call that holds the lock ends. -/
inductive Exit (α : Type)
  | failed
  | asleep
  | returned (a : α)
  deriving DecidableEq

/-- The loop of `pipewrite` over the bytes that are left; those that it has not stored at its end. -/
def pipewrite (killed : Bool) : List UInt8 → Pipe → Exit Unit × List UInt8 × Pipe
  | [], p => (.returned (), [], p)
  | c :: cs, p =>
    if p.nwrite = p.nread + BitVec.ofNat 32 pipeSize then
      if p.readopen = false ∨ killed = true then (.failed, c :: cs, p) else (.asleep, c :: cs, p)
    else pipewrite killed cs { p with toCircular := p.put c }

/-- The loop of `piperead` that copies `n` bytes or as many as there are. -/
def copyLoop : Nat → Pipe → List UInt8 × Pipe
  | 0, p => ([], p)
  | n + 1, p =>
    if p.nread = p.nwrite then ([], p)
    else
      let (cs, p') := copyLoop n { p with toCircular := p.take }
      (p.front :: cs, p')

/-- `piperead`, which returns the number of bytes copied. -/
def piperead (killed : Bool) (n : Int) (p : Pipe) : Exit (List UInt8) × Pipe :=
  if p.nread = p.nwrite ∧ p.writeopen = true then
    if killed then (.failed, p) else (.asleep, p)
  else
    let (cs, p) := copyLoop n.toNat p
    (.returned cs, p)

/-! ## Threads -/

/-- Where a thread is: in neither call, or about to go on with one. -/
inductive Thread
  | out
  | writing (rest : List UInt8)
  | reading (n : Int)

/-- The pipe and the threads, and all bytes that have been stored and delivered, in order. -/
structure Sys where
  pipe : Pipe
  thread : Nat → Thread
  stored : List UInt8
  delivered : List UInt8

inductive Event
  | write (t : Nat) (bytes : List UInt8)
  | read (t : Nat) (n : Int)
  | run (t : Nat) (killed : Bool)
  | close (writable : Bool)

/-- A thread goes on with its call. -/
def resume (t : Nat) (killed : Bool) (s : Sys) : Sys :=
  match s.thread t with
  | .out => s
  | .writing bytes =>
    let (e, rest, p) := pipewrite killed bytes s.pipe
    { s with
      pipe := p
      thread := Function.update s.thread t (if e = .asleep then .writing rest else .out)
      stored := s.stored ++ bytes.take (bytes.length - rest.length) }
  | .reading n =>
    match piperead killed n s.pipe with
    | (.returned cs, p) =>
      { s with pipe := p, thread := Function.update s.thread t .out, delivered := s.delivered ++ cs }
    | (.asleep, p) => { s with pipe := p }
    | (.failed, p) => { s with pipe := p, thread := Function.update s.thread t .out }

/-- One step. A thread in a call does not begin another one, and when the second end is closed the page
is no pipe any more. -/
def step (s : Sys) : Event → Sys
  | .write t bytes =>
    match s.thread t with
    | .out => { s with thread := Function.update s.thread t (.writing bytes) }
    | _ => s
  | .read t n =>
    match s.thread t with
    | .out => { s with thread := Function.update s.thread t (.reading n) }
    | _ => s
  | .run t killed => if s.pipe.readopen = false ∧ s.pipe.writeopen = false then s else resume t killed s
  | .close writable => { s with pipe := (pipeclose s.pipe writable).1 }

/-- A new pipe that no one uses yet. -/
def Sys.init (data : Fin pipeSize → UInt8) : Sys := ⟨pipealloc data, fun _ => .out, [], []⟩

/-! ## One part of a call -/

variable {p p' : Pipe} {killed : Bool}

theorem pipeSize_dvd : pipeSize ∣ 2 ^ 32 := by decide

theorem pipeSize_lt : pipeSize < 2 ^ 32 := by decide

/-- `pipewrite` puts the bytes that it stores at the end of the queue. -/
theorem pipewrite_spec : ∀ {bytes rest : List UInt8} {p p' : Pipe} {e : Exit Unit}, p.count ≤ pipeSize →
    pipewrite killed bytes p = (e, rest, p') →
    p'.count ≤ pipeSize ∧ ∃ cs, bytes = cs ++ rest ∧ p'.contents = p.contents ++ cs
  | [], rest, p, p', e, hp, h => by
    cases h
    exact ⟨hp, [], rfl, (List.append_nil _).symm⟩
  | c :: cs, rest, p, p', e, hp, h => by
    rw [pipewrite] at h
    split at h
    · split at h <;> cases h <;> exact ⟨hp, [], rfl, (List.append_nil _).symm⟩
    · next hfull =>
      have hlt : p.count < pipeSize := by
        rw [Circular.full_iff pipeSize_lt] at hfull
        omega
      have hput : (p.put c).count ≤ pipeSize := by
        rw [Circular.count_put c pipeSize_lt hlt]
        exact hlt
      obtain ⟨hp', ds, rfl, hds⟩ := pipewrite_spec hput h
      refine ⟨hp', c :: ds, rfl, ?_⟩
      rw [hds, Circular.contents_put c pipeSize_dvd pipeSize_lt hlt, List.append_assoc]
      rfl

/-- The bytes that are copied are the first ones of the queue, and none only if there is none. -/
theorem copyLoop_spec : ∀ {n : Nat} {p p' : Pipe} {cs : List UInt8}, copyLoop n p = (cs, p') →
    p'.count ≤ p.count ∧ p.contents = cs ++ p'.contents ∧ p'.writeopen = p.writeopen ∧ (cs = [] → n = 0 ∨ p.contents = [])
  | 0, p, p', cs, h => by
    cases h
    exact ⟨le_rfl, rfl, rfl, fun _ => .inl rfl⟩
  | n + 1, p, p', cs, h => by
    rw [copyLoop] at h
    split at h
    · next hempty =>
      cases h
      exact ⟨le_rfl, rfl, rfl, fun _ => .inr (Circular.contents_empty hempty)⟩
    · next hne =>
      generalize hr : copyLoop n { p with toCircular := p.take } = r at h
      obtain ⟨ds, p''⟩ := r
      cases h
      obtain ⟨hcount, hds, hopen, -⟩ := copyLoop_spec hr
      have htake := Circular.count_take hne
      refine ⟨?_, ?_, hopen, fun hnil => ?_⟩
      · show p'.count ≤ p.count
        have : p'.count ≤ p.take.count := hcount
        omega
      · rw [Circular.contents_take hne, List.cons_append]
        exact congrArg _ hds
      · cases hnil

theorem piperead_returned {n : Int} {cs : List UInt8} (h : piperead killed n p = (.returned cs, p')) :
    ¬(p.nread = p.nwrite ∧ p.writeopen = true) ∧ copyLoop n.toNat p = (cs, p') := by
  rw [piperead] at h
  split at h
  · split at h <;> cases h
  · next hne =>
    cases h
    exact ⟨hne, rfl⟩

theorem piperead_stays {n : Int} {e : Exit (List UInt8)} (h : piperead killed n p = (e, p')) (he : ∀ cs, e ≠ .returned cs) : p' = p := by
  rw [piperead] at h
  split at h
  · split at h <;> cases h <;> rfl
  · cases h
    exact absurd rfl (he _)

/-! ## Whole runs -/

/-- No more bytes than fit, and what has been delivered and what is in the buffer is what has been stored. -/
structure Fifo (s : Sys) : Prop where
  room : s.pipe.count ≤ pipeSize
  order : s.stored = s.delivered ++ s.pipe.contents

variable {s : Sys}

theorem Fifo.resume (h : Fifo s) (t : Nat) (killed : Bool) : Fifo (resume t killed s) := by
  unfold Ipc.resume
  split
  · exact h
  · next bytes _ =>
    generalize hw : pipewrite killed bytes s.pipe = r
    obtain ⟨e, rest, p⟩ := r
    obtain ⟨hroom, cs, rfl, hcs⟩ := pipewrite_spec h.room hw
    constructor
    · exact hroom
    · show s.stored ++ (cs ++ rest).take _ = s.delivered ++ p.contents
      rw [List.length_append, Nat.add_sub_cancel, List.take_left, h.order, List.append_assoc, hcs]
  · next n _ =>
    split
    · next cs p hr =>
      obtain ⟨-, hcopy⟩ := piperead_returned hr
      obtain ⟨hcount, hcs, -⟩ := copyLoop_spec hcopy
      constructor
      · exact hcount.trans h.room
      · show s.stored = s.delivered ++ cs ++ p.contents
        rw [h.order, hcs, List.append_assoc]
    · next p hr =>
      obtain rfl := piperead_stays hr nofun
      exact ⟨h.room, h.order⟩
    · next p hr =>
      obtain rfl := piperead_stays hr nofun
      exact ⟨h.room, h.order⟩

theorem Fifo.step (h : Fifo s) : ∀ e, Fifo (step s e)
  | .write t bytes => by
    rw [Ipc.step]
    split
    · exact ⟨h.room, h.order⟩
    · exact h
  | .read t n => by
    rw [Ipc.step]
    split
    · exact ⟨h.room, h.order⟩
    · exact h
  | .run t killed => by
    rw [Ipc.step]
    split
    · exact h
    · exact h.resume t killed
  | .close writable => by
    cases writable <;> exact ⟨h.room, h.order⟩

theorem Fifo.run : ∀ {s : Sys} (es : List Event), Fifo s → Fifo (es.foldl Ipc.step s)
  | _, [], h => h
  | _, e :: es, h => Fifo.run es (h.step e)

theorem fifo_init (data : Fin pipeSize → UInt8) : Fifo (Sys.init data) := by
  have hempty : (Sys.init data).pipe.nread = (Sys.init data).pipe.nwrite := rfl
  constructor
  · rw [Circular.empty_iff.1 hempty]
    exact Nat.zero_le _
  · rw [Circular.contents_empty hempty]
    rfl

/-- The system after a run of events on a new pipe. -/
def after (data : Fin pipeSize → UInt8) (es : List Event) : Sys := es.foldl step (Sys.init data)

/-- Pipes are lossless queues, in every run of any number of threads and across every wrap of the counters. -/
theorem pipe_fifo (data : Fin pipeSize → UInt8) (es : List Event) :
    ((after data es).pipe.nwrite - (after data es).pipe.nread).toNat ≤ pipeSize ∧
      (after data es).delivered <+: (after data es).stored ∧
      (after data es).stored = (after data es).delivered ++ (after data es).pipe.contents ∧
      ∀ (killed : Bool) (n : Int) (p' : Pipe), 0 < n → piperead killed n (after data es).pipe = (.returned [], p') →
        (after data es).pipe.writeopen = false ∧ (after data es).delivered = (after data es).stored := by
  have hf : Fifo (after data es) := (fifo_init data).run es
  refine ⟨hf.room, ⟨_, hf.order.symm⟩, hf.order, ?_⟩
  intro killed n p' hn hread
  obtain ⟨hopen, hcopy⟩ := piperead_returned hread
  obtain ⟨-, -, -, hnil⟩ := copyLoop_spec hcopy
  have hempty : (after data es).pipe.contents = [] := (hnil rfl).resolve_left (by omega)
  constructor
  · by_contra hw
    refine hopen ⟨?_, by simpa using hw⟩
    rw [Circular.empty_iff, ← Circular.length_contents, hempty]
    rfl
  · rw [hf.order, hempty, List.append_nil]

/-- Two bytes are written and read, the write end is closed, and a read finds the end. -/
theorem pipe_fifo_end : ∃ es p', piperead false 1 (after (fun _ => 0) es).pipe = (.returned [], p') ∧
    (after (fun _ => 0) es).delivered = [97, 98] ∧ (after (fun _ => 0) es).delivered = (after (fun _ => 0) es).stored := by
  let es : List Event := [.write 0 [97, 98], .read 1 2, .run 1 false, .run 0 false, .run 1 false, .close true]
  have hread : (piperead false 1 (after (fun _ => 0) es).pipe).1 = .returned [] := by decide +kernel
  have hrun : piperead false 1 (after (fun _ => 0) es).pipe = (.returned [], (piperead false 1 (after (fun _ => 0) es).pipe).2) :=
    Prod.ext hread rfl
  exact ⟨es, _, hrun, by decide +kernel, ((pipe_fifo (fun _ => 0) es).2.2.2 false 1 _ (by decide) hrun).2⟩

end DemandPaging.Ipc
