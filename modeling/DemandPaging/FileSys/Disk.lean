/-
The driver `ide.c`: `iderw` queues a buffer and waits for it, the disk works on the first one and interrupts, and `ideintr` takes the
result and starts the next. The transfers are made one after another in the order of the calls, as `memide.c` makes them at once.
-/
import DemandPaging.FileSys.Buffers
import DemandPaging.Lib.Monitor

namespace DemandPaging.FileSys

open Function Monitor

/-- What `idestart` writes to the ports: the sector in four parts, the last with the drive, and the data of a write. -/
structure Command where
  lba0 : Nat
  lba1 : Nat
  lba2 : Nat
  head : Nat
  write : Option Block

def idestart (b : Buf) : Command :=
  ⟨b.blockno % 256, b.blockno / 2 ^ 8 % 256, b.blockno / 2 ^ 16 % 256, 0xe0 + 2 ^ 4 * (b.dev % 2) + b.blockno / 2 ^ 24 % 16,
    if b.dirty then some b.data else none⟩

/-- The block that the disk finds in its ports. -/
def Command.block (c : Command) : Nat := c.lba0 + 2 ^ 8 * c.lba1 + 2 ^ 16 * c.lba2 + 2 ^ 24 * (c.head % 16)

/-- The queue along `qnext`, the command that the disk works on and the disk. `calls` are the buffers as `iderw` got them, `done` those
served, with whether the disk had a fault, and `results` what they were then. -/
structure Ide where
  buf : BufIdx → Buf
  queue : List BufIdx
  cmd : Option Command
  disk : Nat → Block
  calls : List Buf
  done : List (Bool × Buf)
  results : List Buf

/-- `ideintr`, when the disk has worked on its command. A fault is noticed for a read only, which then leaves the data alone. -/
def Ide.ideintr (fault : Bool) (s : Ide) : Option (BufIdx × Ide) :=
  match s.queue, s.cmd with
  | i :: queue, some cmd =>
    let b := s.buf i
    let b' := { b with data := if b.dirty || fault then b.data else s.disk cmd.block, valid := true, dirty := false }
    let buf := update s.buf i b'
    some (i, { s with
      buf, queue
      cmd := queue.head?.map fun j => idestart (buf j)
      disk := if fault then s.disk else cmd.write.elim s.disk (update s.disk cmd.block)
      done := s.done ++ [(fault, b)]
      results := s.results ++ [b'] })
  | _, _ => none

def Ide.synced (s : Ide) (i : BufIdx) : Bool := (s.buf i).valid && !(s.buf i).dirty

inductive IdeAct
  /-- The buffer, with what its holder has made of it. -/
  | iderw (i : BufIdx) (b : Buf)
  /-- The end of `iderw`. -/
  | return
  | ideintr (fault : Bool)

/-- `iderw` and `ideintr` under `idelock`; a process knows the buffer that its `iderw` waits for. -/
def ide : Monitor Nat (Option BufIdx) Ide (Option BufIdx) IdeAct where
  ready l s := l.all s.synced
  chan l := l
  act
    | .iderw i b, _, none, s =>
      if s.queue.contains i ∨ (b.valid && !b.dirty) ∨ b.dev ≠ 1 ∨ 2 ^ 28 ≤ b.blockno then none
      else some (none, some i, { s with
        buf := update s.buf i b, queue := s.queue ++ [i], cmd := if s.queue = [] then some (idestart b) else s.cmd, calls := s.calls ++ [b] })
    | .return, _, some i, s => if s.synced i then some (none, none, s) else none
    | .ideintr fault, _, none, s => (s.ideintr fault).map fun r => (some (some r.1), none, r.2)
    | _, _, _, _ => none

/-! ## Transfers at once -/

/-- A transfer, made at once; with a fault no data moves. -/
def transfer (fault : Bool) (b : Buf) (disk : Nat → Block) : Buf × (Nat → Block) :=
  ({ b with data := if b.dirty || fault then b.data else disk b.blockno, valid := true, dirty := false },
    if b.dirty && !fault then update disk b.blockno b.data else disk)

theorem BufCache.iderw_transfer {c c' : BufCache} {p : Nat} {i : BufIdx} (h : c.iderw p i = .ok c') :
    (c'.buf i, c'.disk) = transfer false (c.buf i) c.disk := by
  simp only [BufCache.iderw] at h
  split_ifs at h with h1 h2 h3 h4 h5 <;> cases h <;> simp_all [transfer, BufCache.setBuf]

def transfers (disk : Nat → Block) (bs : List (Bool × Buf)) : List Buf × (Nat → Block) :=
  bs.foldl (fun r b => (r.1 ++ [(transfer b.1 b.2 r.2).1], (transfer b.1 b.2 r.2).2)) ([], disk)

/-! ## The order of the calls -/

structure InOrder (disk : Nat → Block) (waits : Nat → Option BufIdx) (s : Ide) : Prop where
  calls : s.calls = s.done.map Prod.snd ++ s.queue.map s.buf
  disk : transfers disk s.done = (s.results, s.disk)
  cmd : s.cmd = s.queue.head?.map fun i => idestart (s.buf i)
  nodup : s.queue.Nodup
  small : ∀ i ∈ s.queue, (s.buf i).blockno < 2 ^ 28
  waits : ∀ p i, waits p = some i → i ∈ s.queue ∨ s.synced i

theorem block_idestart {b : Buf} (h : b.blockno < 2 ^ 28) : (idestart b).block = b.blockno := by
  simp only [idestart, Command.block]
  omega

theorem ide_lawful (disk : Nat → Block) : ide.Lawful (InOrder disk) := by
  intro a p own c l s s' h ha
  obtain ⟨hcalls, hdisk, hcmd, hnodup, hsmall, hwaits⟩ := h
  cases a <;> cases hp : own p <;> simp only [ide, hp] at ha ⊢
  case iderw.none i b =>
    -- the buffer joins the end of the queue, and no other one is touched
    split at ha <;> cases ha
    rename_i hi
    refine ⟨⟨?_, hdisk, ?_, ?_, ?_, ?_⟩, ?_⟩
    · grind [List.map_congr_left]
    · cases hs : s.queue <;> grind
    · grind
    · grind
    · grind [Ide.synced]
    · rintro (_ | m) <;> grind [Ide.synced, Option.all]
  case return.some i =>
    split_ifs at ha
    cases ha
    exact ⟨⟨hcalls, hdisk, hcmd, hnodup, hsmall, by grind⟩, by simp_all⟩
  case ideintr.none fault =>
    obtain ⟨r, hr, hc⟩ := Option.map_eq_some_iff.1 ha
    cases hc
    cases hq : s.queue with
    | nil => simp [Ide.ideintr, hq] at hr
    | cons i queue =>
      rw [hq] at hcmd hnodup
      have hi : i ∉ queue := (List.nodup_cons.1 hnodup).1
      -- the disk has found the block of the first buffer in its ports
      simp only [Ide.ideintr, hq, hcmd, List.head?_cons, Option.map_some, block_idestart (hsmall i (by simp [hq])),
        Option.some.injEq] at hr
      subst hr
      refine ⟨⟨by grind [List.map_congr_left], ?_, rfl, hnodup.of_cons, ?_, ?_⟩, ?_⟩
      · -- its transfer comes after all those that are done
        rw [transfers, List.foldl_append, ← transfers, hdisk]
        cases fault <;> cases hd : (s.buf i).dirty <;> simp [transfer, idestart, hd]
      · grind
      · grind [Ide.synced]
      · rintro (_ | m) <;> grind [Ide.synced, Option.all]
  all_goals cases ha

/-- In any run the calls are served in their order, up to those still in the queue, with the results and the disk of transfers made at
once. The disk works on the first of the queue, and is idle only without one. A process that sleeps in `iderw` has its buffer in the
queue or is about to be woken. -/
theorem ide_in_order {es : List (Monitor.Event Nat IdeAct)} {bufs : BufIdx → Buf} {disk : Nat → Block}
    {s : Monitor.Sys Nat (Option BufIdx) Ide (Option BufIdx)}
    (hr : ide.run es (start ⟨bufs, [], none, disk, [], [], []⟩ none) = some s) :
    s.data.calls = s.data.done.map Prod.snd ++ s.data.queue.map s.data.buf ∧
      transfers disk s.data.done = (s.data.results, s.data.disk) ∧
      s.data.cmd = s.data.queue.head?.map (fun i => idestart (s.data.buf i)) ∧
      ∀ p i, s.own p = some i → s.Waits p → i ∈ s.data.queue ∨ ∃ q, s.Owes q (some i) := by
  have h := Sound.run (ide_lawful disk) es (start_sound ⟨rfl, rfl, rfl, List.nodup_nil, by simp, by simp⟩) hr
  refine ⟨h.data.calls, h.data.disk, h.data.cmd, fun p i hp hw => ?_⟩
  refine (h.data.waits p i hp).imp_right fun hi => ?_
  have hw := h.waits p hw
  rw [hp] at hw
  exact hw (by simpa [ide] using hi)

/-- The result of a read is there before its process is asleep. -/
def oneRead : List (Monitor.Event Nat IdeAct) :=
  [.acquire 1, .act 1 (.iderw 0 ⟨false, false, 1, 7, some 1, 1, fun _ => 0⟩), .sleep 1, .next 1, .next 1, .acquire 2, .act 2 (.ideintr false)]

theorem ide_in_order_oneRead : ∃ s, ide.run oneRead (start ⟨fun _ => ⟨false, false, 0, 0, none, 0, fun _ => 0⟩, [], none, fun _ _ => 1,
    [], [], []⟩ none) = some s ∧ (0 ∈ s.data.queue ∨ ∃ q, s.Owes q (some 0)) :=
  ⟨_, rfl, (ide_in_order (show ide.run oneRead _ = _ from rfl)).2.2.2 1 0 rfl (.inl rfl)⟩

end DemandPaging.FileSys
