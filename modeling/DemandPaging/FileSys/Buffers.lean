/-
The buffer cache of `bio.c` over the memory disk of `memide.c`: buffers with their sleep locks, the
list of all buffers in order of their last use, and the functions that look up, read, write and
release a buffer, cut at the points where another process may run.
-/
import DemandPaging.Kernel.State
import DemandPaging.Lib.Outcome
import DemandPaging.Lib.Ring

namespace DemandPaging.FileSys

open Function

/-- `NBUF`: buffers in the cache. -/
abbrev nBuf : Nat := 30

abbrev BufIdx := Fin nBuf

/-- A place in the list: a buffer, or null for `bcache.head`. -/
abbrev Node := Option BufIdx

/-- `struct buf`; `lock` is the holder of the sleep lock, the flags are `B_VALID` and `B_DIRTY`. -/
structure Buf where
  valid : Bool
  dirty : Bool
  dev : Nat
  blockno : Nat
  lock : Option Nat
  refcnt : Nat
  data : Block

/-- `bcache`, with the disk under it. -/
structure BufCache where
  buf : BufIdx → Buf
  next : Node → Node
  prev : Node → Node
  disk : Nat → Block
  disksize : Nat

namespace BufCache

def setBuf (c : BufCache) (i : BufIdx) (b : Buf) : BufCache := { c with buf := update c.buf i b }

/-! ## The list -/

/-- Hang a buffer behind `bcache.head`. -/
def linkFirst (c : BufCache) (i : BufIdx) : BufCache :=
  let c := { c with next := update c.next (some i) (c.next none) }
  let c := { c with prev := update c.prev (some i) none }
  let c := { c with prev := update c.prev (c.next none) (some i) }
  { c with next := update c.next none (some i) }

/-- Take a buffer out of the list. -/
def unlink (c : BufCache) (i : BufIdx) : BufCache :=
  let c := { c with prev := update c.prev (c.next (some i)) (c.prev (some i)) }
  { c with next := update c.next (c.prev (some i)) (c.next (some i)) }

/-- A loop over the list, along `next` or along `prev`, up to the first buffer that passes a test. -/
def scan (c : BufCache) (step : Node → Node) (test : Buf → Bool) : Nat → Node → Except Stuck (Option BufIdx)
  | 0, _ => .error .diverge
  | _ + 1, none => .ok none
  | n + 1, some i => if test (c.buf i) then .ok (some i) else c.scan step test n (step (some i))

/-! ## Buffers -/

/-- `bget` up to its call of `acquiresleep`. -/
def bget (dev blockno : Nat) (c : BufCache) : Except Stuck (BufIdx × BufCache) := do
  match ← c.scan c.next (fun b => b.dev == dev && b.blockno == blockno) (nBuf + 1) (c.next none) with
  | some i => .ok (i, c.setBuf i { c.buf i with refcnt := (c.buf i).refcnt + 1 })
  | none =>
    -- not cached: recycle an unused buffer
    match ← c.scan c.prev (fun b => b.refcnt == 0 && !b.dirty) (nBuf + 1) (c.prev none) with
    | some i =>
      .ok (i, c.setBuf i { c.buf i with dev := dev, blockno := blockno, valid := false, dirty := false, refcnt := 1 })
    | none => .error (.panic "bget: no buffers")

/-- `acquiresleep` on the lock of a buffer; null where the caller goes to sleep. -/
def acquiresleep (p : Nat) (i : BufIdx) (c : BufCache) : Option BufCache :=
  if (c.buf i).lock = none then some (c.setBuf i { c.buf i with lock := some p }) else none

/-- `iderw`. -/
def iderw (p : Nat) (i : BufIdx) (c : BufCache) : Except Stuck BufCache :=
  let b := c.buf i
  if b.lock ≠ some p then .error (.panic "iderw: buf not locked")
  else if b.valid ∧ ¬b.dirty then .error (.panic "iderw: nothing to do")
  else if b.dev ≠ 1 then .error (.panic "iderw: request not for disk 1")
  else if c.disksize ≤ b.blockno then .error (.panic "iderw: block out of range")
  else if b.dirty then
    .ok { c.setBuf i { b with dirty := false, valid := true } with disk := update c.disk b.blockno b.data }
  else .ok (c.setBuf i { b with data := c.disk b.blockno, valid := true })

/-- What `bread` does with the buffer that `bget` returns. -/
def fill (p : Nat) (i : BufIdx) (c : BufCache) : Except Stuck BufCache :=
  if (c.buf i).valid then .ok c else c.iderw p i

/-- `bwrite`. -/
def bwrite (p : Nat) (i : BufIdx) (c : BufCache) : Except Stuck BufCache :=
  if (c.buf i).lock ≠ some p then .error (.panic "bwrite")
  else (c.setBuf i { c.buf i with dirty := true }).iderw p i

/-- What `log_write` does to the buffer. -/
def pin (i : BufIdx) (c : BufCache) : BufCache := c.setBuf i { c.buf i with dirty := true }

/-- `brelse` up to its call of `releasesleep`, which it ends with. -/
def unlock (p : Nat) (i : BufIdx) (c : BufCache) : Except Stuck BufCache :=
  if (c.buf i).lock ≠ some p then .error (.panic "brelse")
  else .ok (c.setBuf i { c.buf i with lock := none })

/-- The rest of `brelse`, run under `bcache.lock`. -/
def unref (i : BufIdx) (c : BufCache) : BufCache :=
  let c := c.setBuf i { c.buf i with refcnt := (c.buf i).refcnt - 1 }
  if (c.buf i).refcnt = 0 then (c.unlink i).linkFirst i else c

/-- The zeroed buffers that `binit` finds. -/
def zeroed (disk : Nat → Block) (disksize : Nat) : BufCache :=
  { buf := fun _ => ⟨false, false, 0, 0, none, 0, fun _ => 0⟩, next := fun _ => none, prev := fun _ => none, disk, disksize }

/-- `binit`; the head points to itself before the first buffer is hung in. -/
def binit (disk : Nat → Block) (disksize : Nat) : BufCache :=
  (List.finRange nBuf).foldl linkFirst (zeroed disk disksize)

end BufCache

end DemandPaging.FileSys
