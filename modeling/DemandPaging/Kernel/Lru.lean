/-
The LRU ring of `lru_swap.c`: a circular doubly linked list threaded through a fixed array of
frames, with a bitmap of the frames in use and the lock `lru.lk`.

A frame pointer is an index of the array or null. The walks follow `next` without changing it, so
one that has not ended after as many steps as there are frames never ends.
-/
import DemandPaging.Kernel.Basic

namespace DemandPaging

/-- An index of `lru.lru_frame_list`. -/
abbrev LruIdx := Fin maxFrameLru

/-- `struct frame`. -/
structure Frame where
  pid : Int
  vaddr : Nat
  next : Option LruIdx
  prev : Option LruIdx

/-- `lru` together with `bitmap`. -/
structure Lru where
  head : Option LruIdx
  frames : LruIdx → Frame
  bitmap : LruIdx → Int
  lk : Bool

namespace Lru

/-- `acquire(&lru.lk)` panics when the lock is held already. -/
def acquire (l : Lru) : Except Stuck Lru :=
  if l.lk then .error (.panic "acquire") else .ok { l with lk := true }

/-- `release(&lru.lk)` panics when the lock is not held. -/
def release (l : Lru) : Except Stuck Lru :=
  if l.lk then .ok { l with lk := false } else .error (.panic "release")

def setFrame (l : Lru) (i : LruIdx) (f : Frame) : Lru := { l with frames := Function.update l.frames i f }

def setNext (l : Lru) (i : LruIdx) (q : Option LruIdx) : Lru := l.setFrame i { l.frames i with next := q }

def setPrev (l : Lru) (i : LruIdx) (q : Option LruIdx) : Lru := l.setFrame i { l.frames i with prev := q }

def setBit (l : Lru) (i : LruIdx) (b : Int) : Lru := { l with bitmap := Function.update l.bitmap i b }

end Lru

/-- `lru_swap_init`, the ring's part: the frames themselves are zero from boot. -/
def lruInit : Lru where
  head := none
  frames := fun _ => ⟨0, 0, none, none⟩
  bitmap := fun _ => -1
  lk := false

/-- `get_free_frame_lru`: the first free frame, null for `-1`. -/
@[irreducible] def getFreeFrameLru (l : Lru) : Option LruIdx := Fin.find? fun i => l.bitmap i = -1

/-- `lru_insert`. -/
def lruInsert (pid : Int) (vaddr : Nat) (l : Lru) : Except Stuck (Int × Lru) :=
  match l.head with
  | none => do
    let l ← l.acquire
    match getFreeFrameLru l with
    | none => return (-1, ← l.release)
    | some index =>
      let l := l.setFrame index ⟨pid, vaddr, some index, some index⟩
      let l := { l with head := some index }
      return (0, ← (l.setBit index 1).release)
  | some head => do
    -- `last` is read before the lock is taken
    let last := (l.frames head).prev
    let l ← l.acquire
    match getFreeFrameLru l with
    | none => return (-1, ← l.release)
    | some index =>
      let l := l.setFrame index ⟨pid, vaddr, some head, last⟩
      let l := l.setPrev head (some index)
      let l := l.setNext (← deref last) (some index)
      return (0, ← (l.setBit index 1).release)

/-- The search loop of `lru_free_frame`: where it stops, and the value of `prev` there. -/
def freeFrameWalk (l : Lru) (pid : Int) (vaddr : Nat) (head : LruIdx) :
    Nat → LruIdx → Option LruIdx → Except Stuck (LruIdx × Option LruIdx)
  | 0, _, _ => .error .diverge
  | fuel + 1, curr, prev =>
    if (l.frames curr).pid ≠ pid ∨ (l.frames curr).vaddr ≠ vaddr then
      if (l.frames curr).next = some head then .ok (curr, some curr)
      else do freeFrameWalk l pid vaddr head fuel (← deref (l.frames curr).next) (some curr)
    else .ok (curr, prev)

/-- `curr->prev->next = curr->next; curr->next->prev = curr->prev;` -/
def unlinkFrame (l : Lru) (curr : LruIdx) : Except Stuck Lru := do
  let l := l.setNext (← deref (l.frames curr).prev) (l.frames curr).next
  return l.setPrev (← deref (l.frames curr).next) (l.frames curr).prev

/-- `lru_free_frame`. -/
def lruFreeFrame (pid : Int) (vaddr : Nat) (l : Lru) : Except Stuck Lru :=
  match l.head with
  | none => .ok l
  | some head => do
    let l ← l.acquire
    let (curr, prev) ← freeFrameWalk l pid vaddr head maxFrameLru head none
    if (l.frames curr).pid = pid ∧ (l.frames curr).vaddr = vaddr then
      let l := if curr = head then { l with head := (l.frames head).next } else l
      let l ← if some curr = l.head ∧ prev ≠ none then do
          let l := l.setNext (← deref prev) l.head
          pure (l.setPrev (← deref l.head) prev)
        else unlinkFrame l curr
      (l.setBit curr (-1)).release
    else l.release

/-- `lru_delete`: the index of the removed frame, null for `-1`; on success the lock stays held. -/
def lruDelete (l : Lru) : Except Stuck (Option LruIdx × Lru) :=
  match l.head with
  | none => .ok (none, l)
  | some head => do
    let l ← l.acquire
    if (l.frames head).next = some head then
      let l := l.setNext head none
      return (some head, l.setPrev head none)
    else do
      let l ← unlinkFrame l head
      let l := { l with head := (l.frames head).next }
      let l := l.setNext head none
      return (some head, l.setPrev head none)

/-- `lru_get_pid_frame`. -/
def lruGetPidFrame (index : LruIdx) (l : Lru) : Except Stuck Int :=
  if l.lk then .ok (l.frames index).pid else .error (.panic "Not Holding Lock\n")

/-- `lru_get_vaddr_frame`. -/
def lruGetVaddrFrame (index : LruIdx) (l : Lru) : Except Stuck Nat :=
  if l.lk then .ok (l.frames index).vaddr else .error (.panic "Not Holding Lock\n")

/-- `lru_release_frame`. -/
def lruReleaseFrame (index : LruIdx) (l : Lru) : Except Stuck Lru := (l.setBit index (-1)).release

/-- The body of `lru_free` for a frame of the process: take it out of the ring and free it. The
second component is `flag`, set when the head moved on. -/
def freeCurr (l : Lru) (curr : LruIdx) : Lru × Bool :=
  let flag := some curr = l.head
  let l := if flag then { l with head := (l.frames curr).next } else l
  let l := match (l.frames curr).prev with
    | none => l
    | some q => l.setNext q (l.frames curr).next
  let l := match (l.frames curr).next with
    | none => l
    | some q => l.setPrev q (l.frames curr).prev
  (l.setBit curr (-1), flag)

/-- The `do`-`while` of `lru_free`. -/
def lruFreeLoop (pid : Int) : Nat → LruIdx → Lru → Except Stuck Lru
  | 0, _, _ => .error .diverge
  | fuel + 1, curr, l => do
    let (l, flag) := if (l.frames curr).pid = pid then freeCurr l curr else (l, false)
    let curr ← deref (l.frames curr).next
    if (l.frames curr).next = some curr ∧ (l.frames curr).prev = some curr then return l
    else if flag ∨ some curr ≠ l.head then lruFreeLoop pid fuel curr l
    else return l

/-- `lru_free`. -/
def lruFree (pid : Int) (l : Lru) : Except Stuck Lru :=
  match l.head with
  | none => .ok l
  | some head => do
    let l ← l.acquire
    (← lruFreeLoop pid maxFrameLru head l).release

end DemandPaging
