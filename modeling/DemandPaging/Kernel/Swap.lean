/-
The swap table of `lru_swap.c`: an array of slots, each holding one page on disk, linked into the
swap lists of the processes by the slots' `next` indices, with a bitmap of the slots in use and the
lock `swap.lk`.

These are the parts of `swap_out*`, `swap_in*`, `swap_check`, `swap_free` and `swap_fork` that work
on the table; `list` is the `swap_list` of the process they are called for. `next` is an index of
the table or null for `-1`.
-/
import DemandPaging.Kernel.Basic

namespace DemandPaging

/-- An index of `swap.swap_frame_list`. -/
abbrev SlotIdx := Fin maxFrameSwap

/-- The three swap spaces, in the order of `swapfunc_ptr_arr`. -/
inductive SwapKind
  | generic
  | stack
  | heap
  deriving DecidableEq, Repr

/-- The first disk block of a swap space. -/
def SwapKind.start : SwapKind → Nat
  | .generic => swap1Start
  | .stack => swap2Start
  | .heap => swap3Start

/-- `struct disk_frame`. -/
structure DiskFrame where
  vaddr : Nat
  next : Option SlotIdx
  swap : SwapKind
  count : Int

/-- `swap` together with `swap_bitmap`. -/
structure Swap where
  frames : SlotIdx → DiskFrame
  bitmap : SlotIdx → Int
  lk : Bool

namespace Swap

/-- `acquire(&swap.lk)` panics when the lock is held already. -/
def acquire (sw : Swap) : Except Stuck Swap :=
  if sw.lk then .error (.panic "acquire") else .ok { sw with lk := true }

/-- `release(&swap.lk)` panics when the lock is not held. -/
def release (sw : Swap) : Except Stuck Swap :=
  if sw.lk then .ok { sw with lk := false } else .error (.panic "release")

def setSlot (sw : Swap) (i : SlotIdx) (d : DiskFrame) : Swap := { sw with frames := Function.update sw.frames i d }

def setNext (sw : Swap) (i : SlotIdx) (q : Option SlotIdx) : Swap := sw.setSlot i { sw.frames i with next := q }

def addCount (sw : Swap) (i : SlotIdx) (n : Int) : Swap :=
  sw.setSlot i { sw.frames i with count := (sw.frames i).count + n }

def setBit (sw : Swap) (i : SlotIdx) (b : Int) : Swap := { sw with bitmap := Function.update sw.bitmap i b }

end Swap

/-- `lru_swap_init`, the swap table's part: the slots themselves are zero from boot. -/
def swapInit : Swap where
  frames := fun _ => ⟨0, some 0, .generic, 0⟩
  bitmap := fun _ => -1
  lk := false

/-- The first free slot. -/
@[irreducible] def freeSlot? (sw : Swap) : Option SlotIdx := Fin.find? fun i => sw.bitmap i = -1

/-- `swap_get_free_frame`: the first free slot, now in use, or null for `-1`. -/
def swapGetFreeFrame (sw : Swap) : Option (SlotIdx × Swap) :=
  (freeSlot? sw).map fun i => (i, sw.setBit i 1)

/-- The walk of `swap_out*` to the end of a list. -/
def lastSlot (sw : Swap) : Nat → SlotIdx → Except Stuck SlotIdx
  | 0, _ => .error .diverge
  | fuel + 1, curr =>
    match (sw.frames curr).next with
    | none => .ok curr
    | some nx => lastSlot sw fuel nx

/-- `swap_out*` up to the release of the lock: the slot taken (null when there is none, and then
the lock stays held), the new `swap_list`, and the table. -/
def linkSlot (kind : SwapKind) (vaddr : Nat) (list : Option SlotIdx) (sw : Swap) :
    Except Stuck (Option SlotIdx × Option SlotIdx × Swap) :=
  match list with
  | none => do
    let sw ← sw.acquire
    match swapGetFreeFrame sw with
    | none => return (none, none, sw)
    | some (findex, sw) => return (some findex, some findex, ← (sw.setSlot findex ⟨vaddr, none, kind, 1⟩).release)
  | some head => do
    -- the end of the list is found before the lock is taken
    let curr ← lastSlot sw maxFrameSwap head
    let sw ← sw.acquire
    match swapGetFreeFrame sw with
    | none => return (none, some head, sw)
    | some (findex, sw) =>
      let sw := sw.setNext curr (some findex)
      return (some findex, some head, ← (sw.setSlot findex ⟨vaddr, none, kind, 1⟩).release)

/-- The search loop of `swap_in*`: where it stops, and the slot before. -/
def findSlot (sw : Swap) (vaddr : Nat) : Nat → SlotIdx → Option SlotIdx → Except Stuck (SlotIdx × Option SlotIdx)
  | 0, _, _ => .error .diverge
  | fuel + 1, curr, prev =>
    match (sw.frames curr).next with
    | none => .ok (curr, prev)
    | some nx => if (sw.frames curr).vaddr = vaddr then .ok (curr, prev) else findSlot sw vaddr fuel nx (some curr)

/-- `swap_in*` up to the release of the lock: the slot found (null when there is none), the new
`swap_list`, and the table. -/
def takeSlot (vaddr : Nat) (list : Option SlotIdx) (sw : Swap) :
    Except Stuck (Option SlotIdx × Option SlotIdx × Swap) :=
  match list with
  | none => .ok (none, none, sw)
  | some head => do
    let sw ← sw.acquire
    let (curr, prev) ← findSlot sw vaddr maxFrameSwap head none
    if (sw.frames curr).vaddr ≠ vaddr then return (none, list, ← sw.release)
    else
      let sw := sw.addCount curr (-1)
      if (sw.frames curr).count = 0 then
        if curr = head then return (some curr, (sw.frames curr).next, ← (sw.setBit curr (-1)).release)
        else
          let sw := sw.setNext (← deref prev) (sw.frames curr).next
          return (some curr, list, ← (sw.setBit curr (-1)).release)
      else return (some curr, list, ← sw.release)

/-- The loop of `swap_check`. -/
def checkSlot (sw : Swap) (vaddr : Nat) : Nat → SlotIdx → Except Stuck (Option SwapKind)
  | 0, _ => .error .diverge
  | fuel + 1, df =>
    match (sw.frames df).next with
    | none => .ok none
    | some nx =>
      if (sw.frames df).vaddr = vaddr then .ok (some (sw.frames df).swap)
      else if (sw.frames nx).next = none ∧ (sw.frames nx).vaddr = vaddr then .ok (some (sw.frames nx).swap)
      else checkSlot sw vaddr fuel nx

/-- `swap_check`: the kind of the slot that holds the page, null for `-1`. -/
def swapCheck (vaddr : Nat) (list : Option SlotIdx) (sw : Swap) : Except Stuck (Option SwapKind × Swap) :=
  match list with
  | none => .ok (none, sw)
  | some df => do
    let sw ← sw.acquire
    if (sw.frames df).next = none ∧ (sw.frames df).vaddr = vaddr then
      return (some (sw.frames df).swap, ← sw.release)
    else
      let r ← checkSlot sw vaddr maxFrameSwap df
      return (r, ← sw.release)

/-- The loop of `swap_free` over a list of several slots. -/
def freeSlotsLoop : Nat → SlotIdx → Swap → Except Stuck Swap
  | 0, _, _ => .error .diverge
  | fuel + 1, curr, sw =>
    match (sw.frames curr).next with
    | none => .ok sw
    | some nx =>
      let sw := sw.setBit curr (-1)
      let sw := if (sw.frames nx).next = none then sw.setBit nx (-1) else sw
      freeSlotsLoop fuel nx sw

/-- `swap_free` for a process that has not forked: the new `swap_list` and the table. A list of one
slot is freed without being reset. -/
def freeSlots (list : Option SlotIdx) (sw : Swap) : Except Stuck (Option SlotIdx × Swap) := do
  let sw ← sw.acquire
  match list with
  | none => return (list, ← sw.release)
  | some curr =>
    if (sw.frames curr).next = none then return (list, ← (sw.setBit curr (-1)).release)
    else return (none, ← (← freeSlotsLoop maxFrameSwap curr sw).release)

/-- The loop of `swap_fork` over a list of several slots. -/
def swapForkLoop : Nat → SlotIdx → Swap → Except Stuck Swap
  | 0, _, _ => .error .diverge
  | fuel + 1, curr, sw =>
    match (sw.frames curr).next with
    | none => .ok sw
    | some nx =>
      let sw := sw.addCount curr 1
      let sw := if (sw.frames nx).next = none then sw.addCount nx 1 else sw
      swapForkLoop fuel nx sw

/-- `swap_fork`; it takes no lock. -/
def swapFork (list : Option SlotIdx) (sw : Swap) : Except Stuck Swap :=
  match list with
  | none => .ok sw
  | some curr =>
    if (sw.frames curr).next = none then .ok (sw.addCount curr 1) else swapForkLoop maxFrameSwap curr sw

end DemandPaging
