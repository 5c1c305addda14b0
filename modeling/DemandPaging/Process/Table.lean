/-
The process table of `proc.c` as several processors use it. A step is a part of a call that holds
`ptable.lock`, or one of the writes that `fork` makes to the new entry without the lock. Where `fork`
runs out of memory is left open: it may give up at any time before it sets the parent.
-/
import DemandPaging.Kernel.State

namespace DemandPaging.Process

open Function

/-! ## State -/

/-- What a process sleeps on: a process, in `wait`, or anything else. -/
inductive Chan
  | null
  | proc (p : ProcIdx)
  | other (n : Nat)
  deriving DecidableEq

/-- How far a process is with a call that takes more than one step. -/
inductive Pc
  | user
  /-- `fork` has the new entry from `allocproc`. -/
  | forking (np : ProcIdx)
  /-- `fork` has set `np->parent`. -/
  | forked (np : ProcIdx)
  /-- `exit` is about to take the lock. -/
  | exiting
  /-- `wait` has gone to sleep. -/
  | waiting
  deriving DecidableEq

/-- The fields of `struct proc` that these calls use. Of the process in the entry, `birth` is its number
among all processes and `hit` tells whether `kill` has been called with its pid or it has faulted. -/
structure Entry where
  state : ProcState
  pid : Int
  parent : Option ProcIdx
  killed : Bool
  chan : Chan
  pc : Pc
  birth : Nat
  hit : Bool
  deriving DecidableEq

/-- `born` counts the processes that there have been, and `reaped` are those that a `wait` has returned. -/
structure Table where
  proc : ProcIdx → Entry
  nextpid : Int
  initproc : ProcIdx
  born : Nat
  reaped : List Nat

/-- After `userinit`. -/
def boot : Table where
  proc := fun p => ⟨if p = 0 then .runnable else .unused, if p = 0 then 1 else 0, none, false, .null, .user, 0, false⟩
  nextpid := 2
  initproc := 0
  born := 1
  reaped := []

namespace Table

variable (s : Table)

def set (p : ProcIdx) (e : Entry) : Table := { s with proc := update s.proc p e }

/-! ## The code -/

/-- `wakeup1`. -/
def wakeup1 (c : Chan) : Table :=
  { s with proc := fun q =>
    let e := s.proc q
    if e.state = .sleeping ∧ e.chan = c then { e with state := .runnable } else e }

/-- The address of a process that a pointer holds. -/
def chanOf : Option ProcIdx → Chan
  | some p => .proc p
  | none => .null

/-- The part of `allocproc` that holds the lock. The pid wraps as an `int` does. -/
def allocproc : Option ProcIdx × Table :=
  match Fin.find? fun q => (s.proc q).state = .unused with
  | none => (none, s)
  | some np => (some np, { s.set np { s.proc np with state := .embryo, pid := s.nextpid, birth := s.born, hit := false } with
      nextpid := Int.bmod (s.nextpid + 1) (2 ^ 32), born := s.born + 1 })

/-- The loop of `exit` that passes the children on to `initproc`. -/
def reparent (p : ProcIdx) : List ProcIdx → Table → Table
  | [], s => s
  | q :: qs, s =>
    if (s.proc q).parent = some p then
      let s := s.set q { s.proc q with parent := some s.initproc }
      reparent p qs (if (s.proc q).state = .zombie then s.wakeup1 (.proc s.initproc) else s)
    else reparent p qs s

/-- The part of `exit` that holds the lock. -/
def exit (p : ProcIdx) : Table :=
  let s := s.wakeup1 (chanOf (s.proc p).parent)
  let s := reparent p (List.finRange nProc) s
  s.set p { s.proc p with state := .zombie }

/-- How a scan of `wait` ends. -/
inductive WaitExit
  | reaped (c : ProcIdx) (pid : Int)
  | failed
  | asleep
  deriving DecidableEq

/-- One scan of `wait`. -/
def wait (p : ProcIdx) : WaitExit × Table :=
  match Fin.find? fun q => (s.proc q).parent = some p ∧ (s.proc q).state = .zombie with
  | some c => (.reaped c (s.proc c).pid, { s.set c { s.proc c with pid := 0, parent := none, killed := false, state := .unused } with
      reaped := s.reaped ++ [(s.proc c).birth] })
  | none =>
    if (∀ q, (s.proc q).parent ≠ some p) ∨ (s.proc p).killed = true then (.failed, s)
    else (.asleep, s.set p { s.proc p with chan := .proc p, state := .sleeping })

/-- The entry that `kill` finds. -/
def lookup (n : Int) : Option ProcIdx := Fin.find? fun q => (s.proc q).pid = n

/-- Every process with the pid counts as hit, though `kill` finds the first one only. -/
def strike (n : Int) : Table := { s with proc := fun q => { s.proc q with hit := (s.proc q).hit || (s.proc q).pid == n } }

/-- `kill`. -/
def kill (n : Int) : Int × Table :=
  match s.lookup n with
  | some q =>
    let s := s.strike n
    (0, s.set q { s.proc q with
      killed := true, state := if (s.proc q).state = .sleeping then .runnable else (s.proc q).state })
  | none => (-1, s)

end Table

/-! ## Steps -/

inductive Act
  /-- The scheduler switches to a process. -/
  | schedule (p : ProcIdx)
  | yield (p : ProcIdx)
  /-- Any other call sleeps, or wakes those who sleep. -/
  | sleep (p : ProcIdx) (n : Nat)
  | wakeup (n : Nat)
  /-- `allocproc` in `fork`. -/
  | alloc (p : ProcIdx)
  /-- `fork` gives up, for there is no memory. -/
  | forkFail (p : ProcIdx)
  /-- `np->parent = curproc`. -/
  | forkParent (p : ProcIdx)
  /-- `np->state = RUNNABLE`. -/
  | forkDone (p : ProcIdx)
  /-- `exit` has passed its check and goes on to the lock. -/
  | exitStart (p : ProcIdx)
  | exit (p : ProcIdx)
  | wait (p : ProcIdx)
  | kill (n : Int)
  /-- A process does what it must not, and `trap` sets its `killed`. -/
  | fault (p : ProcIdx)
  deriving DecidableEq

/-- What a call does next; null if it is not the turn of that step. Only a running process makes steps,
and `exit` is not for `initproc`. -/
def step (s : Table) : Act → Option Table
  | .schedule p => if (s.proc p).state = .runnable then some (s.set p { s.proc p with state := .running, chan := .null }) else none
  | .yield p => if (s.proc p).state = .running then some (s.set p { s.proc p with state := .runnable }) else none
  | .sleep p n => if (s.proc p).state = .running then some (s.set p { s.proc p with state := .sleeping, chan := .other n }) else none
  | .wakeup n => some (s.wakeup1 (.other n))
  | .alloc p =>
    if (s.proc p).state = .running ∧ (s.proc p).pc = .user then
      match s.allocproc with
      | (none, s) => some s
      | (some np, s) => some (s.set p { s.proc p with pc := .forking np })
    else none
  | .forkFail p =>
    match (s.proc p).state, (s.proc p).pc with
    | .running, .forking np =>
      let s := s.set np { s.proc np with state := .unused }
      some (s.set p { s.proc p with pc := .user })
    | _, _ => none
  | .forkParent p =>
    match (s.proc p).state, (s.proc p).pc with
    | .running, .forking np =>
      let s := s.set np { s.proc np with parent := some p }
      some (s.set p { s.proc p with pc := .forked np })
    | _, _ => none
  | .forkDone p =>
    match (s.proc p).state, (s.proc p).pc with
    | .running, .forked np =>
      let s := s.set np { s.proc np with state := .runnable, pc := .user }
      some (s.set p { s.proc p with pc := .user })
    | _, _ => none
  | .exitStart p =>
    if (s.proc p).state = .running ∧ (s.proc p).pc = .user ∧ p ≠ s.initproc then some (s.set p { s.proc p with pc := .exiting }) else none
  | .exit p => if (s.proc p).state = .running ∧ (s.proc p).pc = .exiting then some (s.exit p) else none
  | .wait p =>
    if (s.proc p).state = .running ∧ ((s.proc p).pc = .user ∨ (s.proc p).pc = .waiting) then
      let (e, s) := s.wait p
      some (s.set p { s.proc p with pc := if e = .asleep then .waiting else .user })
    else none
  | .kill n => some (s.kill n).2
  | .fault p => if (s.proc p).state = .running then some (s.set p { s.proc p with killed := true, hit := true }) else none

def run : List Act → Table → Option Table
  | [], s => some s
  | a :: as, s => (step s a).bind (run as)

end DemandPaging.Process
