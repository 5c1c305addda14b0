/-
Processes: `allocproc`, `fork` with `copyuvm`, `exit` and `wait`, as far as they concern memory,
swap lists and the process table. Locks of the table, sleeping and waking are left to the caller:
a call here runs to completion.
-/
import DemandPaging.Kernel.Paging

namespace DemandPaging

/-- `allocproc`: the first unused entry becomes `EMBRYO`, with a pid and a kernel stack. -/
def allocproc (s : Kernel) : Option ProcIdx × Kernel :=
  match Fin.find? fun i => (s.ptable i).state = .unused with
  | none => (none, s)
  | some p =>
    let s := { s.setProc p { s.ptable p with state := .embryo, pid := s.nextpid } with nextpid := s.nextpid + 1 }
    match kallocPage s.phys with
    | (none, _) => (none, s.setProc p { s.ptable p with kstack := none, state := .unused })
    | (some f, m) => (some p, { s.setProc p { s.ptable p with kstack := some f } with phys := m })

/-! ## Fork -/

/-- The loop of `copyuvm`, with the rounds that are left. `mem` is the page allocated last, null
before the first: a page that is not present is mapped, not present, to it. -/
def copyuvmLoop (old new : ProcIdx) :
    Nat → Nat → Option Nat → PageDir → Kernel → Except Stuck (Bool × PageDir × Kernel)
  | 0, _, _, d, s => .ok (true, d, s)
  | n + 1, i, mem, d, s => do
    match (← deref (s.ptable old).pgdir).pte? i with
    | none => .error (.panic "copyuvm: pte should exist")
    | some pte =>
      if pte.present = false then
        let (r, d, m) := mappages d i pgSize (mem.elim kernBase (· * pgSize)) ⟨false, true, true⟩ false s.phys
        let s := { s with phys := m }
        if r < 0 then return (false, d, s) else copyuvmLoop old new n (i + pgSize) mem d s
      else
        let (mem, s) ← kalloc (s.ptable new).pid (if (s.ptable old).cdbSize < i then (i : Int) else -1) s
        match mem with
        | none => return (false, d, s)
        | some f =>
          -- the entry is read again: the allocation may have evicted the very page
          match (← deref (s.ptable old).pgdir).pte? i with
          | none => .error .badPtr
          | some pte =>
            let s := { s with phys := s.phys.setPage f (s.phys.mem pte.frame) }
            let (r, d, m) := mappages d i pgSize (f * pgSize) pte.toFlags true s.phys
            let s := { s with phys := m }
            if r < 0 then return (false, d, ← klruFreeSwap new (f * pgSize + kernBase) s)
            else copyuvmLoop old new n (i + pgSize) (some f) d s

/-- `copyuvm`. -/
def copyuvm (old new : ProcIdx) (s : Kernel) : Except Stuck (Option PageDir × Kernel) := do
  let (d, m) ← setupkvm s.phys
  let s := { s with phys := m }
  match d with
  | none => return (none, s)
  | some d =>
    let (done, d, s) ← copyuvmLoop old new (((s.ptable old).sz + pgSize - 1) / pgSize) 0 none d s
    if done then return (some d, s)
    else
      let s := { s with lru := ← lruFree (s.ptable new).pid s.lru }
      let s ← swapFree (s.ptable new).pid s
      return (none, { s with phys := ← freevm d s.phys })

/-- The rest of `fork` once the address space has been copied. -/
def forkCommit (p np : ProcIdx) (d : PageDir) (s : Kernel) : Except Stuck Kernel := do
  let pr := s.ptable p
  let s := s.setProc np { s.ptable np with
    pgdir := some d, sz := pr.sz, parent := some p, eip := pr.eip, esp := pr.esp, forked := false }
  let s := s.setProc p { s.ptable p with forked := true }
  let s := s.setProc np { s.ptable np with swapList := (s.ptable p).swapList }
  let s := { s with swap := ← swapFork (s.ptable p).swapList s.swap }
  return s.setProc np { s.ptable np with name := (s.ptable p).name.take 15, state := .runnable }

/-- `fork`: the pid of the child, or `-1`. -/
def fork (p : ProcIdx) (s : Kernel) : Except Stuck (Int × Kernel) := do
  match allocproc s with
  | (none, s) => return (-1, s)
  | (some np, s) =>
    let (d, s) ← copyuvm p np s
    match d with
    | none =>
      let m ← kfree (← deref (s.ptable np).kstack) s.phys
      let s := s.setProc np { s.ptable np with pgdir := none, kstack := none, state := .unused }
      return (-1, { s with phys := m })
    | some d =>
      let s ← forkCommit p np d s
      return ((s.ptable np).pid, s)

/-! ## Exit and wait -/

/-- `exit` up to the last switch: children go to `initproc` and the process is a zombie. -/
def exit (p : ProcIdx) (s : Kernel) : Except Stuck Kernel :=
  if s.initproc = some p then .error (.panic "init exiting")
  else .ok { s with ptable := fun q =>
    let pr := s.ptable q
    { pr with
      parent := if pr.parent = some p then s.initproc else pr.parent
      state := if q = p then .zombie else pr.state } }

/-- The part of `wait` that frees an exited child. -/
def reap (c : ProcIdx) (s : Kernel) : Except Stuck (Int × Kernel) := do
  let pid := (s.ptable c).pid
  match (s.ptable c).kstack with
  | none => .error (.panic "kfree")
  | some f =>
    let s := { s with phys := ← kfree f s.phys }
    let s := s.setProc c { s.ptable c with kstack := none }
    let s := { s with lru := ← lruFree pid s.lru }
    let s ← swapFree pid s
    match (s.ptable c).pgdir with
    | none => .error (.panic "freevm: no pgdir")
    | some pd =>
      let s := { s with phys := ← freevm pd s.phys }
      return (pid, s.setProc c { s.ptable c with
        pgdir := none, pid := 0, parent := none, name := [], killed := false, state := .unused })

/-- One scan of `wait`: the pid of the child freed, `-1` when there is nothing to wait for, and
null when the process goes to sleep. -/
def wait (p : ProcIdx) (s : Kernel) : Except Stuck (Option Int × Kernel) := do
  match Fin.find? fun q => (s.ptable q).parent = some p ∧ (s.ptable q).state = .zombie with
  | some c =>
    let (pid, s) ← reap c s
    return (some pid, s)
  | none =>
    if (∀ q, (s.ptable q).parent ≠ some p) ∨ (s.ptable p).killed then return (some (-1), s) else return (none, s)

end DemandPaging
