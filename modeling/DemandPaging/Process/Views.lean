/-
What the calls on the process table do to families of processes. Of an entry only a part matters: whether
it is free, new, in use or exited, its parent, which entry its `fork` is filling, and the number of its
process. Most steps leave this view of every entry as it is; the others are described by it.
-/
import DemandPaging.Process.Table

namespace DemandPaging.Process

open Function Table

inductive Phase
  | unused
  | embryo
  | awake
  | zombie
  deriving DecidableEq

def phase : ProcState → Phase
  | .unused => .unused
  | .embryo => .embryo
  | .sleeping | .runnable | .running => .awake
  | .zombie => .zombie

/-- The entry that a `fork` fills, and whether it has set the parent there. -/
def fills : Pc → Option (ProcIdx × Bool)
  | .forking np => some (np, false)
  | .forked np => some (np, true)
  | .user | .exiting | .waiting => none

structure View where
  phase : Phase
  parent : Option ProcIdx
  fills : Option (ProcIdx × Bool)
  exits : Bool
  birth : Nat

def Entry.view (e : Entry) : View := ⟨phase e.state, e.parent, fills e.pc, e.pc = .exiting, e.birth⟩

variable {s s' : Table} {p q : ProcIdx}

abbrev Table.view (s : Table) (q : ProcIdx) : View := (s.proc q).view

/-- Nobody's view changes. -/
structure Quiet (s s' : Table) : Prop where
  view : ∀ q, s'.view q = s.view q
  initproc : s'.initproc = s.initproc
  born : s'.born = s.born
  reaped : s'.reaped = s.reaped

theorem set_same (s : Table) (p : ProcIdx) (e : Entry) : (s.set p e).proc p = e := update_self ..

theorem set_other (s : Table) (e : Entry) (h : q ≠ p) : (s.set p e).proc q = s.proc q := update_of_ne h ..

theorem Quiet.set {e : Entry} (h : e.view = s.view p) : Quiet s (s.set p e) := by
  refine ⟨fun q => ?_, rfl, rfl, rfl⟩
  by_cases hq : q = p
  · subst hq
    rw [Table.view, set_same, h]
  · rw [Table.view, set_other s e hq]

theorem Quiet.trans {s'' : Table} (h : Quiet s s') (h' : Quiet s' s'') : Quiet s s'' :=
  ⟨fun q => (h'.view q).trans (h.view q), h'.initproc.trans h.initproc, h'.born.trans h.born, h'.reaped.trans h.reaped⟩

theorem Quiet.refl (s : Table) : Quiet s s := ⟨fun _ => rfl, rfl, rfl, rfl⟩

/-! ## The calls -/

theorem Quiet.wakeup1 (s : Table) (c : Chan) : Quiet s (s.wakeup1 c) := by
  refine ⟨fun q => ?_, rfl, rfl, rfl⟩
  show Entry.view (if _ then _ else _) = _
  split
  · next h =>
    rw [Table.view, Entry.view, Entry.view, h.1]
    rfl
  · rfl

theorem Quiet.kill (s : Table) (n : Int) : Quiet s (s.kill n).2 := by
  unfold Table.kill
  split
  · have hstrike : Quiet s (s.strike n) := ⟨fun _ => rfl, rfl, rfl, rfl⟩
    refine hstrike.trans (.set ?_)
    unfold Table.view Entry.view
    dsimp only
    split
    · next h => rw [h]; rfl
    · rfl
  · exact .refl s

/-- The entry that `allocproc` takes. -/
structure Taken (s s' : Table) (np : ProcIdx) : Prop where
  free : (s.view np).phase = .unused
  self : s'.view np = { s.view np with phase := .embryo, birth := s.born }
  other : ∀ q, q ≠ np → s'.view q = s.view q
  initproc : s'.initproc = s.initproc
  born : s'.born = s.born + 1
  reaped : s'.reaped = s.reaped

theorem allocproc_some {np : ProcIdx} (h : s.allocproc = (some np, s')) : Taken s s' np := by
  unfold Table.allocproc at h
  split at h
  · cases h
  · next np' hfind =>
    cases h
    have hstate : (s.proc np).state = .unused := by simpa using Fin.eq_true_of_find?_eq_some hfind
    refine ⟨?_, ?_, fun q hq => ?_, rfl, rfl, rfl⟩
    · rw [Table.view, Entry.view, hstate]
      rfl
    · exact congrArg Entry.view (set_same s np _)
    · exact congrArg Entry.view (set_other s _ hq)

theorem allocproc_none (h : s.allocproc = (none, s')) : s' = s := by
  unfold Table.allocproc at h
  split at h
  · cases h
    rfl
  · cases h

/-- The children of `p` become those of `initproc`. -/
def View.adopt (v : View) (p i : ProcIdx) : View := if v.parent = some p then { v with parent := some i } else v

theorem View.adopt_adopt {v : View} {p i : ProcIdx} : (v.adopt p i).adopt p i = v.adopt p i := by
  unfold adopt
  split
  · dsimp only
    split <;> rfl
  · rfl

theorem reparent_view : ∀ (qs : List ProcIdx) (s : Table),
    (reparent p qs s).initproc = s.initproc ∧ (reparent p qs s).born = s.born ∧ (reparent p qs s).reaped = s.reaped ∧
      ∀ q, (reparent p qs s).view q = if q ∈ qs then (s.view q).adopt p s.initproc else s.view q
  | [], s => ⟨rfl, rfl, rfl, fun q => (if_neg List.not_mem_nil).symm⟩
  | r :: qs, s => by
    rw [reparent]
    split
    · next hr =>
      dsimp only
      generalize hset : s.set r { s.proc r with parent := some s.initproc } = s₁
      have hview₁ : ∀ q, s₁.view q = if q = r then (s.view q).adopt p s.initproc else s.view q := by
        intro q
        rw [← hset]
        split
        · next hq =>
          subst hq
          have hadopt : (s.view q).adopt p s.initproc = { s.view q with parent := some s.initproc } := if_pos hr
          rw [hadopt, Table.view, set_same]
          rfl
        · next hq => rw [Table.view, set_other s _ hq]
      have hquiet : Quiet s₁ (if (s₁.proc r).state = .zombie then s₁.wakeup1 (.proc s₁.initproc) else s₁) := by
        split
        · exact .wakeup1 s₁ _
        · exact .refl s₁
      generalize (if (s₁.proc r).state = .zombie then s₁.wakeup1 (.proc s₁.initproc) else s₁) = s₂ at hquiet
      obtain ⟨hinit, hborn, hreaped, hview⟩ := reparent_view qs s₂
      have hinit₁ : s₁.initproc = s.initproc := by rw [← hset]; rfl
      refine ⟨hinit.trans (hquiet.initproc.trans hinit₁), ?_, ?_, fun q => ?_⟩
      · rw [hborn, hquiet.born, ← hset]
        rfl
      · rw [hreaped, hquiet.reaped, ← hset]
        rfl
      · rw [hview, hquiet.view, hview₁, hquiet.initproc, hinit₁]
        by_cases hq : q = r
        · subst hq
          simp only [↓reduceIte, List.mem_cons, true_or, View.adopt_adopt, ite_self]
        · simp [hq]
    · next hr =>
      obtain ⟨hinit, hborn, hreaped, hview⟩ := reparent_view qs s
      refine ⟨hinit, hborn, hreaped, fun q => ?_⟩
      rw [hview]
      by_cases hq : q = r
      · subst hq
        have : (s.view q).adopt p s.initproc = s.view q := if_neg hr
        simp [this]
      · simp [hq]

/-- What `exit` leaves. -/
structure Exited (s s' : Table) (p : ProcIdx) : Prop where
  self : s'.view p = { (s.view p).adopt p s.initproc with phase := .zombie }
  other : ∀ q, q ≠ p → s'.view q = (s.view q).adopt p s.initproc
  initproc : s'.initproc = s.initproc
  born : s'.born = s.born
  reaped : s'.reaped = s.reaped

theorem exit_exited (s : Table) (p : ProcIdx) : Exited s (s.exit p) p := by
  have hquiet := Quiet.wakeup1 s (chanOf (s.proc p).parent)
  obtain ⟨hinit, hborn, hreaped, hview⟩ := reparent_view (p := p) (List.finRange nProc) (s.wakeup1 (chanOf (s.proc p).parent))
  have hview' : ∀ q, (reparent p (List.finRange nProc) (s.wakeup1 (chanOf (s.proc p).parent))).view q = (s.view q).adopt p s.initproc := by
    intro q
    rw [hview, if_pos (List.mem_finRange q), hquiet.view, hquiet.initproc]
  refine ⟨?_, fun q hq => ?_, hinit.trans hquiet.initproc, hborn.trans hquiet.born, hreaped.trans hquiet.reaped⟩
  · rw [← hview' p]
    exact congrArg Entry.view (set_same _ p _)
  · rw [← hview' q]
    exact congrArg Entry.view (set_other _ _ hq)

/-- The child that `wait` has freed. -/
structure Reaped (s s' : Table) (p c : ProcIdx) (pid : Int) : Prop where
  child : (s.proc c).parent = some p ∧ (s.proc c).state = .zombie
  pid : pid = (s.proc c).pid
  self : s'.view c = { s.view c with phase := .unused, parent := none }
  other : ∀ q, q ≠ c → s'.view q = s.view q
  initproc : s'.initproc = s.initproc
  born : s'.born = s.born
  reaped : s'.reaped = s.reaped ++ [(s.proc c).birth]

theorem wait_reaped {c : ProcIdx} {pid : Int} (h : s.wait p = (.reaped c pid, s')) : Reaped s s' p c pid := by
  unfold Table.wait at h
  split at h
  · next c' hfind =>
    cases h
    have hchild : (s.proc c).parent = some p ∧ (s.proc c).state = .zombie := by simpa using Fin.eq_true_of_find?_eq_some hfind
    exact ⟨hchild, rfl, congrArg Entry.view (set_same s c _), fun q hq => congrArg Entry.view (set_other s _ hq), rfl, rfl, rfl⟩
  · split at h <;> cases h

theorem wait_failed (h : s.wait p = (.failed, s')) :
    s' = s ∧ ((∀ q, (s.proc q).parent ≠ some p) ∨ (s.proc p).killed = true) := by
  unfold Table.wait at h
  split at h
  · cases h
  · split at h
    · next hnone =>
      cases h
      exact ⟨rfl, hnone⟩
    · cases h

theorem wait_asleep (h : s.wait p = (.asleep, s')) : s' = s.set p { s.proc p with chan := .proc p, state := .sleeping } := by
  unfold Table.wait at h
  split at h
  · cases h
  · split at h
    · cases h
    · cases h
      rfl

end DemandPaging.Process
