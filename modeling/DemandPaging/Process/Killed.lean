/-
Who is killed. `kill` takes the first entry with the pid it is given, in whatever state, and nobody resets
`killed` of an entry that is taken anew. So a process is killed by its own pid only, provided that no
`kill` finds an unused entry, and that no `fork` fails whose child has been killed before it started.
-/
import DemandPaging.Process.Views

namespace DemandPaging.Process

open Function Table

variable {s s' : Table} {p q np : ProcIdx} {a : Act}

/-- The step leaves no unused entry marked as killed. -/
def Careful (s : Table) : Act → Prop
  | .kill n => ∀ q, s.lookup n = some q → (s.proc q).state ≠ .unused
  | .forkFail p => ∀ np, (s.proc p).pc = .forking np → (s.proc np).killed = false
  | _ => True

instance (s : Table) : (a : Act) → Decidable (Careful s a)
  | .kill _ => inferInstanceAs (Decidable (∀ _, _))
  | .forkFail _ => inferInstanceAs (Decidable (∀ _, _))
  | .schedule _ | .yield _ | .sleep .. | .wakeup _ | .alloc _ | .forkParent _ | .forkDone _ | .exitStart _ | .exit _ | .wait _ | .fault _ =>
    inferInstanceAs (Decidable True)

/-- Only a process that is there, and that has been hit, is killed. -/
def Marked (s : Table) : Prop := ∀ q, (s.proc q).killed = true → (s.proc q).state ≠ .unused ∧ (s.proc q).hit = true

/-- An entry that changes keeps its marks if it is still in use, or has none. -/
theorem Marked.set {e : Entry} (h : Marked s) (he : e.killed = true → e.state ≠ .unused ∧ e.hit = true) : Marked (s.set p e) := by
  intro q hq
  by_cases hqp : q = p
  · subst hqp
    rw [show (s.set q e).proc q = e from update_self ..] at hq ⊢
    exact he hq
  · rw [show (s.set p e).proc q = s.proc q from update_of_ne hqp ..] at hq ⊢
    exact h q hq

theorem Marked.wakeup1 (h : Marked s) (c : Chan) : Marked (s.wakeup1 c) := by
  intro q hq
  have hproc : (s.wakeup1 c).proc q = if (s.proc q).state = .sleeping ∧ (s.proc q).chan = c then
    { s.proc q with state := .runnable } else s.proc q := rfl
  rw [hproc] at hq ⊢
  split at hq
  · next hs =>
    rw [if_pos hs]
    exact ⟨ProcState.noConfusion, (h q hq).2⟩
  · next hs =>
    rw [if_neg hs]
    exact h q hq

theorem Marked.reparent : ∀ {qs : List ProcIdx} {s : Table}, Marked s → Marked (reparent p qs s)
  | [], _, h => h
  | r :: qs, s, h => by
    rw [Table.reparent]
    split
    · have hset : Marked (s.set r { s.proc r with parent := some s.initproc }) := h.set (h r)
      dsimp only
      split
      · exact Marked.reparent (hset.wakeup1 _)
      · exact Marked.reparent hset
    · exact Marked.reparent h

theorem Marked.exit (h : Marked s) : Marked (s.exit p) := by
  have hloop : Marked (Table.reparent p (List.finRange nProc) (s.wakeup1 (chanOf (s.proc p).parent))) :=
    Marked.reparent (h.wakeup1 _)
  refine hloop.set fun hk => ⟨ProcState.noConfusion, (hloop p hk).2⟩

theorem Marked.allocproc (h : Marked s) (ha : s.allocproc = (some np, s')) : Marked s' := by
  unfold Table.allocproc at ha
  split at ha
  · cases ha
  · next np' hfind =>
    cases ha
    have hstate : (s.proc np).state = .unused := by simpa using Fin.eq_true_of_find?_eq_some hfind
    -- the entry comes without a mark, though nobody has taken it off
    exact h.set fun hk => absurd hstate (h np hk).1

theorem Marked.wait (h : Marked s) : Marked (s.wait p).2 := by
  unfold Table.wait
  split
  · exact h.set fun hk => Bool.noConfusion hk
  · split
    · exact h
    · exact h.set fun hk => ⟨ProcState.noConfusion, (h p hk).2⟩

theorem Marked.kill (h : Marked s) {n : Int} (hc : Careful s (.kill n)) : Marked (s.kill n).2 := by
  unfold Table.kill
  split
  · next q hq =>
    have hpid : (s.proc q).pid = n := by
      unfold lookup at hq
      simpa using Fin.eq_true_of_find?_eq_some hq
    have hstrike : Marked (s.strike n) := by
      intro r hr
      obtain ⟨hlive, hhit⟩ := h r hr
      refine ⟨hlive, ?_⟩
      show ((s.proc r).hit || _) = true
      rw [hhit, Bool.true_or]
    refine hstrike.set fun _ => ⟨?_, ?_⟩
    · show (if (s.proc q).state = .sleeping then ProcState.runnable else (s.proc q).state) ≠ .unused
      split
      · exact ProcState.noConfusion
      · exact hc q hq
    · show ((s.proc q).hit || (s.proc q).pid == n) = true
      rw [hpid, beq_self_eq_true, Bool.or_true]
  · exact h

/-- One step. -/
theorem Marked.step (h : Marked s) : ∀ {a : Act}, Careful s a → step s a = some s' → Marked s'
  | .schedule p, _, hs => by
    rw [Process.step] at hs
    split at hs
    · cases hs
      exact h.set fun hk => ⟨ProcState.noConfusion, (h p hk).2⟩
    · cases hs
  | .yield p, _, hs => by
    rw [Process.step] at hs
    split at hs
    · cases hs
      exact h.set fun hk => ⟨ProcState.noConfusion, (h p hk).2⟩
    · cases hs
  | .sleep p n, _, hs => by
    rw [Process.step] at hs
    split at hs
    · cases hs
      exact h.set fun hk => ⟨ProcState.noConfusion, (h p hk).2⟩
    · cases hs
  | .wakeup n, _, hs => by
    cases hs
    exact h.wakeup1 _
  | .alloc p, _, hs => by
    rw [Process.step] at hs
    split at hs
    · split at hs
      · next s₁ ha =>
        cases hs
        rw [allocproc_none ha]
        exact h
      · next np s₁ ha =>
        cases hs
        have h₁ := h.allocproc ha
        exact h₁.set (h₁ p)
    · cases hs
  | .forkFail p, hc, hs => by
    rw [Process.step] at hs
    split at hs
    · next np _ hpc =>
      cases hs
      have h₁ : Marked (s.set np { s.proc np with state := .unused }) := h.set fun hk => by
        cases (hc np hpc).symm.trans hk
      exact h₁.set (h₁ p)
    · cases hs
  | .forkParent p, _, hs => by
    rw [Process.step] at hs
    split at hs
    · next np _ _ =>
      cases hs
      have h₁ : Marked (s.set np { s.proc np with parent := some p }) := h.set (h np)
      exact h₁.set (h₁ p)
    · cases hs
  | .forkDone p, _, hs => by
    rw [Process.step] at hs
    split at hs
    · next np _ _ =>
      cases hs
      have h₁ : Marked (s.set np { s.proc np with state := .runnable, pc := .user }) :=
        h.set fun hk => ⟨ProcState.noConfusion, (h np hk).2⟩
      exact h₁.set (h₁ p)
    · cases hs
  | .exitStart p, _, hs => by
    rw [Process.step] at hs
    split at hs
    · cases hs
      exact h.set (h p)
    · cases hs
  | .exit p, _, hs => by
    rw [Process.step] at hs
    split at hs
    · cases hs
      exact h.exit
    · cases hs
  | .wait p, _, hs => by
    rw [Process.step] at hs
    split at hs
    · have hw := h.wait (p := p)
      generalize s.wait p = w at hs hw
      obtain ⟨e, s₁⟩ := w
      cases hs
      exact Marked.set hw (hw p)
    · cases hs
  | .kill n, hc, hs => by
    cases hs
    exact h.kill hc
  | .fault p, _, hs => by
    rw [Process.step] at hs
    split at hs
    · next hp =>
      cases hs
      refine h.set fun _ => ⟨?_, rfl⟩
      show (s.proc p).state ≠ .unused
      rw [hp]
      exact ProcState.noConfusion
    · cases hs

theorem boot_marked : Marked boot := by
  intro q hq
  cases hq

/-- A run of careful steps. -/
inductive Reaches (s : Table) : Table → Prop
  | refl : Reaches s s
  | tail {t s' : Table} {a : Act} : Reaches s t → Careful t a → step t a = some s' → Reaches s s'

theorem reaches_of_run : ∀ {as : List Act} {t : Table}, Reaches s t →
    (as.foldlM (fun t a => if Careful t a then step t a else none) t) = some s' → Reaches s s'
  | [], _, h, hr => by
    cases hr
    exact h
  | a :: as, t, h, hr => by
    rw [List.foldlM_cons] at hr
    obtain ⟨t', ht', hr⟩ := Option.bind_eq_some_iff.1 hr
    split at ht'
    · next hc => exact reaches_of_run (h.tail hc ht') hr
    · cases ht'

/-- In every run in which each step is careful, a process that is marked as killed has been hit since its
entry was taken for it, and `kill` succeeds only if there is a process with the pid. -/
theorem killed_of_hit (s : Table) (h : Reaches boot s) :
    (∀ q, (s.proc q).state ≠ .unused → (s.proc q).killed = true → (s.proc q).hit = true) ∧
      ∀ n, Careful s (.kill n) → (s.kill n).1 = 0 → ∃ q, (s.proc q).state ≠ .unused ∧ (s.proc q).pid = n := by
  have hm : Marked s := by
    induction h with
    | refl => exact boot_marked
    | tail _ hc hs ih => exact ih.step hc hs
  constructor
  · intro q _ hk
    exact (hm q hk).2
  · intro n hc hret
    unfold Table.kill at hret
    split at hret
    · next q hq =>
      refine ⟨q, hc q hq, ?_⟩
      unfold lookup at hq
      simpa using Fin.eq_true_of_find?_eq_some hq
    · cases hret

/-- A child that its parent kills. -/
theorem killed_of_hit_child : ∃ s, Reaches boot s ∧ (s.proc 1).killed = true ∧ (s.proc 1).hit = true := by
  have hrun : (([.schedule 0, .alloc 0, .forkParent 0, .forkDone 0, .kill 2] : List Act).foldlM
      (fun t a => if Careful t a then step t a else none) boot).any
      (fun s => (s.proc 1).killed = true ∧ (s.proc 1).state = .runnable) = true := by decide +kernel
  obtain ⟨s, hs, hk⟩ := (Option.any_eq_true ..).1 hrun
  obtain ⟨hk, hstate⟩ := of_decide_eq_true hk
  have hreach := reaches_of_run .refl hs
  refine ⟨s, hreach, hk, (killed_of_hit s hreach).1 1 ?_ hk⟩
  rw [hstate]
  exact ProcState.noConfusion

/-- `kill(0)` succeeds though no process has the pid, and the next child is killed before it has run. -/
theorem killed_without_hit : (boot.kill 0).1 = 0 ∧ (∀ q, (boot.proc q).state ≠ .unused → (boot.proc q).pid ≠ 0) ∧
    ∃ s, run [.schedule 0, .kill 0, .alloc 0, .forkParent 0, .forkDone 0] boot = some s ∧
      (s.proc 1).state = .runnable ∧ (s.proc 1).killed = true ∧ (s.proc 1).hit = false := by
  have hrun : (run [.schedule 0, .kill 0, .alloc 0, .forkParent 0, .forkDone 0] boot).any
      (fun s => (s.proc 1).state = .runnable ∧ (s.proc 1).killed = true ∧ (s.proc 1).hit = false) = true := by decide +kernel
  obtain ⟨s, hs, hk⟩ := (Option.any_eq_true ..).1 hrun
  exact ⟨by decide +kernel, by decide +kernel, s, hs, of_decide_eq_true hk⟩

end DemandPaging.Process
