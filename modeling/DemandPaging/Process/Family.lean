/-
Families of processes: in every interleaving of `fork`, `exit`, `wait` and `kill`, every process that has
started has a parent that has neither exited nor been freed, and every process that has exited is
returned by one `wait` at most, one of its parent.
-/
import DemandPaging.Process.Views

namespace DemandPaging.Process

open Function Table

variable {s s₁ s' : Table} {p q np c : ProcIdx} {a : Act}

/-! ## What a step does -/

/-- The view of one entry changes to `v`. -/
structure Shift (s s' : Table) (p : ProcIdx) (v : View) : Prop where
  self : s'.view p = v
  other : ∀ q, q ≠ p → s'.view q = s.view q
  initproc : s'.initproc = s.initproc
  born : s'.born = s.born
  reaped : s'.reaped = s.reaped

theorem Shift.set (s : Table) (p : ProcIdx) (e : Entry) : Shift s (s.set p e) p e.view :=
  ⟨congrArg Entry.view (set_same s p e), fun _ hq => congrArg Entry.view (set_other s e hq), rfl, rfl, rfl⟩

inductive Move (s s' : Table) : Prop
  | quiet (h : Quiet s s')
  | exitStart (p : ProcIdx) (hinit : p ≠ s.initproc) (h : Shift s s' p { s.view p with fills := none, exits := true })
  | alloc (p np : ProcIdx) (s₁ : Table) (hp : (s.view p).phase = .awake) (h₁ : Taken s s₁ np)
      (h : Shift s₁ s' p { s₁.view p with fills := some (np, false), exits := false })
  | forkFail (p np : ProcIdx) (s₁ : Table) (hf : (s.view p).fills = some (np, false))
      (h₁ : Shift s s₁ np { s.view np with phase := .unused }) (h : Shift s₁ s' p { s₁.view p with fills := none, exits := false })
  | forkParent (p np : ProcIdx) (s₁ : Table) (hf : (s.view p).fills = some (np, false))
      (h₁ : Shift s s₁ np { s.view np with parent := some p })
      (h : Shift s₁ s' p { s₁.view p with fills := some (np, true), exits := false })
  | forkDone (p np : ProcIdx) (s₁ : Table) (hf : (s.view p).fills = some (np, true))
      (h₁ : Shift s s₁ np { s.view np with phase := .awake, fills := none, exits := false })
      (h : Shift s₁ s' p { s₁.view p with fills := none, exits := false })
  | exit (p : ProcIdx) (hp : (s.view p).phase = .awake) (hf : (s.view p).fills = none) (hx : (s.view p).exits = true) (h : Exited s s' p)
  | reap (p c : ProcIdx) (pid : Int) (s₁ : Table) (h₁ : Reaped s s₁ p c pid) (h : Quiet s₁ s')

theorem view_running (h : (s.proc p).state = .running) : (s.view p).phase = .awake := by
  rw [Table.view, Entry.view, h]
  rfl

theorem step_move : ∀ {a : Act}, step s a = some s' → Move s s'
  | .schedule p, h => by
    rw [step] at h
    split at h
    · next hp =>
      cases h
      refine .quiet (.set ?_)
      rw [Table.view, Entry.view, Entry.view, hp]
      rfl
    · cases h
  | .yield p, h => by
    rw [step] at h
    split at h
    · next hp =>
      cases h
      refine .quiet (.set ?_)
      rw [Table.view, Entry.view, Entry.view, hp]
      rfl
    · cases h
  | .sleep p n, h => by
    rw [step] at h
    split at h
    · next hp =>
      cases h
      refine .quiet (.set ?_)
      rw [Table.view, Entry.view, Entry.view, hp]
      rfl
    · cases h
  | .wakeup n, h => by
    cases h
    exact .quiet (.wakeup1 s _)
  | .alloc p, h => by
    rw [step] at h
    split at h
    · next hp =>
      split at h
      · next ha =>
        cases h
        rw [allocproc_none ha]
        exact .quiet (.refl s)
      · next np s₁ ha =>
        cases h
        exact .alloc p np s₁ (view_running hp.1) (allocproc_some ha) (.set ..)
    · cases h
  | .forkFail p, h => by
    rw [step] at h
    split at h
    · next np hp hd =>
      cases h
      exact .forkFail p np _ (congrArg fills hd) (.set ..) (.set ..)
    · cases h
  | .forkParent p, h => by
    rw [step] at h
    split at h
    · next np hp hd =>
      cases h
      exact .forkParent p np _ (congrArg fills hd) (.set ..) (.set ..)
    · cases h
  | .forkDone p, h => by
    rw [step] at h
    split at h
    · next np hp hd =>
      cases h
      exact .forkDone p np _ (congrArg fills hd) (.set ..) (.set ..)
    · cases h
  | .exitStart p, h => by
    rw [step] at h
    split at h
    · next hp =>
      cases h
      exact .exitStart p hp.2.2 (.set ..)
    · cases h
  | .exit p, h => by
    rw [step] at h
    split at h
    · next hp =>
      cases h
      exact .exit p (view_running hp.1) (congrArg fills hp.2) (decide_eq_true hp.2) (exit_exited s p)
    · cases h
  | .wait p, h => by
    rw [step] at h
    split at h
    · next hp =>
      generalize hw : s.wait p = w at h
      obtain ⟨e, s₁⟩ := w
      cases h
      have hpc : fills (s.proc p).pc = none ∧ decide ((s.proc p).pc = .exiting) = false := by
        rcases hp.2 with hd | hd <;> rw [hd] <;> exact ⟨rfl, rfl⟩
      have hquiet : ∀ {t : Table} {pc : Pc}, fills (t.proc p).pc = none ∧ decide ((t.proc p).pc = .exiting) = false →
          fills pc = none ∧ decide (pc = .exiting) = false → Quiet t (t.set p { t.proc p with pc := pc }) := by
        intro t pc ht hpc
        refine .set ?_
        rw [Table.view, Entry.view, Entry.view, ht.1, ht.2, hpc.1, hpc.2]
      cases e with
      | reaped c pid =>
        have hr := wait_reaped hw
        have hcp : p ≠ c := by
          rintro rfl
          rw [hr.child.2] at hp
          cases hp.1
        have hview := hr.other p hcp
        exact .reap p c pid s₁ hr (hquiet ⟨(congrArg View.fills hview).trans hpc.1, (congrArg View.exits hview).trans hpc.2⟩ ⟨rfl, rfl⟩)
      | failed =>
        obtain ⟨rfl, -⟩ := wait_failed hw
        exact .quiet (hquiet hpc ⟨rfl, rfl⟩)
      | asleep =>
        obtain rfl := wait_asleep hw
        refine .quiet (.trans (.set ?_) (hquiet ?_ ⟨rfl, rfl⟩))
        · rw [Table.view, Entry.view, Entry.view, hp.1]
          rfl
        · rw [set_same]
          exact hpc
    · cases h
  | .kill n, h => by
    cases h
    exact .quiet (.kill s n)
  | .fault p, h => by
    rw [step] at h
    split at h
    · cases h
      exact .quiet (.set rfl)
    · cases h

/-! ## Parents -/

section Views

variable {v v' : ProcIdx → View} {i : ProcIdx}

def Started (v : View) : Prop := v.phase = .awake ∨ v.phase = .zombie

/-- Every process that has started has a parent that is neither unused nor a zombie, and an entry that is
being filled belongs to one `fork`. -/
structure Family (v : ProcIdx → View) (i : ProcIdx) : Prop where
  init : (v i).phase = .awake
  stays : (v i).exits = false
  parent : ∀ q, Started (v q) → q ≠ i → ∃ r, (v q).parent = some r ∧ (v r).phase = .awake
  filler : ∀ p np b, (v p).fills = some (np, b) → (v p).phase = .awake
  filled : ∀ p np b, (v p).fills = some (np, b) → (v np).phase = .embryo
  once : ∀ p p' np b b', (v p).fills = some (np, b) → (v p').fills = some (np, b') → p = p'
  forked : ∀ p np, (v p).fills = some (np, true) → (v np).parent = some p

/-- Where nobody starts or leaves, or gets another parent, the parents are still there. -/
theorem Family.parent_of (h : Family v i) (v' : ProcIdx → View) (hst : ∀ q, Started (v' q) → Started (v q) ∧ (v' q).parent = (v q).parent)
    (haw : ∀ r, (v r).phase = .awake → (v' r).phase = .awake) (q : ProcIdx) (hq : Started (v' q)) (hne : q ≠ i) :
    ∃ r, (v' q).parent = some r ∧ (v' r).phase = .awake := by
  obtain ⟨hq, hpar⟩ := hst q hq
  obtain ⟨r, hr, hawake⟩ := h.parent q hq hne
  exact ⟨r, by rw [hpar, hr], haw r hawake⟩

theorem Family.ne_of_fills {b : Bool} (h : Family v i) (hf : (v p).fills = some (np, b)) : p ≠ np := by
  rintro rfl
  have hawake := h.filler p p b hf
  rw [h.filled p p b hf] at hawake
  cases hawake

theorem Family.alloc {n : Nat} (h : Family v i) (hp : (v p).phase = .awake) (hfree : (v np).phase = .unused)
    (hnp : v' np = { v np with phase := .embryo, birth := n }) (hself : v' p = { v p with fills := some (np, false), exits := false })
    (hother : ∀ q, q ≠ p → q ≠ np → v' q = v q) : Family v' i := by
  have hne : p ≠ np := by
    rintro rfl
    rw [hfree] at hp
    cases hp
  have hparent := h.parent_of v' (by grind [Started]) (by grind)
  obtain ⟨hinit, hstays, -, hfiller, hfilled, honce, hforked⟩ := h
  constructor
  · grind
  · grind
  · exact hparent
  · grind
  · grind
  · grind
  · grind

theorem Family.exitStart (h : Family v i) (hpi : p ≠ i) (hself : v' p = { v p with fills := none, exits := true })
    (hother : ∀ q, q ≠ p → v' q = v q) : Family v' i := by
  have hparent := h.parent_of v' (by grind [Started]) (by grind)
  obtain ⟨hinit, hstays, -, hfiller, hfilled, honce, hforked⟩ := h
  constructor
  · grind
  · grind
  · exact hparent
  · grind
  · grind
  · grind
  · grind

section Fork

variable {b : Bool} {o : Option (ProcIdx × Bool)} {w : View} (h : Family v i) (hf : (v p).fills = some (np, b)) (hnp : v' np = w)
  (hself : v' p = { v p with fills := o, exits := false }) (hother : ∀ q, q ≠ p → q ≠ np → v' q = v q)

include h hf hnp hself hother

theorem Family.forkFail (hw : w = { v np with phase := .unused }) (ho : o = none) : Family v' i := by
  have hne := h.ne_of_fills hf
  have hembryo := h.filled p np b hf
  have hparent := h.parent_of v' (by grind [Started]) (by grind)
  obtain ⟨hinit, hstays, -, hfiller, hfilled, honce, hforked⟩ := h
  constructor
  · grind
  · grind
  · exact hparent
  · grind
  · grind
  · grind
  · grind

theorem Family.forkParent (hw : w = { v np with parent := some p }) (ho : o = some (np, true)) : Family v' i := by
  have hne := h.ne_of_fills hf
  have hembryo := h.filled p np b hf
  have hparent := h.parent_of v' (by grind [Started]) (by grind)
  obtain ⟨hinit, hstays, -, hfiller, hfilled, honce, hforked⟩ := h
  constructor
  · grind
  · grind
  · exact hparent
  · grind
  · grind
  · grind
  · grind

theorem Family.forkDone (hb : b = true) (hw : w = { v np with phase := .awake, fills := none, exits := false }) (ho : o = none) :
    Family v' i := by
  have hne := h.ne_of_fills hf
  have hembryo := h.filled p np b hf
  have haw : ∀ r, (v r).phase = .awake → (v' r).phase = .awake := by grind
  have hparent : ∀ q, Started (v' q) → q ≠ i → ∃ r, (v' q).parent = some r ∧ (v' r).phase = .awake := by
    intro q hq hqi
    by_cases hqn : q = np
    · -- the parent of the child is the process that forks
      subst hqn hb
      refine ⟨p, ?_, haw p (h.filler p q true hf)⟩
      rw [hnp, hw]
      exact h.forked p q hf
    · have hsame : (v' q).phase = (v q).phase ∧ (v' q).parent = (v q).parent := by grind
      rw [Started, hsame.1] at hq
      obtain ⟨r, hr, hawake⟩ := h.parent q hq hqi
      exact ⟨r, by rw [hsame.2, hr], haw r hawake⟩
  obtain ⟨hinit, hstays, -, hfiller, hfilled, honce, hforked⟩ := h
  constructor
  · grind
  · grind
  · exact hparent
  · grind
  · grind
  · grind
  · grind

end Fork

theorem Family.exit (h : Family v i) (hp : (v p).phase = .awake) (hf : (v p).fills = none) (hx : (v p).exits = true)
    (hself : v' p = { (v p).adopt p i with phase := .zombie }) (hother : ∀ q, q ≠ p → v' q = (v q).adopt p i) : Family v' i := by
  have hpi : p ≠ i := by
    rintro rfl
    rw [h.stays] at hx
    cases hx
  -- the entry that a `fork` fills is not that of a running process
  have hnot : ∀ r np b, (v r).fills = some (np, b) → np ≠ p := by
    rintro r np b hr rfl
    rw [h.filled r np b hr] at hp
    cases hp
  have hphase : ∀ q, q ≠ p → (v' q).phase = (v q).phase := by grind [View.adopt]
  have hpar : ∀ q, (v' q).parent = if (v q).parent = some p then some i else (v q).parent := by grind [View.adopt]
  have hfills : ∀ q, (v' q).fills = (v q).fills ∧ (v' q).exits = (v q).exits := by grind [View.adopt]
  have hinit : (v' i).phase = .awake := by rw [hphase i hpi.symm, h.init]
  have hparent : ∀ q, Started (v' q) → q ≠ i → ∃ r, (v' q).parent = some r ∧ (v' r).phase = .awake := by
    intro q hq hqi
    have hq : Started (v q) := by
      by_cases hqp : q = p
      · rw [hqp]
        exact .inl hp
      · rw [Started, hphase q hqp] at hq
        exact hq
    obtain ⟨r, hr, hawake⟩ := h.parent q hq hqi
    by_cases hrp : r = p
    · subst hrp
      exact ⟨i, by rw [hpar, if_pos hr], hinit⟩
    · refine ⟨r, ?_, by rw [hphase r hrp, hawake]⟩
      rw [hpar, if_neg (by rw [hr]; simpa using hrp), hr]
  obtain ⟨-, hstays, -, hfiller, hfilled, honce, hforked⟩ := h
  constructor
  · exact hinit
  · grind
  · exact hparent
  · grind
  · grind
  · grind
  · grind

theorem Family.reap (h : Family v i) (hz : (v c).phase = .zombie) (hself : v' c = { v c with phase := .unused, parent := none })
    (hother : ∀ q, q ≠ c → v' q = v q) : Family v' i := by
  have hparent := h.parent_of v' (by grind [Started]) (by grind)
  obtain ⟨hinit, hstays, -, hfiller, hfilled, honce, hforked⟩ := h
  constructor
  · grind
  · grind
  · exact hparent
  · grind
  · grind
  · grind
  · grind

/-! ## Numbers -/

/-- The processes in the table have different numbers, of which none has been returned by a `wait`. -/
structure Numbered (v : ProcIdx → View) (n : Nat) (l : List Nat) : Prop where
  lt : ∀ q, (v q).phase ≠ .unused → (v q).birth < n
  fresh : ∀ q, (v q).phase ≠ .unused → (v q).birth ∉ l
  inj : ∀ q r, (v q).phase ≠ .unused → (v r).phase ≠ .unused → (v q).birth = (v r).birth → q = r
  past : ∀ b ∈ l, b < n
  nodup : l.Nodup

variable {n : Nat} {l : List Nat}

theorem Numbered.mono (h : Numbered v n l) (hv : ∀ q, (v' q).phase ≠ .unused → (v q).phase ≠ .unused ∧ (v' q).birth = (v q).birth) :
    Numbered v' n l := by
  obtain ⟨hlt, hfresh, hinj, hpast, hnodup⟩ := h
  constructor
  · grind
  · grind
  · intro q r hq hr hqr
    obtain ⟨hq, hqb⟩ := hv q hq
    obtain ⟨hr, hrb⟩ := hv r hr
    rw [hqb, hrb] at hqr
    exact hinj q r hq hr hqr
  · exact hpast
  · exact hnodup

theorem Numbered.alloc (h : Numbered v n l) (hnp : (v' np).birth = n)
    (hother : ∀ q, q ≠ np → (v' q).phase = (v q).phase ∧ (v' q).birth = (v q).birth) : Numbered v' (n + 1) l := by
  obtain ⟨hlt, hfresh, hinj, hpast, hnodup⟩ := h
  constructor
  · grind
  · grind
  · intro q r hq hr hqr
    by_cases hqn : q = np <;> by_cases hrn : r = np
    · rw [hqn, hrn]
    · have := hlt r
      grind
    · have := hlt q
      grind
    · rw [(hother q hqn).1] at hq
      rw [(hother r hrn).1] at hr
      rw [(hother q hqn).2, (hother r hrn).2] at hqr
      exact hinj q r hq hr hqr
  · grind
  · exact hnodup

theorem Numbered.reap (h : Numbered v n l) (hc : (v c).phase ≠ .unused) (hself : (v' c).phase = .unused)
    (hother : ∀ q, q ≠ c → (v' q).phase = (v q).phase ∧ (v' q).birth = (v q).birth) : Numbered v' n (l ++ [(v c).birth]) := by
  have hne : ∀ q, (v' q).phase ≠ .unused → q ≠ c ∧ (v q).phase ≠ .unused ∧ (v' q).birth = (v q).birth := by grind
  have hv' := h.mono fun q hq => (hne q hq).2
  constructor
  · exact hv'.lt
  · intro q hq
    obtain ⟨hqc, hq', hb⟩ := hne q hq
    rw [List.mem_append, List.mem_singleton, hb]
    rintro (hmem | heq)
    · exact h.fresh q hq' hmem
    · exact hqc (h.inj q c hq' hc heq)
  · exact hv'.inj
  · intro b hb
    rcases List.mem_append.1 hb with hb | hb
    · exact h.past b hb
    · rw [List.mem_singleton.1 hb]
      exact h.lt c hc
  · rw [List.nodup_append]
    refine ⟨h.nodup, List.nodup_singleton _, ?_⟩
    rintro a ha b hb rfl
    rw [List.mem_singleton.1 hb] at ha
    exact h.fresh c hc ha

end Views

/-! ## Runs -/

/-- Families and numbers are in order. -/
structure Ordered (s : Table) : Prop where
  family : Family s.view s.initproc
  numbered : Numbered s.view s.born s.reaped

theorem Ordered.quiet (h : Ordered s) (hq : Quiet s s') : Ordered s' := by
  have hview : s'.view = s.view := funext hq.view
  constructor
  · rw [hview, hq.initproc]
    exact h.family
  · rw [hview, hq.born, hq.reaped]
    exact h.numbered

/-- Two entries change one after the other, the new one and that of its parent. -/
theorem shift_two {w : View} {o : Option (ProcIdx × Bool)} (hne : p ≠ np) (h₁ : Shift s s₁ np w)
    (h : Shift s₁ s' p { s₁.view p with fills := o, exits := false }) :
    s'.view np = w ∧ s'.view p = { s.view p with fills := o, exits := false } ∧ (∀ q, q ≠ p → q ≠ np → s'.view q = s.view q) ∧
      s'.initproc = s.initproc ∧ s'.born = s.born ∧ s'.reaped = s.reaped := by
  refine ⟨?_, ?_, ?_, h.initproc.trans h₁.initproc, h.born.trans h₁.born, h.reaped.trans h₁.reaped⟩
  · rw [h.other np hne.symm, h₁.self]
  · rw [h.self, h₁.other p hne]
  · intro q hqp hqn
    rw [h.other q hqp, h₁.other q hqn]

theorem Ordered.move (h : Ordered s) : Move s s' → Ordered s'
  | .quiet hq => h.quiet hq
  | .exitStart p hinit hs => by
    obtain ⟨hself, hother, hi, hb, hr⟩ := hs
    constructor
    · rw [hi]
      exact h.family.exitStart hinit hself hother
    · rw [hb, hr]
      exact h.numbered.mono (by grind)
  | .alloc p np s₁ hp h₁ hs => by
    have hne : p ≠ np := by
      rintro rfl
      rw [h₁.free] at hp
      cases hp
    have hnp : s'.view np = { s.view np with phase := .embryo, birth := s.born } := by rw [hs.other np hne.symm, h₁.self]
    have hself : s'.view p = { s.view p with fills := some (np, false), exits := false } := by rw [hs.self, h₁.other p hne]
    have hother : ∀ q, q ≠ p → q ≠ np → s'.view q = s.view q := fun q hqp hqn => by rw [hs.other q hqp, h₁.other q hqn]
    constructor
    · rw [hs.initproc, h₁.initproc]
      exact h.family.alloc hp h₁.free hnp hself hother
    · rw [hs.born, h₁.born, hs.reaped, h₁.reaped]
      have hbirth : (s'.view np).birth = s.born := by rw [hnp]
      exact h.numbered.alloc hbirth (by grind)
  | .forkFail p np s₁ hf h₁ hs => by
    obtain ⟨hnp, hself, hother, hi, hb, hr⟩ := shift_two (h.family.ne_of_fills hf) h₁ hs
    have hembryo := h.family.filled p np _ hf
    constructor
    · rw [hi]
      exact h.family.forkFail hf hnp hself hother rfl rfl
    · rw [hb, hr]
      exact h.numbered.mono (by grind)
  | .forkParent p np s₁ hf h₁ hs => by
    obtain ⟨hnp, hself, hother, hi, hb, hr⟩ := shift_two (h.family.ne_of_fills hf) h₁ hs
    constructor
    · rw [hi]
      exact h.family.forkParent hf hnp hself hother rfl rfl
    · rw [hb, hr]
      exact h.numbered.mono (by grind)
  | .forkDone p np s₁ hf h₁ hs => by
    obtain ⟨hnp, hself, hother, hi, hb, hr⟩ := shift_two (h.family.ne_of_fills hf) h₁ hs
    have hembryo := h.family.filled p np _ hf
    constructor
    · rw [hi]
      exact h.family.forkDone hf hnp hself hother rfl rfl rfl
    · rw [hb, hr]
      exact h.numbered.mono (by grind)
  | .exit p hp hf hx he => by
    obtain ⟨hself, hother, hi, hb, hr⟩ := he
    constructor
    · rw [hi]
      exact h.family.exit hp hf hx hself hother
    · rw [hb, hr]
      exact h.numbered.mono (by grind [View.adopt])
  | .reap p c pid s₁ h₁ hq => by
    refine Ordered.quiet ?_ hq
    have hz : (s.view c).phase = .zombie := by
      rw [Table.view, Entry.view, h₁.child.2]
      rfl
    constructor
    · rw [h₁.initproc]
      exact h.family.reap hz h₁.self h₁.other
    · rw [h₁.born, h₁.reaped]
      refine h.numbered.reap (c := c) (by rw [hz]; decide) (by rw [h₁.self]) fun q hqc => ?_
      rw [h₁.other q hqc]
      exact ⟨rfl, rfl⟩

theorem Ordered.run : ∀ {as : List Act} {s s' : Table}, Ordered s → run as s = some s' → Ordered s'
  | [], _, _, h, hr => by
    cases hr
    exact h
  | _ :: _, _, _, h, hr => by
    obtain ⟨s₁, hs, hr⟩ := Option.bind_eq_some_iff.1 hr
    exact Ordered.run (h.move (step_move hs)) hr

theorem boot_ordered : Ordered boot := by
  have hphase : ∀ q, (boot.view q).phase = if q = 0 then .awake else .unused := by
    intro q
    by_cases hq : q = 0
    · rw [hq]
      rfl
    · simp [boot, Entry.view, phase, hq]
  have hfills : ∀ q, (boot.view q).fills = none := fun q => rfl
  have hzero : ∀ q, (boot.view q).phase ≠ .unused → q = 0 := by
    intro q hq
    by_contra hne
    rw [hphase, if_neg hne] at hq
    exact hq rfl
  constructor
  · constructor
    · rfl
    · rfl
    · intro q hq hne
      refine absurd (hzero q ?_) hne
      rcases hq with hq | hq <;> rw [hq] <;> decide
    · intro p np b hp
      cases (hfills p).symm.trans hp
    · intro p np b hp
      cases (hfills p).symm.trans hp
    · intro p p' np b b' hp
      cases (hfills p).symm.trans hp
    · intro p np hp
      cases (hfills p).symm.trans hp
  · constructor
    · intro q _
      exact Nat.one_pos
    · intro q _
      exact List.not_mem_nil
    · intro q r hq hr _
      rw [hzero q hq, hzero r hr]
    · intro b hb
      cases hb
    · exact List.nodup_nil

theorem started_of_state (h : (s.proc q).state = .sleeping ∨ (s.proc q).state = .runnable ∨ (s.proc q).state = .running ∨
    (s.proc q).state = .zombie) : Started (s.view q) := by
  rcases h with h | h | h | h <;> rw [Started, Table.view, Entry.view, h]
  · exact .inl rfl
  · exact .inl rfl
  · exact .inl rfl
  · exact .inr rfl

/-- In every state that any interleaving of the calls leads to: every process that has started has a parent
that is neither free nor a zombie; a `wait` that returns a pid has freed a zombie of that pid, a child of
its caller, that no `wait` has returned before; and it returns `-1` to a caller that is not killed only if
nobody's parent is the caller. -/
theorem reaped_once (as : List Act) (s : Table) (h : run as boot = some s) :
    (∀ q, (s.proc q).state = .sleeping ∨ (s.proc q).state = .runnable ∨ (s.proc q).state = .running ∨ (s.proc q).state = .zombie →
        q ≠ s.initproc → ∃ r, (s.proc q).parent = some r ∧ (s.proc r).state ≠ .unused ∧ (s.proc r).state ≠ .zombie) ∧
      (∀ p c pid s', s.wait p = (.reaped c pid, s') → (s.proc c).parent = some p ∧ (s.proc c).state = .zombie ∧
        pid = (s.proc c).pid ∧ (s.proc c).birth ∉ s.reaped ∧ s'.reaped = s.reaped ++ [(s.proc c).birth]) ∧
      s.reaped.Nodup ∧
      ∀ p s', s.wait p = (.failed, s') → (s.proc p).killed = false → ∀ q, (s.proc q).parent ≠ some p := by
  have ho := boot_ordered.run h
  refine ⟨?_, ?_, ho.numbered.nodup, ?_⟩
  · intro q hq hne
    obtain ⟨r, hr, hawake⟩ := ho.family.parent q (started_of_state hq) hne
    have hawake : phase (s.proc r).state = .awake := hawake
    refine ⟨r, hr, ?_, ?_⟩
    · intro hun
      rw [hun] at hawake
      cases hawake
    · intro hz
      rw [hz] at hawake
      cases hawake
  · intro p c pid s' hw
    have hr := wait_reaped hw
    refine ⟨hr.child.1, hr.child.2, hr.pid, ho.numbered.fresh c ?_, hr.reaped⟩
    rw [Table.view, Entry.view, hr.child.2]
    exact Phase.noConfusion
  · intro p s' hw hk
    obtain ⟨-, hnone | hkilled⟩ := wait_failed hw
    · exact hnone
    · rw [hk] at hkilled
      cases hkilled

/-- The first process forks, the child exits, and the parent finds it. -/
theorem reaped_once_child : ∃ s, run [.schedule 0, .alloc 0, .forkParent 0, .forkDone 0, .schedule 1, .wait 0, .exitStart 1, .exit 1,
    .schedule 0, .wait 0] boot = some s ∧ s.reaped = [1] ∧ s.reaped.Nodup := by
  have hrun : ((run [.schedule 0, .alloc 0, .forkParent 0, .forkDone 0, .schedule 1, .wait 0, .exitStart 1, .exit 1,
      .schedule 0, .wait 0] boot).any fun s => s.reaped = [1]) = true := by decide +kernel
  obtain ⟨s, hs, hreaped⟩ := (Option.any_eq_true ..).1 hrun
  exact ⟨s, hs, of_decide_eq_true hreaped, (reaped_once _ s hs).2.2.1⟩

end DemandPaging.Process
