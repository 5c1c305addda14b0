/-
Threads that share data under a lock and wait, holding it, for conditions on the data. A thread whose
condition fails takes the lock of the table of threads before it gives up the lock of the data, and only
then marks itself asleep on a channel. A thread whose change may make a condition true wakes its channel,
under both locks. No wakeup is lost, whatever the order of the steps.
-/
import Mathlib.Tactic

open Function

/-- What a thread in state `L` waits for and on which channel, and the actions `A` of a thread that has the
lock, on its own state and the data, with the channel to wake. -/
structure Monitor (ι L σ κ A : Type) where
  ready : L → σ → Bool
  chan : L → κ
  act : A → ι → L → σ → Option (Option κ × L × σ)

namespace Monitor

variable {ι L σ κ A : Type}

/-- Where a thread is: before `acquire`, with the lock, in `wakeup`, or in `sleep`. -/
inductive Phase (κ : Type)
  | out
  | inside
  /-- About to take the lock of the table, to wake the channel. -/
  | owing (c : κ)
  | waking (c : κ)
  /-- About to take the lock of the table, to go to sleep. -/
  | entering
  | parking
  /-- Has given up the lock of the data and is not asleep yet. -/
  | parked
  | asleep
  | runnable
  | resumed
  deriving DecidableEq

/-- The phases with the lock of the data. -/
def Phase.locked : Phase κ → Bool
  | .inside | .owing _ | .waking _ | .entering | .parking => true
  | _ => false

/-- The phases with the lock of the table. -/
def Phase.tabled : Phase κ → Bool
  | .waking _ | .parking | .parked | .resumed => true
  | _ => false

/-- The data, the threads and the holders of the two locks. -/
structure Sys (ι L σ κ : Type) where
  data : σ
  own : ι → L
  phase : ι → Phase κ
  lk : Option ι
  table : Option ι

inductive Event (ι A : Type)
  | acquire (i : ι)
  | act (i : ι) (a : A)
  | release (i : ι)
  /-- The test of the condition fails. -/
  | sleep (i : ι)
  /-- The next step of `wakeup` or `sleep`. -/
  | next (i : ι)
  /-- A sleeper is made runnable for another reason. -/
  | kill (i : ι)

def start (d : σ) (l : L) : Sys ι L σ κ := ⟨d, fun _ => l, fun _ => .out, none, none⟩

/-! ## The invariant -/

/-- Only a waker can help the thread. -/
def Sys.Waits (s : Sys ι L σ κ) (i : ι) : Prop := s.phase i = .parked ∨ s.phase i = .asleep

/-- The thread is to wake the channel. -/
def Sys.Owes (s : Sys ι L σ κ) (i : ι) (c : κ) : Prop := s.phase i = .owing c ∨ s.phase i = .waking c

structure Sound (M : Monitor ι L σ κ A) (P : (ι → L) → σ → Prop) (s : Sys ι L σ κ) : Prop where
  data : P s.own s.data
  lk : ∀ i, s.lk = some i ↔ (s.phase i).locked
  table : ∀ i, s.table = some i ↔ (s.phase i).tabled
  enters : ∀ i, s.phase i = .entering ∨ s.phase i = .parking → M.ready (s.own i) s.data = false
  waits : ∀ i, s.Waits i → M.ready (s.own i) s.data → ∃ j, s.Owes j (M.chan (s.own i))

variable {M : Monitor ι L σ κ A} {P : (ι → L) → σ → Prop} {s s' : Sys ι L σ κ} {i j : ι}

theorem start_sound {d : σ} {l : L} (h : P (fun _ => l) d) : Sound M P (start d l) := by
  constructor <;> simp [start, Phase.locked, Phase.tabled, Sys.Waits, h]

theorem Sys.Owes.ne {c : κ} (h : s.Owes j c) (hw : s.Waits i) : j ≠ i := by
  rintro rfl
  rcases h with h | h <;> rcases hw with hw | hw <;> rw [h] at hw <;> cases hw

/-- While a thread is in its section, no condition that is waited for holds. -/
theorem Sound.not_ready (h : Sound M P s) (hi : s.phase i = .inside) (hw : s.Waits j) : M.ready (s.own j) s.data = false := by
  by_contra hr
  obtain ⟨k, hk⟩ := h.waits j hw (by simpa using hr)
  have hlk : s.lk = some k := (h.lk k).2 (by rcases hk with hk | hk <;> rw [hk] <;> rfl)
  -- two threads would have the lock
  rw [(h.lk i).2 (by rw [hi]; rfl)] at hlk
  cases hlk
  rcases hk with hk | hk <;> rw [hi] at hk <;> cases hk

/-! ## Steps -/

variable [DecidableEq ι] [DecidableEq κ]

/-- The thread goes to a phase, and has the locks of that phase. -/
def Sys.go (s : Sys ι L σ κ) (i : ι) (p : Phase κ) : Sys ι L σ κ :=
  { s with
    phase := update s.phase i p
    lk := if p.locked then some i else if (s.phase i).locked then none else s.lk
    table := if p.tabled then some i else if (s.phase i).tabled then none else s.table }

/-- Every thread asleep on the channel becomes runnable. -/
def Sys.wake (M : Monitor ι L σ κ A) (c : κ) (s : Sys ι L σ κ) : Sys ι L σ κ :=
  { s with phase := fun i => if s.phase i = .asleep ∧ M.chan (s.own i) = c then .runnable else s.phase i }

/-- One atomic step; null where the thread cannot make it. -/
def step (M : Monitor ι L σ κ A) (s : Sys ι L σ κ) : Event ι A → Option (Sys ι L σ κ)
  | .acquire i =>
    match s.phase i, s.lk with
    | .out, none => some (s.go i .inside)
    | _, _ => none
  | .act i a =>
    match s.phase i, M.act a i (s.own i) s.data with
    | .inside, some (c, l, d) => some { s.go i (c.elim .inside .owing) with data := d, own := update s.own i l }
    | _, _ => none
  | .release i =>
    match s.phase i with
    | .inside => some (s.go i .out)
    | _ => none
  | .sleep i =>
    match s.phase i, M.ready (s.own i) s.data with
    | .inside, false => some (s.go i .entering)
    | _, _ => none
  | .next i =>
    match s.phase i, s.table with
    | .owing c, none => some (s.go i (.waking c))
    | .waking c, _ => some ((s.wake M c).go i .inside)
    | .entering, none => some (s.go i .parking)
    | .parking, _ => some (s.go i .parked)
    | .parked, _ => some (s.go i .asleep)
    | .runnable, none => some (s.go i .resumed)
    | .resumed, _ => some (s.go i .out)
    | _, _ => none
  | .kill i =>
    match s.phase i, s.table with
    | .asleep, none => some (s.go i .runnable)
    | _, _ => none

def run (M : Monitor ι L σ κ A) (es : List (Event ι A)) (s : Sys ι L σ κ) : Option (Sys ι L σ κ) := es.foldlM (step M) s

/-- Every action keeps `P`, and is to wake the channel of a condition that it makes true. -/
def Lawful (M : Monitor ι L σ κ A) (P : (ι → L) → σ → Prop) : Prop :=
  ∀ {a i own c l d d'}, P own d → M.act a i (own i) d = some (c, l, d') →
    P (update own i l) d' ∧ ∀ m, M.ready m d = false → M.ready m d' → c = some (M.chan m)

/-- The actor has the lock, so that nobody else is about to sleep, and it owes a wakeup to those whose condition it makes true. -/
theorem Sound.act (hM : M.Lawful P) (h : Sound M P s) {a : A} (hs : M.step s (.act i a) = some s') : Sound M P s' := by
  simp only [Monitor.step] at hs
  split at hs <;> cases hs
  rename_i c l d hi ha
  obtain ⟨hP, hwakes⟩ := hM h.data ha
  have hlk := h.lk
  have htable := h.table
  refine ⟨hP, ?_, ?_, ?_, fun j hj hr => ?_⟩
  -- the locks stay where they are
  iterate 3
    cases c <;> simp only [Sys.go, Option.elim] <;> grind [Phase.locked, Phase.tabled]
  by_cases hji : j = i
  · cases c <;> simp [Sys.Waits, Sys.go, hji] at hj
  · have hw : s.Waits j := by simpa [Sys.Waits, Sys.go, hji] using hj
    have hc := hwakes _ (h.not_ready hi hw) (by simpa [hji] using hr)
    exact ⟨i, .inl (by simp [Sys.go, hc, hji])⟩

theorem Sound.step (hM : M.Lawful P) (h : Sound M P s) (e : Event ι A) (hs : M.step s e = some s') : Sound M P s' := by
  cases e with
  | act i a => exact h.act hM hs
  | acquire i | release i | sleep i | next i | kill i =>
    have hlk := h.lk
    have htable := h.table
    have henters := h.enters
    simp only [Monitor.step] at hs
    split at hs <;> cases hs
    all_goals
      simp only [Sys.go, Sys.wake]
      refine ⟨h.data, ?_, ?_, ?_, fun j hj hr => ?_⟩
      iterate 3 grind [Phase.locked, Phase.tabled]
      -- whoever waits for a condition that holds has waited before, and is owed a wakeup still
      have hw : s.Waits j := by grind [Sys.Waits]
      obtain ⟨k, hk⟩ := h.waits j hw hr
      exact ⟨k, by grind [Sys.Waits, Sys.Owes, Phase.tabled]⟩

theorem Sound.run (hM : M.Lawful P) : ∀ (es : List (Event ι A)) {s s' : Sys ι L σ κ}, Sound M P s → M.run es s = some s' →
    Sound M P s'
  | [], s, s', h, hr => by cases hr; exact h
  | e :: es, s, s', h, hr => by
    obtain ⟨s₁, hs, hr⟩ := Option.bind_eq_some_iff.1 hr
    exact Sound.run hM es (h.step hM e hs) hr

end Monitor
