/-
Waiting with `sleep` and `wakeup` of `proc.c`, step by step: sleep locks, and the operations that wait for
room in the log. A process that sleeps is owed a wakeup, or another one is in a call that ends with one.
-/
import DemandPaging.FileSys.Log
import DemandPaging.Lib.Monitor

namespace DemandPaging

open Function Monitor

/-! ## Sleep locks -/

/-- `struct sleeplock`, without its spin lock. -/
structure Sleeplock where
  locked : Bool
  pid : Nat

inductive LockAct
  | acquiresleep
  | releasesleep

/-- `acquiresleep` after its loop and `releasesleep`, of the process with pid `p`. A process knows whether it
has the lock: it does not ask for it then, and releases it only then. -/
def sleeplock : Monitor Nat Bool Sleeplock Unit LockAct where
  ready has lk := has || !lk.locked
  chan _ := ()
  act
    | .acquiresleep, p, false, lk => if lk.locked then none else some (none, true, ⟨true, p⟩)
    | .releasesleep, _, true, _ => some (some (), false, ⟨false, 0⟩)
    | _, _, _, _ => none

def holdingsleep (p : Nat) (lk : Sleeplock) : Bool := lk.locked && lk.pid == p

theorem sleeplock_lawful : sleeplock.Lawful fun has lk => ∀ p, holdingsleep p lk = has p := by
  intro a p has c l lk lk' hP ha
  simp only [sleeplock, holdingsleep] at hP ha ⊢
  cases a <;> cases hp : has p <;> simp only [hp] at ha
  case acquiresleep.false =>
    split at ha <;> cases ha
    grind
  case releasesleep.true =>
    cases ha
    grind
  all_goals cases ha

/-- At most one process has the lock, the one that `holdingsleep` says, and nobody sleeps for a lock that is free. -/
theorem sleeplock_safe {es : List (Monitor.Event Nat LockAct)} {s : Sys Nat Bool Sleeplock Unit}
    (hr : sleeplock.run es (start ⟨false, 0⟩ false) = some s) :
    (∀ p, holdingsleep p s.data = s.own p) ∧ (∀ p q, s.own p = true → s.own q = true → p = q) ∧
      ∀ p, s.Waits p → ∃ q ≠ p, s.own q = true ∨ s.Owes q () := by
  have h := Sound.run sleeplock_lawful es (start_sound (by simp [holdingsleep])) hr
  refine ⟨h.data, fun p q hp hq => ?_, fun p hp => ?_⟩
  · rw [← h.data] at hp hq
    simp only [holdingsleep, Bool.and_eq_true, beq_iff_eq] at hp hq
    exact hp.2.symm.trans hq.2
  · by_cases hready : sleeplock.ready (s.own p) s.data
    · obtain ⟨q, hq⟩ := h.waits p hp hready
      exact ⟨q, hq.ne hp, .inr hq⟩
    · obtain ⟨hno, hlk⟩ : s.own p = false ∧ s.data.locked = true := by simpa [sleeplock] using hready
      have hq : s.own s.data.pid = true := by simp [← h.data, holdingsleep, hlk]
      exact ⟨s.data.pid, by rintro hqp; simp [hqp, hno] at hq, .inl hq⟩

/-- The second process goes to sleep for the lock that the first one has. -/
def contendedLock : List (Monitor.Event Nat LockAct) :=
  [.acquire 1, .act 1 .acquiresleep, .release 1, .acquire 2, .sleep 2, .next 2, .next 2, .next 2]

theorem sleeplock_safe_contended : ∃ s, sleeplock.run contendedLock (start ⟨false, 0⟩ false) = some s ∧
    ∃ q ≠ 2, s.own q = true ∨ s.Owes q () :=
  ⟨_, rfl, (sleeplock_safe (show sleeplock.run contendedLock _ = _ from rfl)).2.2 2 (.inr rfl)⟩

/-! ## Room in the log -/

inductive OpPhase
  | idle
  | running
  | committing
  deriving DecidableEq

inductive OpAct
  | beginOp
  | logWrite (b : Nat)
  | endOp
  /-- The end of `end_op`, after `commit` has emptied the header. -/
  | committed

open FileSys in
def logOps : Monitor Nat OpPhase Log Unit OpAct where
  ready ph lg := ph != .idle || (beginOp lg).isSome
  chan _ := ()
  act
    | .beginOp, _, .idle, lg => (beginOp lg).map fun lg => (none, .running, lg)
    | .logWrite b, _, .running, lg => some (none, .running, { lg with lh := logRecord lg.lh b })
    | .endOp, _, .running, lg =>
      match FileSys.endOp lg with
      | .ok (true, lg) => some (none, .committing, lg)
      | .ok (false, lg) => some (some (), .idle, lg)
      | .error _ => none
    | .committed, _, .committing, lg => some (some (), .idle, { lg with lh := [], committing := false })
    | _, _, _, _ => none

/-- The log knows the operations that run and the one that commits. -/
structure Booked (ph : Nat → OpPhase) (lg : FileSys.Log) : Prop where
  running : ∃ S : Finset Nat, (∀ p, p ∈ S ↔ ph p = .running) ∧ lg.outstanding = S.card
  committing : ∀ p, ph p = .committing → lg.committing ∧ lg.outstanding = 0 ∧ ∀ q, ph q = .committing → q = p
  committer : lg.committing → ∃ p, ph p = .committing
  empty : lg.committing = false → lg.outstanding = 0 → lg.lh = []

open FileSys in
theorem logOps_lawful : logOps.Lawful Booked := by
  intro a p ph c l lg lg' hP ha
  obtain ⟨⟨S, hS, hout⟩, hcom, hcomer, hempty⟩ := hP
  cases a <;> cases hp : ph p <;> simp only [logOps, hp] at ha ⊢
  case beginOp.idle =>
    obtain ⟨lg₁, hb, hlg⟩ := Option.map_eq_some_iff.1 ha
    cases hlg
    simp only [beginOp] at hb
    split_ifs at hb with hc hroom
    cases hb
    have hpS : p ∉ S := by simp [hS, hp]
    refine ⟨⟨⟨insert p S, by grind, by simp [hpS, hout]⟩, ?_, ?_, ?_⟩, ?_⟩
    all_goals grind [beginOp]
  case logWrite.running b =>
    cases ha
    -- the header grows only while an operation runs
    have hpos : lg.outstanding ≠ 0 := by
      have := Finset.card_pos.2 ⟨p, (hS p).2 hp⟩
      omega
    have hlen : lg.lh.length ≤ (logRecord lg.lh b).length := by
      unfold logRecord
      split <;> simp
    refine ⟨⟨⟨S, by grind, hout⟩, ?_, ?_, ?_⟩, ?_⟩
    all_goals grind [beginOp]
  case endOp.running =>
    have hpS := (hS p).2 hp
    have hpos := Finset.card_pos.2 ⟨p, hpS⟩
    have hcard := Finset.card_erase_of_mem hpS
    simp only [FileSys.endOp] at ha
    split_ifs at ha with hc h0 <;> cases ha
    · -- the last operation commits: nobody is let in yet
      refine ⟨⟨⟨S.erase p, by grind, by simp only; omega⟩, ?_, fun _ => ⟨p, update_self ..⟩, ?_⟩, ?_⟩
      all_goals grind [beginOp]
    · -- there may be room for another one, which is woken
      refine ⟨⟨⟨S.erase p, by grind, by simp only; omega⟩, ?_, ?_, ?_⟩, ?_⟩
      all_goals grind
  case committed.committing =>
    cases ha
    refine ⟨⟨⟨S, by grind, hout⟩, ?_, ?_, ?_⟩, ?_⟩
    all_goals grind
  all_goals cases ha

/-- Whoever sleeps in `begin_op` is owed a wakeup, or another process has still to end its operation. -/
theorem beginOp_woken {es : List (Monitor.Event Nat OpAct)} {start size : Nat} {s : Sys Nat OpPhase FileSys.Log Unit}
    (hr : logOps.run es (Monitor.start ⟨start, size, 0, false, []⟩ .idle) = some s) (p : Nat) (hp : s.Waits p) :
    ∃ q ≠ p, s.own q ≠ .idle ∨ s.Owes q () := by
  have h := Sound.run logOps_lawful es (start_sound ⟨⟨∅, by simp⟩, by simp, by simp, by simp⟩) hr
  obtain ⟨⟨S, hS, hout⟩, -, hcomer, hempty⟩ := h.data
  by_cases hready : logOps.ready (s.own p) s.data
  · obtain ⟨q, hq⟩ := h.waits p hp hready
    exact ⟨q, hq.ne hp, .inr hq⟩
  obtain ⟨hidle, -⟩ : s.own p = .idle ∧ FileSys.beginOp s.data = none := by simpa [logOps] using hready
  suffices h : ∃ q, s.own q ≠ .idle by
    obtain ⟨q, hq⟩ := h
    exact ⟨q, by rintro rfl; exact hq hidle, .inl hq⟩
  by_cases hc : s.data.committing
  · obtain ⟨q, hq⟩ := hcomer hc
    exact ⟨q, by simp [hq]⟩
  -- without any operation the log is empty, and there is room for one
  have hne : S.Nonempty := by
    rw [Finset.nonempty_iff_ne_empty]
    rintro rfl
    simp only [Finset.card_empty, Nat.cast_zero] at hout
    simp [logOps, FileSys.beginOp, hc, hout, hempty (by simpa using hc) hout] at hready
    exact absurd hready.2 (by decide)
  obtain ⟨q, hq⟩ := hne
  exact ⟨q, by simp [(hS q).1 hq]⟩

/-- Three operations take all the room, and a fourth process goes to sleep. -/
def crowdedLog : List (Monitor.Event Nat OpAct) :=
  [1, 2, 3].flatMap (fun p => [.acquire p, .act p .beginOp, .release p]) ++ [.acquire 4, .sleep 4, .next 4, .next 4]

theorem beginOp_woken_crowded : ∃ s, logOps.run crowdedLog (Monitor.start ⟨2, 30, 0, false, []⟩ .idle) = some s ∧
    ∃ q ≠ 4, s.own q ≠ .idle ∨ s.Owes q () :=
  ⟨_, rfl, beginOp_woken (show logOps.run crowdedLog _ = _ from rfl) 4 (.inl rfl)⟩

end DemandPaging
