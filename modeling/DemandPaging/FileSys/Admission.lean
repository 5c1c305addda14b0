/-
Any number of processes run operations: `begin_op`, calls of `log_write` on at most `MAXOPBLOCKS`
distinct blocks, `end_op`. The only panic they can reach is `too big a transaction`, and they reach it
exactly when one of them logs a block while the open transaction has `LOGSIZE - 1` blocks already: the
log keeps one of its `LOGSIZE` blocks for the header, which `begin_op` does not take into account.
-/
import DemandPaging.FileSys.Log

namespace DemandPaging.FileSys

open Function

/-! ## Processes -/

/-- Where a process stands, with the blocks that its operation has logged. -/
inductive Phase
  | idle
  | running (written : Finset Nat)
  /-- In `log_write`, past its tests. -/
  | writing (written : Finset Nat) (b : Nat)
  /-- In `commit`. -/
  | committing
  /-- In `end_op`, after `commit` has returned. -/
  | committed
  deriving DecidableEq

/-- Between `begin_op` and `end_op`. -/
def Phase.inOp : Phase → Bool
  | running _ => true
  | writing _ _ => true
  | _ => false

def Phase.written : Phase → Finset Nat
  | running w => w
  | writing w _ => w
  | _ => ∅

/-- The log, the processes, and the blocks logged since the last commit. -/
structure OpSys where
  log : Log
  phase : Nat → Phase
  logged : Finset Nat

inductive Act
  | beginOp (p : Nat)
  | logCheck (p b : Nat)
  | logRecord (p : Nat)
  | endOp (p : Nat)
  | empty (p : Nat)
  | wake (p : Nat)
  deriving DecidableEq, Repr

/-- A running operation may log a block as long as it stays within `MAXOPBLOCKS` distinct ones. -/
def mayLog (b : Nat) : Phase → Bool
  | .running w => (insert b w).card ≤ maxOpBlocks
  | _ => false

/-- One step of a process; nothing happens where it is not its turn or where it sleeps. -/
def OpSys.step (s : OpSys) : Act → Except Stuck OpSys
  | .beginOp p =>
    if s.phase p = .idle then
      match beginOp s.log with
      | some lg => .ok { s with log := lg, phase := update s.phase p (.running ∅) }
      | none => .ok s
    else .ok s
  | .logCheck p b =>
    if mayLog b (s.phase p) then do
      logCheck s.log
      .ok { s with phase := update s.phase p (.writing (s.phase p).written b) }
    else .ok s
  | .logRecord p =>
    match s.phase p with
    | .writing w b =>
      .ok { log := { s.log with lh := logRecord s.log.lh b }, phase := update s.phase p (.running (insert b w)),
            logged := insert b s.logged }
    | _ => .ok s
  | .endOp p =>
    match s.phase p with
    | .running _ => do
      let (doCommit, lg) ← endOp s.log
      .ok { s with log := lg, phase := update s.phase p (if doCommit then .committing else .idle) }
    | _ => .ok s
  | .empty p =>
    if s.phase p = .committing then
      .ok { log := { s.log with lh := [] }, phase := update s.phase p .committed, logged := ∅ }
    else .ok s
  | .wake p =>
    if s.phase p = .committed then
      .ok { s with log := { s.log with committing := false }, phase := update s.phase p .idle }
    else .ok s

def OpSys.run (s : OpSys) (acts : List Act) : Except Stuck OpSys := acts.foldlM OpSys.step s

/-- After `initlog`, with the log as large as `mkfs` makes it. -/
def OpSys.boot (start : Nat) : OpSys := ⟨⟨start, logSize, 0, false, []⟩, fun _ => .idle, ∅⟩

/-- Every call of `log_write` comes while the open transaction has fewer than `LOGSIZE - 1` blocks. -/
def Fits : List Act → OpSys → Prop
  | [], _ => True
  | a :: as, s =>
    (∀ p b, a = .logCheck p b → mayLog b (s.phase p) = true → s.logged.card < logSize - 1) ∧
      ∀ s', s.step a = .ok s' → Fits as s'

/-! ## What a step does -/

variable {s s' : OpSys} {a : Act} {p b : Nat}

/-- The steps that change the state. -/
inductive Moves (s : OpSys) : Act → OpSys → Prop
  | begins {p : Nat} : s.phase p = .idle → s.log.committing = false →
      s.log.lh.length + (s.log.outstanding + 1) * maxOpBlocks ≤ logSize →
      Moves s (.beginOp p) { s with log := { s.log with outstanding := s.log.outstanding + 1 },
                                    phase := update s.phase p (.running ∅) }
  | checks {p b : Nat} {w : Finset Nat} : s.phase p = .running w → (insert b w).card ≤ maxOpBlocks → logCheck s.log = .ok () →
      Moves s (.logCheck p b) { s with phase := update s.phase p (.writing w b) }
  | records {p b : Nat} {w : Finset Nat} : s.phase p = .writing w b →
      Moves s (.logRecord p) { log := { s.log with lh := logRecord s.log.lh b },
                               phase := update s.phase p (.running (insert b w)), logged := insert b s.logged }
  | ends {p : Nat} {w : Finset Nat} : s.phase p = .running w → s.log.committing = false → s.log.outstanding ≠ 1 →
      Moves s (.endOp p) { s with log := { s.log with outstanding := s.log.outstanding - 1 },
                                  phase := update s.phase p .idle }
  | closes {p : Nat} {w : Finset Nat} : s.phase p = .running w → s.log.committing = false → s.log.outstanding = 1 →
      Moves s (.endOp p) { s with log := { s.log with outstanding := 0, committing := true },
                                  phase := update s.phase p .committing }
  | empties {p : Nat} : s.phase p = .committing →
      Moves s (.empty p) { log := { s.log with lh := [] }, phase := update s.phase p .committed, logged := ∅ }
  | wakes {p : Nat} : s.phase p = .committed →
      Moves s (.wake p) { s with log := { s.log with committing := false }, phase := update s.phase p .idle }

theorem step_cases (h : s.step a = .ok s') : s' = s ∨ Moves s a s' := by
  cases a with
  | beginOp p =>
    simp only [OpSys.step, beginOp] at h
    split at h
    · next hidle =>
      by_cases hc : s.log.committing = true
      · rw [if_pos hc] at h; cases h; exact .inl rfl
      by_cases hn : (logSize : Int) < s.log.lh.length + (s.log.outstanding + 1) * maxOpBlocks
      · rw [if_neg hc, if_pos hn] at h; cases h; exact .inl rfl
      · rw [if_neg hc, if_neg hn] at h
        cases h
        exact .inr (.begins hidle (by simpa using hc) (by omega))
    · cases h; exact .inl rfl
  | logCheck p b =>
    simp only [OpSys.step] at h
    split at h
    · next hmay =>
      obtain ⟨_, hcheck, h⟩ := bind_eq_ok.1 h
      cases h
      cases hp : s.phase p with
      | running w =>
        rw [hp] at hmay
        have hw : (insert b w).card ≤ maxOpBlocks := by simpa [mayLog] using hmay
        exact .inr (.checks hp hw hcheck)
      | _ => rw [hp] at hmay; cases hmay
    · cases h; exact .inl rfl
  | logRecord p =>
    simp only [OpSys.step] at h
    split at h
    · next hp => cases h; exact .inr (.records hp)
    · cases h; exact .inl rfl
  | endOp p =>
    simp only [OpSys.step] at h
    split at h
    · next w hp =>
      simp only [endOp] at h
      split at h
      · cases h
      next hc =>
      have hc : s.log.committing = false := by simpa using hc
      split at h
      · next ho =>
        cases h
        have h1 : s.log.outstanding = 1 := by omega
        have h0 : s.log.outstanding - 1 = 0 := ho
        simp only [h0]
        exact .inr (.closes hp hc h1)
      · next ho => cases h; exact .inr (.ends hp hc (by omega))
    · cases h; exact .inl rfl
  | empty p =>
    simp only [OpSys.step] at h
    split at h
    · next hp => cases h; exact .inr (.empties hp)
    · cases h; exact .inl rfl
  | wake p =>
    simp only [OpSys.step] at h
    split at h
    · next hp => cases h; exact .inr (.wakes hp)
    · cases h; exact .inl rfl

/-! ## Invariant -/

/-- `A` are the processes that run an operation. -/
structure LogInv (A : Finset Nat) (s : OpSys) : Prop where
  size : s.log.size = logSize
  active : ∀ p, p ∈ A ↔ (s.phase p).inOp = true
  outstanding : s.log.outstanding = A.card
  nodup : s.log.lh.Nodup
  blocks : s.log.lh.toFinset = s.logged
  /-- `commit` runs while no operation does. -/
  commit : s.log.committing = true → A = ∅
  committer : ∀ p, s.phase p = .committing ∨ s.phase p = .committed → s.log.committing = true
  one : ∀ p q, (s.phase p = .committing ∨ s.phase p = .committed) →
    (s.phase q = .committing ∨ s.phase q = .committed) → p = q
  /-- A log that is used by nobody is empty. -/
  empty : A = ∅ → (∀ p, s.phase p ≠ .committing) → s.log.lh = []
  within : ∀ p, (s.phase p).written ⊆ s.logged

theorem toFinset_logRecord {lh : LogHeader} : (logRecord lh b).toFinset = insert b lh.toFinset := by
  unfold logRecord
  split
  · next hb => rw [Finset.insert_eq_of_mem (List.mem_toFinset.2 hb)]
  · ext; simp

theorem nodup_logRecord {lh : LogHeader} (h : lh.Nodup) : (logRecord lh b).Nodup := by
  unfold logRecord
  split
  · exact h
  · next hb => simpa [List.nodup_append] using ⟨h, fun _ hc => ne_of_mem_of_not_mem hc hb⟩

theorem LogInv.card {A : Finset Nat} (h : LogInv A s) : s.log.lh.length = s.logged.card := by
  rw [← h.blocks, List.toFinset_card_of_nodup h.nodup]

theorem Phase.written_eq_empty {ph : Phase} (h : ¬ph.inOp = true) : ph.written = ∅ := by
  cases ph <;> first | rfl | exact absurd rfl h

/-- The operations that run after a step. -/
def activeAfter (A : Finset Nat) (s : OpSys) : Act → Finset Nat
  | .beginOp p => if s.phase p = .idle then insert p A else A
  | .endOp p => A.erase p
  | _ => A

section Update

variable {A A' : Finset Nat} {x : Phase} {L : Finset Nat}

theorem LogInv.active_update (h : LogInv A s) (hp : p ∈ A' ↔ x.inOp = true) (hA : ∀ q ≠ p, q ∈ A' ↔ q ∈ A) :
    ∀ q, q ∈ A' ↔ (update s.phase p x q).inOp = true := by
  refine (forall_update_iff s.phase fun q ph => q ∈ A' ↔ ph.inOp = true).2 ⟨hp, fun q hq => ?_⟩
  rw [hA q hq, h.active]

theorem LogInv.within_update (h : LogInv A s) (hx : x.written ⊆ L) (hL : s.logged ⊆ L) :
    ∀ q, (update s.phase p x q).written ⊆ L :=
  (forall_update_iff s.phase fun _ ph => ph.written ⊆ L).2 ⟨hx, fun q _ => (h.within q).trans hL⟩

/-- In `commit` or on the way out of it. -/
def Phase.commits (ph : Phase) : Prop := ph = .committing ∨ ph = .committed

/-- A process that does not enter `commit` leaves it to those that are in it. -/
theorem commits_of_update (hx : ¬x.commits) {q : Nat} (hq : (update s.phase p x q).commits) :
    q ≠ p ∧ (s.phase q).commits := by
  rcases eq_or_ne q p with rfl | hne
  · rw [update_self] at hq
    exact absurd hq hx
  · rw [update_of_ne hne] at hq
    exact ⟨hne, hq⟩

theorem LogInv.committer_update (h : LogInv A s) (hx : ¬x.commits) :
    ∀ q, (update s.phase p x q).commits → s.log.committing = true :=
  fun q hq => h.committer q (commits_of_update hx hq).2

theorem LogInv.one_update (h : LogInv A s) (hx : ¬x.commits) :
    ∀ q r, (update s.phase p x q).commits → (update s.phase p x r).commits → q = r :=
  fun q r hq hr => h.one q r (commits_of_update hx hq).2 (commits_of_update hx hr).2

/-- Processes that find nobody in `commit` after a step found nobody before, unless the one that moved was. -/
theorem ne_committing_of_update (hp : s.phase p ≠ .committing) (h : ∀ q, update s.phase p x q ≠ .committing) (q : Nat) :
    s.phase q ≠ .committing := by
  rcases eq_or_ne q p with rfl | hne
  · exact hp
  · have hq := h q
    rwa [update_of_ne hne] at hq

end Update

theorem LogInv.move {A : Finset Nat} (h : LogInv A s) (hm : Moves s a s') : LogInv (activeAfter A s a) s' := by
  cases hm with
  | @begins p hidle hc hroom =>
    have hp : p ∉ A := by rw [h.active, hidle]; decide
    have hx : ¬(Phase.running ∅).commits := by rintro (h | h) <;> cases h
    rw [activeAfter, if_pos hidle]
    constructor
    case size => exact h.size
    case active => exact h.active_update (by simp [Phase.inOp]) fun q hq => by simp [hq]
    case outstanding =>
      have hout := h.outstanding
      rw [Finset.card_insert_of_notMem hp]
      show s.log.outstanding + 1 = _
      omega
    case nodup => exact h.nodup
    case blocks => exact h.blocks
    case commit => intro hcom; exact absurd (hc.symm.trans hcom) (by decide)
    case committer => exact h.committer_update hx
    case one => exact h.one_update hx
    case empty => intro he; exact absurd he (Finset.insert_ne_empty p A)
    case within => exact h.within_update (Finset.empty_subset _) subset_rfl
  | @checks p b w hrun hw hcheck =>
    have hp : p ∈ A := by rw [h.active, hrun]; rfl
    have hx : ¬(Phase.writing w b).commits := by rintro (h | h) <;> cases h
    constructor
    case size => exact h.size
    case active => exact h.active_update (iff_of_true hp rfl) fun q _ => Iff.rfl
    case outstanding => exact h.outstanding
    case nodup => exact h.nodup
    case blocks => exact h.blocks
    case commit => exact h.commit
    case committer => exact h.committer_update hx
    case one => exact h.one_update hx
    case empty => intro he; exact absurd he (Finset.ne_empty_of_mem hp)
    case within =>
      have hw := h.within p
      rw [hrun] at hw
      exact h.within_update hw subset_rfl
  | @records p b w hwrite =>
    have hp : p ∈ A := by rw [h.active, hwrite]; rfl
    have hx : ¬(Phase.running (insert b w)).commits := by rintro (h | h) <;> cases h
    constructor
    case size => exact h.size
    case active => exact h.active_update (iff_of_true hp rfl) fun q _ => Iff.rfl
    case outstanding => exact h.outstanding
    case nodup => exact nodup_logRecord h.nodup
    case blocks => rw [toFinset_logRecord, h.blocks]
    case commit => exact h.commit
    case committer => exact h.committer_update hx
    case one => exact h.one_update hx
    case empty => intro he; exact absurd he (Finset.ne_empty_of_mem hp)
    case within =>
      have hw := h.within p
      rw [hwrite] at hw
      exact h.within_update (Finset.insert_subset_insert b hw) (Finset.subset_insert b _)
  | @ends p w hrun hc hmore =>
    have hp : p ∈ A := by rw [h.active, hrun]; rfl
    have hcard := Finset.card_erase_of_mem hp
    have hpos := Finset.card_pos.2 ⟨p, hp⟩
    have hout := h.outstanding
    have hx : ¬Phase.idle.commits := by rintro (h | h) <;> cases h
    constructor
    case size => exact h.size
    case active => exact h.active_update (by simp [activeAfter, Phase.inOp]) fun q hq => by simp [activeAfter, hq]
    case outstanding =>
      rw [activeAfter, hcard]
      show s.log.outstanding - 1 = _
      omega
    case nodup => exact h.nodup
    case blocks => exact h.blocks
    case commit => intro hcom; exact absurd (hc.symm.trans hcom) (by decide)
    case committer => exact h.committer_update hx
    case one => exact h.one_update hx
    case empty =>
      -- the operation that ends is not the last one
      intro he
      rw [activeAfter] at he
      rw [he, Finset.card_empty] at hcard
      omega
    case within => exact h.within_update (Finset.empty_subset _) subset_rfl
  | @closes p w hrun hc hlast =>
    have hp : p ∈ A := by rw [h.active, hrun]; rfl
    have hA : A.erase p = ∅ := by
      have := h.outstanding
      rw [← Finset.card_eq_zero, Finset.card_erase_of_mem hp]
      omega
    -- nobody is in `commit` when the last operation ends, so `p` is the only one that enters it
    have honly : ∀ q, (update s.phase p .committing q).commits → q = p := by
      intro q hq
      by_contra hne
      rw [update_of_ne hne] at hq
      exact absurd (hc.symm.trans (h.committer q hq)) (by decide)
    constructor
    case size => exact h.size
    case active => exact h.active_update (by simp [activeAfter, Phase.inOp]) fun q hq => by simp [activeAfter, hq]
    case outstanding => rw [activeAfter, hA, Finset.card_empty]; rfl
    case nodup => exact h.nodup
    case blocks => exact h.blocks
    case commit => intro _; exact hA
    case committer => intro _ _; rfl
    case one => intro q r hq hr; exact (honly q hq).trans (honly r hr).symm
    case empty => intro _ hn; exact absurd (update_self p _ s.phase) (hn p)
    case within => exact h.within_update (Finset.empty_subset _) subset_rfl
  | @empties p hcom =>
    have hcm := h.committer p (.inl hcom)
    have hA : A = ∅ := h.commit hcm
    have hw : ∀ q, (s.phase q).written = ∅ := fun q => by
      refine Phase.written_eq_empty fun hq => ?_
      rw [← h.active, hA] at hq
      exact absurd hq (Finset.notMem_empty q)
    have hback : ∀ q, (update s.phase p .committed q).commits → (s.phase q).commits := by
      intro q hq
      rcases eq_or_ne q p with rfl | hne
      · exact .inl hcom
      · rwa [update_of_ne hne] at hq
    constructor
    case size => exact h.size
    case active =>
      have hp : p ∉ A := by rw [hA]; exact Finset.notMem_empty p
      exact h.active_update (iff_of_false hp (by decide)) fun q _ => Iff.rfl
    case outstanding => exact h.outstanding
    case nodup => exact List.nodup_nil
    case blocks => exact List.toFinset_nil
    case commit => exact h.commit
    case committer => intro q hq; exact h.committer q (hback q hq)
    case one => intro q r hq hr; exact h.one q r (hback q hq) (hback r hr)
    case empty => intro _ _; rfl
    case within =>
      refine (forall_update_iff s.phase fun _ ph => ph.written ⊆ ∅).2 ⟨subset_rfl, fun q _ => ?_⟩
      rw [hw q]
  | @wakes p hcom =>
    have hcm := h.committer p (.inr hcom)
    have hA : A = ∅ := h.commit hcm
    have hx : ¬Phase.idle.commits := by rintro (h | h) <;> cases h
    constructor
    case size => exact h.size
    case active =>
      have hp : p ∉ A := by rw [hA]; exact Finset.notMem_empty p
      exact h.active_update (iff_of_false hp (by decide)) fun q _ => Iff.rfl
    case outstanding => exact h.outstanding
    case nodup => exact h.nodup
    case blocks => exact h.blocks
    case commit => intro _; exact hA
    case committer =>
      -- a second process in `commit` would be `p`
      intro q hq
      obtain ⟨hne, hq⟩ := commits_of_update hx hq
      exact absurd (h.one q p hq (.inr hcom)) hne
    case one => exact h.one_update hx
    case empty =>
      intro he hn
      exact h.empty he (ne_committing_of_update (by rw [hcom]; decide) hn)
    case within => exact h.within_update (Finset.empty_subset _) subset_rfl

theorem LogInv.step {A : Finset Nat} (h : LogInv A s) (hs : s.step a = .ok s') : ∃ A', LogInv A' s' := by
  rcases step_cases hs with rfl | hm
  · exact ⟨A, h⟩
  · exact ⟨_, h.move hm⟩

theorem boot_inv (start : Nat) : LogInv ∅ (OpSys.boot start) := by
  constructor <;> simp [OpSys.boot, Phase.inOp, Phase.written]

/-! ## Panics -/

/-- What `log_write` finds when its caller is inside an operation. -/
theorem logCheck_eq {A : Finset Nat} (h : LogInv A s) (hp : p ∈ A) :
    logCheck s.log = if s.logged.card < logSize - 1 then .ok () else .error (.panic "too big a transaction") := by
  have hout : ¬s.log.outstanding < 1 := by
    have := h.outstanding
    have := Finset.card_pos.2 ⟨p, hp⟩
    omega
  have hfull : (logSize ≤ s.log.lh.length ∨ (s.log.size : Int) - 1 ≤ s.log.lh.length) ↔ ¬s.logged.card < logSize - 1 := by
    rw [h.size, h.card]
    simp only [logSize, maxOpBlocks]; omega
  unfold logCheck
  rw [if_neg hout]
  by_cases hc : s.logged.card < logSize - 1
  · rw [if_neg (fun hn => hfull.1 hn hc), if_pos hc]
  · rw [if_pos (hfull.2 hc), if_neg hc]

/-- A step panics only in the first test of `log_write`. -/
theorem step_error {A : Finset Nat} {e : Stuck} (h : LogInv A s) (hs : s.step a = .error e) :
    ∃ p b, a = .logCheck p b ∧ mayLog b (s.phase p) = true ∧ ¬s.logged.card < logSize - 1 ∧
      e = .panic "too big a transaction" := by
  cases a with
  | beginOp p =>
    simp only [OpSys.step] at hs
    split at hs
    · split at hs <;> cases hs
    · cases hs
  | logCheck p b =>
    simp only [OpSys.step] at hs
    split at hs
    · next hmay =>
      have hp : p ∈ A := by
        rw [h.active]
        cases hph : s.phase p <;> rw [hph] at hmay <;> first | rfl | cases hmay
      rw [logCheck_eq h hp] at hs
      split at hs
      · cases hs
      · next hn => cases hs; exact ⟨p, b, rfl, hmay, hn, rfl⟩
    · cases hs
  | endOp p =>
    simp only [OpSys.step] at hs
    split at hs
    · next hrun =>
      -- an operation that has not ended keeps `commit` from running
      have hp : p ∈ A := by rw [h.active, hrun]; rfl
      have hc : s.log.committing = false := by
        by_contra hc
        have := h.commit (by simpa using hc)
        rw [this] at hp
        exact absurd hp (by simp)
      simp only [endOp, hc, Bool.false_eq_true, if_false] at hs
      split at hs <;> cases hs
    · cases hs
  | logRecord p => simp only [OpSys.step] at hs; split at hs <;> cases hs
  | empty p => simp only [OpSys.step] at hs; split at hs <;> cases hs
  | wake p => simp only [OpSys.step] at hs; split at hs <;> cases hs

theorem step_logCheck_full {A : Finset Nat} (h : LogInv A s) (hmay : mayLog b (s.phase p) = true)
    (hn : ¬s.logged.card < logSize - 1) : s.step (.logCheck p b) = .error (.panic "too big a transaction") := by
  have hp : p ∈ A := by
    rw [h.active]
    cases hph : s.phase p <;> rw [hph] at hmay <;> first | rfl | cases hmay
  simp only [OpSys.step, hmay, if_true, logCheck_eq h hp, if_neg hn]
  rfl

theorem run_cons {acts : List Act} : s.run (a :: acts) = s.step a >>= fun s' => s'.run acts := rfl

/-- A run goes through exactly if every `log_write` in it finds room. -/
theorem run_iff_fits : ∀ {acts : List Act} {s : OpSys} {A : Finset Nat}, LogInv A s →
    ((∃ s', s.run acts = .ok s') ↔ Fits acts s)
  | [], s, _, _ => ⟨fun _ => trivial, fun _ => ⟨s, rfl⟩⟩
  | a :: acts, s, A, h => by
    rw [run_cons, Fits]
    cases hs : s.step a with
    | error e =>
      obtain ⟨p, b, rfl, hmay, hn, -⟩ := step_error h hs
      exact ⟨fun ⟨_, hx⟩ => (by cases hx), fun hx => absurd (hx.1 p b rfl hmay) hn⟩
    | ok s₁ =>
      obtain ⟨A', h'⟩ := h.step hs
      refine (run_iff_fits h').trans ⟨fun hf => ⟨?_, ?_⟩, fun hf => hf.2 s₁ rfl⟩
      · rintro p b rfl hmay
        by_contra hn
        rw [step_logCheck_full h hmay hn] at hs
        cases hs
      · rintro s₂ hs₂
        cases hs₂
        exact hf

theorem run_inv : ∀ {acts : List Act} {s s' : OpSys} {A : Finset Nat}, LogInv A s → s.run acts = .ok s' → ∃ A', LogInv A' s'
  | [], _, _, A, h, hr => by cases hr; exact ⟨A, h⟩
  | a :: acts, s, s', A, h, hr => by
    obtain ⟨s₁, hs, hr⟩ := bind_eq_ok.1 hr
    obtain ⟨A', h'⟩ := h.step hs
    exact run_inv h' hr

theorem run_error : ∀ {acts : List Act} {s : OpSys} {A : Finset Nat} {e : Stuck}, LogInv A s → s.run acts = .error e →
    e = .panic "too big a transaction"
  | [], _, _, _, _, hr => by cases hr
  | a :: acts, s, A, e, h, hr => by
    rw [run_cons] at hr
    cases hs : s.step a with
    | error e' =>
      rw [hs] at hr
      cases hr
      obtain ⟨_, _, -, -, -, rfl⟩ := step_error h hs
      rfl
    | ok s₁ =>
      rw [hs] at hr
      obtain ⟨A', h'⟩ := h.step hs
      exact run_error h' hr

/-- While `commit` runs, no process is inside an operation and `begin_op` waits. -/
theorem commit_alone {A : Finset Nat} (h : LogInv A s) (hc : s.log.committing = true) (p : Nat) :
    (s.phase p).inOp = false ∧ s.step (.beginOp p) = .ok s := by
  refine ⟨?_, ?_⟩
  · by_contra hn
    have := (h.active p).2 (by simpa using hn)
    rw [h.commit hc] at this
    exact absurd this (by simp)
  · simp [OpSys.step, beginOp, hc]

/-- The admission of operations: a run panics exactly if one of its calls of `log_write` comes when the open
transaction has `LOGSIZE - 1` blocks, in no other way, and nothing of an operation happens during `commit`. -/
theorem admission_iff (start : Nat) (acts : List Act) :
    ((∃ s, (OpSys.boot start).run acts = .ok s) ↔ Fits acts (OpSys.boot start)) ∧
      (∀ e, (OpSys.boot start).run acts = .error e → e = .panic "too big a transaction") ∧
      ∀ s, (OpSys.boot start).run acts = .ok s → s.log.committing = true →
        ∀ p, (s.phase p).inOp = false ∧ s.step (.beginOp p) = .ok s := by
  refine ⟨run_iff_fits (boot_inv start), fun e he => run_error (boot_inv start) he, fun s hs hc p => ?_⟩
  obtain ⟨A, h⟩ := run_inv (boot_inv start) hs
  exact commit_alone h hc p

/-- Operation `p` logs blocks `10 * p`, ..., `10 * p + 9`, each of the three up to its limit. -/
def threeFullOps : List Act :=
  [.beginOp 0, .beginOp 1, .beginOp 2] ++
    (List.range 30).flatMap fun b => [.logCheck (b / 10) b, .logRecord (b / 10)]

/-- Three operations within their limits fill the log and panic. -/
theorem three_full_ops_panic : (OpSys.boot 2).run threeFullOps = .error (.panic "too big a transaction") := by
  rfl

end DemandPaging.FileSys
