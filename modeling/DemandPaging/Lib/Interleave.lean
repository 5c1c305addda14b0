/-
Calls that read a shared store in one atomic step and update it in a later one, run by any number of
processors. An update adds an item to the store at a place its read has chosen. Under the laws of
`Spec` no item is ever lost exactly in the runs in which no update acts on a stale read, one made
before another update added an item.
-/
import Mathlib.Tactic

namespace Interleave

variable {ε σ V A I : Type}

/-- A kind of call: what it reads, and its update, which may add an item. -/
structure Call (ε σ V A I : Type) where
  read : σ → Except ε V
  commit : A → V → σ → Except ε (Option I × σ)

/-- The store, what each processor between its two steps has read, with the number of items added by
then, and the items added so far. -/
structure Sys (σ V I : Type) where
  store : σ
  pending : Nat → Option (V × Nat)
  done : List I

inductive Event (A : Type)
  | read (cpu : Nat)
  | commit (cpu : Nat) (a : A)

def start (st : σ) : Sys σ V I := ⟨st, fun _ => none, []⟩

/-- One atomic step. A processor reads when it is between calls and updates when it has read; any other
event is none. -/
def step (k : Call ε σ V A I) : Event A → Sys σ V I → Except ε (Sys σ V I)
  | .read c, s =>
    match s.pending c with
    | some _ => .ok s
    | none => do
      let v ← k.read s.store
      return { s with pending := Function.update s.pending c (some (v, s.done.length)) }
  | .commit c a, s =>
    match s.pending c with
    | none => .ok s
    | some (v, _) => do
      let (r, st) ← k.commit a v s.store
      return ⟨st, Function.update s.pending c none, s.done ++ r.toList⟩

def run (k : Call ε σ V A I) : List (Event A) → Sys σ V I → Except ε (Sys σ V I)
  | [], s => .ok s
  | e :: es, s => do run k es (← step k e s)

/-- The event updates the store, in which there is room, on a read older than the latest item. -/
def Stale (room : σ → Prop) : Event A → Sys σ V I → Prop
  | .read _, _ => False
  | .commit c _, s => room s.store ∧ ∃ v n, s.pending c = some (v, n) ∧ n < s.done.length

/-- No event of the run is stale. -/
def Timely (k : Call ε σ V A I) (room : σ → Prop) : List (Event A) → Sys σ V I → Prop
  | [], _ => True
  | e :: es, s => ¬Stale room e s ∧ ∀ s', step k e s = .ok s' → Timely k room es s'

/-- The laws: while the items `D` have been added on fresh reads the store is `good`, and a read sees
`seen D`; an update on an older read loses an item, and an item once `lost` stays so. -/
structure Spec (k : Call ε σ V A I) where
  room : σ → Prop
  kept : σ → I → Prop
  good : σ → List I → Prop
  seen : List I → V
  lost : I → σ → Prop
  valid : V → σ → Prop
  commit_room : ∀ {a v st r st'}, k.commit a v st = .ok (r, st') → (r.isSome = true ↔ room st)
  commit_valid : ∀ {a v w st r st'}, k.commit a v st = .ok (r, st') → valid w st → valid w st'
  read_good : ∀ {st D v}, good st D → k.read st = .ok v → v = seen D
  seen_valid : ∀ {st D E}, good st (D ++ E) → valid (seen D) st
  commit_none : ∀ {a v st D st'}, good st D → k.commit a v st = .ok (none, st') → good st' D
  commit_good : ∀ {a st D i st'}, good st D → k.commit a (seen D) st = .ok (some i, st') → good st' (D ++ [i])
  commit_stale : ∀ {a st D E i st'}, good st (D ++ E) → E ≠ [] → k.commit a (seen D) st = .ok (some i, st') →
    ∃ j ∈ D ++ E, lost j st'
  read_lost : ∀ {st j v}, lost j st → k.read st = .ok v → valid v st
  commit_lost : ∀ {a v st j r st'}, lost j st → valid v st → k.commit a v st = .ok (r, st') → lost j st'
  kept_good : ∀ {st D i}, good st D → i ∈ D → kept st i
  not_kept_lost : ∀ {st j}, lost j st → ¬kept st j

section Run

variable {k : Call ε σ V A I} (S : Spec k) {s s' : Sys σ V I} {e : Event A}

/-- Nothing has been lost: every processor has read what there was to see at its time. -/
structure Sound (s : Sys σ V I) : Prop where
  good : S.good s.store s.done
  pending : ∀ c v n, s.pending c = some (v, n) → n ≤ s.done.length ∧ v = S.seen (s.done.take n)

/-- Something has been lost. -/
def Broken (s : Sys σ V I) : Prop :=
  (∃ j ∈ s.done, S.lost j s.store) ∧ ∀ c v n, s.pending c = some (v, n) → S.valid v s.store

theorem pending_update {f : Nat → Option (V × Nat)} {c d : Nat} {w : Option (V × Nat)} {v : V} {n : Nat}
    (h : Function.update f c w d = some (v, n)) : d = c ∧ w = some (v, n) ∨ f d = some (v, n) := by
  by_cases hd : d = c
  · subst hd; rw [Function.update_self] at h; exact .inl ⟨rfl, h⟩
  · rw [Function.update_of_ne hd] at h; exact .inr h

theorem Sound.read (h : Sound S s) {c : Nat} (hs : step k (.read c) s = .ok s') : Sound S s' := by
  rw [step] at hs
  split at hs
  · cases hs; exact h
  · cases hv : k.read s.store with
    | error e => rw [hv] at hs; cases hs
    | ok v =>
      rw [hv] at hs
      cases hs
      refine ⟨h.good, fun d w n hd => ?_⟩
      rcases pending_update hd with ⟨-, hw⟩ | hd
      · cases hw
        exact ⟨le_rfl, by rw [List.take_length]; exact S.read_good h.good hv⟩
      · exact h.pending d w n hd

/-- What an update with a pending read does. -/
theorem commit_cases {c : Nat} {a : A} (hs : step k (.commit c a) s = .ok s') : s.pending c = none ∧ s' = s ∨
    ∃ v n r st, s.pending c = some (v, n) ∧ k.commit a v s.store = .ok (r, st) ∧
      s' = ⟨st, Function.update s.pending c none, s.done ++ r.toList⟩ := by
  rw [step] at hs
  split at hs
  · rename_i hc
    cases hs
    exact .inl ⟨hc, rfl⟩
  · rename_i v n hc
    cases hr : k.commit a v s.store with
    | error e => rw [hr] at hs; cases hs
    | ok r => rw [hr] at hs; cases hs; exact .inr ⟨v, n, r.1, r.2, hc, hr, rfl⟩

theorem Sound.commit (h : Sound S s) {c : Nat} {a : A} (hfresh : ¬Stale S.room (.commit c a) s)
    (hs : step k (.commit c a) s = .ok s') : Sound S s' := by
  obtain ⟨-, rfl⟩ | ⟨v, n, r, st, hc, hr, rfl⟩ := commit_cases hs
  · exact h
  obtain ⟨hn, hv⟩ := h.pending c v n hc
  cases r with
  | none =>
    refine ⟨by simpa using S.commit_none h.good hr, fun d w m hd => ?_⟩
    rcases pending_update hd with ⟨-, hw⟩ | hd
    · cases hw
    · simpa using h.pending d w m hd
  | some i =>
    have hroom : S.room s.store := (S.commit_room hr).1 rfl
    have hlen : n = s.done.length := by
      by_contra hne
      exact hfresh ⟨hroom, v, n, hc, by omega⟩
    rw [hlen, List.take_length] at hv
    subst hv
    refine ⟨S.commit_good h.good hr, fun d w m hd => ?_⟩
    rcases pending_update hd with ⟨-, hw⟩ | hd
    · cases hw
    · obtain ⟨hm, hw⟩ := h.pending d w m hd
      refine ⟨by simp only [List.length_append]; omega, ?_⟩
      rw [hw, List.take_append_of_le_length hm]

theorem Sound.stale (h : Sound S s) {c : Nat} {a : A} (hstale : Stale S.room (.commit c a) s)
    (hs : step k (.commit c a) s = .ok s') : Broken S s' := by
  obtain ⟨hroom, v, n, hc, hn⟩ := hstale
  obtain ⟨hc', -⟩ | ⟨v', n', r, st, hc', hr, rfl⟩ := commit_cases hs
  · rw [hc] at hc'; cases hc'
  rw [hc] at hc'
  cases hc'
  obtain ⟨-, hv⟩ := h.pending c v n hc
  obtain ⟨i, rfl⟩ := Option.isSome_iff_exists.1 ((S.commit_room hr).2 hroom)
  have hgood := h.good
  rw [← List.take_append_drop n s.done] at hgood
  rw [hv] at hr
  obtain ⟨j, hj, hlost⟩ := S.commit_stale hgood (by simpa using hn) hr
  rw [List.take_append_drop] at hj
  refine ⟨⟨j, List.mem_append_left _ hj, hlost⟩, fun d w m hd => ?_⟩
  rcases pending_update hd with ⟨-, hw⟩ | hd
  · cases hw
  · obtain ⟨-, rfl⟩ := h.pending d w m hd
    have hgood' := h.good
    rw [← List.take_append_drop m s.done] at hgood'
    exact S.commit_valid hr (S.seen_valid hgood')

theorem Broken.step (h : Broken S s) (hs : step k e s = .ok s') : Broken S s' := by
  obtain ⟨⟨j, hj, hlost⟩, hvalid⟩ := h
  cases e with
  | read c =>
    rw [Interleave.step] at hs
    split at hs
    · cases hs; exact ⟨⟨j, hj, hlost⟩, hvalid⟩
    · cases hv : k.read s.store with
      | error e => rw [hv] at hs; cases hs
      | ok v =>
        rw [hv] at hs
        cases hs
        refine ⟨⟨j, hj, hlost⟩, fun d w n hd => ?_⟩
        rcases pending_update hd with ⟨-, hw⟩ | hd
        · cases hw; exact S.read_lost hlost hv
        · exact hvalid d w n hd
  | commit c a =>
    obtain ⟨-, rfl⟩ | ⟨v, n, r, st, hc, hr, rfl⟩ := commit_cases hs
    · exact ⟨⟨j, hj, hlost⟩, hvalid⟩
    refine ⟨⟨j, List.mem_append_left _ hj, S.commit_lost hlost (hvalid c v n hc) hr⟩, fun d w m hd => ?_⟩
    rcases pending_update hd with ⟨-, hw⟩ | hd
    · cases hw
    · exact S.commit_valid hr (hvalid d w m hd)

theorem Broken.run : ∀ (es : List (Event A)) {s : Sys σ V I}, Broken S s → run k es s = .ok s' → Broken S s'
  | [], _, h, hr => by cases hr; exact h
  | e :: es, s, h, hr => by
    rw [Interleave.run] at hr
    cases hs : Interleave.step k e s with
    | error e => rw [hs] at hr; cases hr
    | ok s₁ => rw [hs] at hr; exact Broken.run es (h.step S hs) hr

theorem Sound.run_iff : ∀ (es : List (Event A)) {s : Sys σ V I}, Sound S s → run k es s = .ok s' →
    ((∀ i ∈ s'.done, S.kept s'.store i) ↔ Timely k S.room es s)
  | [], s, h, hr => by
    cases hr
    exact ⟨fun _ => trivial, fun _ i hi => S.kept_good h.good hi⟩
  | e :: es, s, h, hr => by
    rw [Interleave.run] at hr
    cases hs : Interleave.step k e s with
    | error e => rw [hs] at hr; cases hr
    | ok s₁ =>
      rw [hs] at hr
      by_cases hstale : Stale S.room e s
      · have hbroken : Broken S s₁ := by
          cases e with
          | read c => exact absurd hstale id
          | commit c a => exact h.stale S hstale hs
        obtain ⟨⟨j, hj, hlost⟩, -⟩ := hbroken.run S es hr
        exact ⟨fun hk => absurd (hk j hj) (S.not_kept_lost hlost), fun ht => absurd hstale ht.1⟩
      · have hsound : Sound S s₁ := by
          cases e with
          | read c => exact h.read S hs
          | commit c a => exact h.commit S hstale hs
        rw [hsound.run_iff es hr]
        constructor
        · intro ht
          refine ⟨hstale, fun s₂ hs₂ => ?_⟩
          rw [hs] at hs₂
          cases hs₂
          exact ht
        · exact fun ht => ht.2 s₁ hs

/-- A run that starts with nothing pending keeps every item it adds exactly when no update is stale. -/
theorem run_kept_iff {es : List (Event A)} {st : σ} (h : S.good st []) (hr : run k es (start st) = .ok s') :
    (∀ i ∈ s'.done, S.kept s'.store i) ↔ Timely k S.room es (start st) := by
  refine Sound.run_iff S es ⟨h, ?_⟩ hr
  rintro c v n hc
  cases hc

end Run

end Interleave
