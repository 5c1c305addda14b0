/-
A transaction is atomic across power failures: wherever `commit` is cut, and however often recovery is
cut after that, a recovery that completes leaves all of the transaction's home blocks old or all of
them new, every other home block as it was, and an empty log.
-/
import DemandPaging.FileSys.Log

namespace DemandPaging.FileSys

open Bytes Crash Function

/-! ## The header block -/

theorem headCount_putLe (buf : Block) (i v : Nat) : headCount (putLe buf (4 + 4 * i) 4 v) = headCount buf :=
  getLe_putLe_of_disjoint buf (by omega)

theorem headEntry_putLe {buf : Block} {i j v : Nat} (h : i ≠ j) :
    headEntry (putLe buf (4 + 4 * i) 4 v) j = headEntry buf j :=
  getLe_putLe_of_disjoint buf (by omega)

/-- Storing entries one by one from index `k`. -/
theorem storeEntries : ∀ (lh : LogHeader) (k : Nat) (buf : Block), k + lh.length ≤ logSize → (∀ b ∈ lh, b < wordSize) →
    let buf' := (lh.zipIdx k).foldl (fun buf e => putLe buf (4 + 4 * e.2) 4 e.1) buf
    headCount buf' = headCount buf ∧ (∀ i < k, headEntry buf' i = headEntry buf i) ∧
      ∀ i (h : i < lh.length), headEntry buf' (k + i) = lh[i]
  | [], k, buf, _, _ => ⟨rfl, fun _ _ => rfl, fun _ h => absurd h (Nat.not_lt_zero _)⟩
  | b :: lh, k, buf, hn, hb => by
    simp only [List.length_cons] at hn
    obtain ⟨hcount, hlow, hval⟩ := storeEntries lh (k + 1) (putLe buf (4 + 4 * k) 4 b) (by omega)
      fun c hc => hb c (by simp [hc])
    simp only [List.zipIdx_cons, List.foldl_cons] at hcount hlow hval ⊢
    refine ⟨by rw [hcount, headCount_putLe], fun i hi => ?_, fun i hi => ?_⟩
    · rw [hlow i (by omega), headEntry_putLe (by omega)]
    cases i with
    | zero =>
      refine (hlow k (by omega)).trans (getLe_putLe buf ?_ (hb b (by simp)))
      simp only [logSize, maxOpBlocks, bSize] at *; omega
    | succ i =>
      have := hval i (by simpa using hi)
      rw [show k + (i + 1) = k + 1 + i by omega, this, List.getElem_cons_succ]

/-- The header that `read_head` finds in a block. -/
def headOf (buf : Block) : LogHeader := (List.range (headCount buf)).map (headEntry buf)

theorem headOf_putHead {buf : Block} {lh : LogHeader} (hn : lh.length ≤ logSize) (hb : ∀ b ∈ lh, b < wordSize) :
    headOf (putHead buf lh) = lh := by
  obtain ⟨hcount, -, hval⟩ := storeEntries lh 0 (putLe buf 0 4 lh.length) (by simpa using hn) hb
  have hlen : headCount (putHead buf lh) = lh.length := by
    rw [putHead, hcount]
    refine getLe_putLe buf (by decide) ?_
    simp only [logSize, maxOpBlocks] at hn; omega
  refine List.ext_getElem (by simp [headOf, hlen]) fun i hi hi' => ?_
  have := hval i hi'
  rw [Nat.zero_add] at this
  simp only [headOf, List.getElem_map, List.getElem_range]
  exact this

theorem headCount_eq_zero {buf : Block} : headCount buf = 0 ↔ headOf buf = [] := by
  rw [headOf, List.map_eq_nil_iff, List.range_eq_nil]

/-! ## What the disk holds -/

section Phases

variable {start size : Nat} {lh : LogHeader} {new C d d' : Nat → Block} {b : Nat}

/-- A block outside the log area. -/
def Home (start size b : Nat) : Prop := ¬(start ≤ b ∧ b < start + size)

/-- A header that `log_write` builds. -/
structure Recorded (start size : Nat) (lh : LogHeader) : Prop where
  home : ∀ b ∈ lh, Home start size b
  word : ∀ b ∈ lh, b < wordSize
  fits : lh.length < size
  cap : lh.length ≤ logSize

/-- The log is empty and the home blocks hold `C`. -/
structure Idle (start size : Nat) (C d : Nat → Block) : Prop where
  head : headOf (d start) = []
  home : ∀ b, Home start size b → d b = C b

/-- The header is on the disk and the log blocks hold the new contents, which some home blocks may have already. -/
structure Committed (start size : Nat) (lh : LogHeader) (new C d : Nat → Block) : Prop where
  head : headOf (d start) = lh
  slots : ∀ e ∈ lh.zipIdx, d (start + e.2 + 1) = new e.1
  mixed : ∀ b ∈ lh, d b = C b ∨ d b = new b
  other : ∀ b, Home start size b → b ∉ lh → d b = C b

/-- The contents after the transaction. -/
def installed (lh : LogHeader) (new C : Nat → Block) (b : Nat) : Block := if b ∈ lh then new b else C b

theorem Recorded.start_not_home (hr : Recorded start size lh) : ¬Home start size start := by
  have := hr.fits
  simp only [Home]; omega

theorem Recorded.slot_not_home (hr : Recorded start size lh) {e : Nat × Nat} (he : e ∈ lh.zipIdx) :
    ¬Home start size (start + e.2 + 1) := by
  have hlt := List.snd_lt_of_mem_zipIdx he
  have := hr.fits
  simp only [Home]; omega

theorem Idle.write_area (hi : Idle start size C d) {v : Block} (hb : ¬Home start size b) (hne : b ≠ start) :
    Idle start size C (update d b v) := by
  refine ⟨by rw [update_of_ne hne.symm]; exact hi.head, fun c hc => ?_⟩
  have hcb : c ≠ b := by rintro rfl; exact hb hc
  rw [update_of_ne hcb]
  exact hi.home c hc

/-- Erasing the header. -/
theorem erase_idle (hs : ¬Home start size start) (h : ∀ b, Home start size b → d b = C b) :
    Idle start size C (update d start (putHead (d start) [])) := by
  refine ⟨by rw [update_self]; exact headOf_putHead (by simp) (by simp), fun b hb => ?_⟩
  have hne : b ≠ start := by rintro rfl; exact hs hb
  rw [update_of_ne hne]
  exact h b hb

/-! ## Copying blocks -/

theorem cut_write {a : Nat} {v : Block} {p : Prog Nat Block Unit} (h : (Prog.write a v p).Cut d d') :
    d' = d ∨ p.Cut (update d a v) d' := by
  cases h with
  | here => exact .inl rfl
  | write h => exact .inr h

theorem cut_read {a : Nat} {k : Block → Prog Nat Block Unit} (h : (Prog.read a k).Cut d d') :
    d' = d ∨ (k (d a)).Cut d d' := by
  cases h with
  | here => exact .inl rfl
  | read h => exact .inr h

theorem cut_ret (h : (Prog.ret () : Prog Nat Block Unit).Cut d d') : d' = d := by
  cases h; rfl

theorem cut_writeHead (h : (writeHead start lh).Cut d d') : d' = d ∨ d' = update d start (putHead (d start) lh) := by
  rcases cut_read h with h | h
  · exact .inl h
  · exact (cut_write h).imp id cut_ret

theorem run_writeHead : ((writeHead start lh).run d).2 = update d start (putHead (d start) lh) := rfl

/-- Filling the log blocks leaves the log empty, for the header still says so. -/
theorem writeLog_cut (hr : Recorded start size lh) (hi : Idle start size C d) (h : (writeLog start new lh).Cut d d') :
    Idle start size C d' := by
  refine Prog.Cut.each (fun e he d d' hd hc => ?_) hi h
  rcases cut_read hc with rfl | hc
  · exact hd
  rcases cut_write hc with rfl | hc
  · exact hd
  · rw [cut_ret hc]
    exact hd.write_area (hr.slot_not_home he) (by omega)

theorem writeLog_run : ∀ e ∈ lh.zipIdx, ((writeLog start new lh).run d).2 (start + e.2 + 1) = new e.1 := by
  have key : ∀ e ∈ lh.zipIdx, e ∈ [] ∨ ((writeLog start new lh).run d).2 (start + e.2 + 1) = new e.1 := by
    refine Prog.run_each (I := fun ts d => ∀ e ∈ lh.zipIdx, e ∈ ts ∨ d (start + e.2 + 1) = new e.1)
      (fun t ts d ht hd e he => ?_) fun e he => .inl he
    show e ∈ ts ∨ update d (start + t.2 + 1) (new t.1) (start + e.2 + 1) = new e.1
    by_cases hidx : e.2 = t.2
    · -- the slot of index `e.2` is written once
      have hfst := List.mem_zipIdx_iff_getElem?.1 he
      rw [hidx, List.mem_zipIdx_iff_getElem?.1 ht] at hfst
      exact .inr (by rw [hidx, update_self, Option.some.inj hfst])
    · rw [update_of_ne (by omega)]
      rcases hd e he with hm | hv
      · exact .inl ((List.mem_cons.1 hm).resolve_left fun h => hidx (by rw [h]))
      · exact .inr hv
  exact fun e he => (key e he).resolve_left (by simp)

/-- Copying one log block home. -/
theorem Committed.copy (hr : Recorded start size lh) (hc : Committed start size lh new C d) {e : Nat × Nat}
    (he : e ∈ lh.zipIdx) : Committed start size lh new C (update d e.1 (d (start + e.2 + 1))) := by
  have hmem := List.fst_mem_of_mem_zipIdx he
  have harea : ∀ c, ¬Home start size c → c ≠ e.1 := by
    rintro c hn rfl
    exact hn (hr.home _ hmem)
  refine ⟨?_, fun x hx => ?_, fun b hb => ?_, fun b hb hn => ?_⟩
  · rw [update_of_ne (harea _ hr.start_not_home)]
    exact hc.head
  · rw [update_of_ne (harea _ (hr.slot_not_home hx))]
    exact hc.slots x hx
  · by_cases heb : b = e.1
    · subst heb
      exact .inr (by rw [update_self]; exact hc.slots e he)
    · rw [update_of_ne heb]
      exact hc.mixed b hb
  · have heb : b ≠ e.1 := by rintro rfl; exact hn hmem
    rw [update_of_ne heb]
    exact hc.other b hb hn

theorem install_cut (hr : Recorded start size lh) (hc : Committed start size lh new C d)
    (h : (installTrans start lh).Cut d d') : Committed start size lh new C d' := by
  refine Prog.Cut.each (fun e he d d' hd hcut => ?_) hc h
  rcases cut_read hcut with rfl | hcut
  · exact hd
  rcases cut_read hcut with rfl | hcut
  · exact hd
  rcases cut_write hcut with rfl | hcut
  · exact hd
  · rw [cut_ret hcut]
    exact hd.copy hr he

theorem install_run (hr : Recorded start size lh) (hc : Committed start size lh new C d) :
    ∀ b, Home start size b → ((installTrans start lh).run d).2 b = installed lh new C b := by
  have key : Committed start size lh new C ((installTrans start lh).run d).2 ∧
      ∀ e ∈ lh.zipIdx, e ∈ [] ∨ ((installTrans start lh).run d).2 e.1 = new e.1 := by
    refine Prog.run_each (I := fun ts d => Committed start size lh new C d ∧ ∀ e ∈ lh.zipIdx, e ∈ ts ∨ d e.1 = new e.1)
      (fun t ts d ht ⟨hd, hdone⟩ => ⟨hd.copy hr ht, fun e he => ?_⟩) ⟨hc, fun e he => .inl he⟩
    show e ∈ ts ∨ update d t.1 (d (start + t.2 + 1)) e.1 = new e.1
    by_cases hfst : e.1 = t.1
    · exact .inr (by rw [hfst, update_self]; exact hd.slots t ht)
    · rw [update_of_ne hfst]
      rcases hdone e he with hm | hv
      · exact .inl ((List.mem_cons.1 hm).resolve_left fun h => hfst (by rw [h]))
      · exact .inr hv
  intro b hb
  rw [installed]
  split
  · next hm =>
    obtain ⟨i, hi, rfl⟩ := List.mem_iff_getElem.1 hm
    exact (key.2 (lh[i], i) (List.mk_mem_zipIdx_iff_getElem?.2 (by simp [hi]))).resolve_left (by simp)
  · next hm => exact key.1.other b hb hm

/-! ## Commit and recovery -/

theorem recover_eq (start : Nat) : recoverFromLog start =
    .read start fun buf => (installTrans start (headOf buf)).bind fun _ => writeHead start [] := rfl

/-- Recovery of an empty log changes no home block. -/
theorem recover_cut_idle (hs : ¬Home start size start) (hi : Idle start size C d) (h : (recoverFromLog start).Cut d d') :
    Idle start size C d' := by
  rw [recover_eq] at h
  rcases cut_read h with rfl | h
  · exact hi
  -- `read_head` has found no entry, so `install_trans` does nothing
  rw [hi.head] at h
  rcases cut_writeHead h with rfl | rfl
  · exact hi
  · exact erase_idle hs hi.home

theorem recover_cut_committed (hr : Recorded start size lh) (hc : Committed start size lh new C d)
    (h : (recoverFromLog start).Cut d d') :
    Committed start size lh new C d' ∨ Idle start size (installed lh new C) d' := by
  rw [recover_eq] at h
  rcases cut_read h with rfl | h
  · exact .inl hc
  rw [hc.head] at h
  rcases h.bind_cases with h | h
  · exact .inl (install_cut hr hc h)
  · rcases cut_writeHead h with rfl | rfl
    · exact .inl (install_cut hr hc (Prog.cut_run _ _))
    · exact .inr (erase_idle hr.start_not_home (install_run hr hc))

theorem recover_run_committed (hr : Recorded start size lh) (hc : Committed start size lh new C d) :
    Idle start size (installed lh new C) ((recoverFromLog start).run d).2 := by
  rw [recover_eq, Prog.run, hc.head, Prog.run_bind]
  exact erase_idle hr.start_not_home (install_run hr hc)

/-- Recovery, cut short any number of times, leaves the old contents or the new ones. -/
theorem recovers_committed (hr : Recorded start size lh) (hc : Committed start size lh new C d)
    (h : Recovers (recoverFromLog start) d d') : Idle start size (installed lh new C) d' := by
  refine Recovers.post (I := fun d => Committed start size lh new C d ∨ Idle start size (installed lh new C) d)
    (fun d d' hi hcut => ?_) (fun d hi => ?_) (.inl hc) h
  · rcases hi with hi | hi
    · exact recover_cut_committed hr hi hcut
    · exact .inr (recover_cut_idle hr.start_not_home hi hcut)
  · rcases hi with hi | hi
    · exact recover_run_committed hr hi
    · exact recover_cut_idle hr.start_not_home hi (Prog.cut_run _ _)

theorem recovers_idle (hs : ¬Home start size start) (hi : Idle start size C d)
    (h : Recovers (recoverFromLog start) d d') : Idle start size C d' :=
  Recovers.post (I := Idle start size C) (fun _ _ hi => recover_cut_idle hs hi)
    (fun _ hi => recover_cut_idle hs hi (Prog.cut_run _ _)) hi h

/-- Writing the header is the point at which the transaction commits. -/
theorem writeHead_committed (hr : Recorded start size lh) (hi : Idle start size C d)
    (hslots : ∀ e ∈ lh.zipIdx, d (start + e.2 + 1) = new e.1) :
    Committed start size lh new C (update d start (putHead (d start) lh)) := by
  have hne : ∀ b, Home start size b → b ≠ start := by
    rintro b hb rfl
    exact hr.start_not_home hb
  refine ⟨by rw [update_self]; exact headOf_putHead hr.cap hr.word, fun e he => ?_, fun b hb => ?_, fun b hb _ => ?_⟩
  · rw [update_of_ne (by omega)]
    exact hslots e he
  · rw [update_of_ne (hne b (hr.home b hb))]
    exact .inl (hi.home b (hr.home b hb))
  · rw [update_of_ne (hne b hb)]
    exact hi.home b hb

/-- Where a commit can be cut: before its header is written, while it installs, or when it is done. -/
theorem commit_cut (hr : Recorded start size lh) (hi : Idle start size C d) (h : (commit start new lh).Cut d d') :
    Idle start size C d' ∨ Committed start size lh new C d' ∨ Idle start size (installed lh new C) d' := by
  unfold commit at h
  split at h
  case isFalse => rw [cut_ret h]; exact .inl hi
  rcases Prog.Cut.bind_cases h with h | h
  · exact .inl (writeLog_cut hr hi h)
  have hlog := writeLog_cut hr hi (Prog.cut_run (writeLog start new lh) d)
  have hcom : Committed start size lh new C _ := writeHead_committed hr hlog writeLog_run
  rcases Prog.Cut.bind_cases h with h | h
  · rcases cut_writeHead h with rfl | rfl
    · exact .inl hlog
    · exact .inr (.inl hcom)
  rw [run_writeHead] at h
  rcases Prog.Cut.bind_cases h with h | h
  · exact .inr (.inl (install_cut hr hcom h))
  rcases cut_writeHead h with rfl | rfl
  · exact .inr (.inl (install_cut hr hcom (Prog.cut_run _ _)))
  · exact .inr (.inr (erase_idle hr.start_not_home (install_run hr hcom)))

end Phases

/-! ## Sessions -/

/-- The calls of `log_write` of one transaction. -/
def logWrites (bs : List Nat) (lg : Log) : Except Stuck Log := bs.foldlM (fun lg b => logWrite b lg) lg

section Sessions

variable {start size : Nat} {lg lg' : Log} {bs : List Nat} {new d d₁ d₂ : Nat → Block}

/-- What `log_write` has kept of a transaction's blocks. -/
theorem logWrites_ok : ∀ {bs : List Nat} {lg : Log}, logWrites bs lg = .ok lg' →
    lg'.start = lg.start ∧ lg'.size = lg.size ∧ (∀ b, b ∈ lg'.lh ↔ b ∈ lg.lh ∨ b ∈ bs) ∧
      (lg.lh.length ≤ logSize → lg'.lh.length ≤ logSize) ∧ (lg.lh.length < lg.size → lg'.lh.length < lg.size)
  | [], lg, h => by cases h; simp
  | b :: bs, lg, h => by
    rw [logWrites, List.foldlM_cons] at h
    obtain ⟨lg₁, hw, h⟩ := bind_eq_ok.1 h
    have h : logWrites bs lg₁ = .ok lg' := h
    obtain ⟨hstart, hsize, hmem, hcap, hfits⟩ := logWrites_ok h
    obtain ⟨_, hcheck, hw⟩ := bind_eq_ok.1 hw
    cases hw
    have hlen : lg.lh.length < logSize ∧ lg.lh.length + 1 < lg.size := by
      unfold logCheck at hcheck
      split at hcheck
      · cases hcheck
      · omega
    have hrec : (logRecord lg.lh b).length ≤ lg.lh.length + 1 := by
      unfold logRecord; split <;> simp
    have hmem' : ∀ c, c ∈ logRecord lg.lh b ↔ c ∈ lg.lh ∨ c = b := by
      intro c
      unfold logRecord
      split
      · next hb => exact ⟨.inl, fun h => h.elim id fun e => e ▸ hb⟩
      · simp
    refine ⟨hstart, hsize, fun c => ?_, fun _ => hcap ?_, fun _ => hfits ?_⟩
    · rw [hmem, hmem', List.mem_cons, or_assoc]
    · show (logRecord lg.lh b).length ≤ logSize
      omega
    · show (logRecord lg.lh b).length < lg.size
      omega

/-- A transaction begins with an empty log and writes blocks outside the log area. -/
structure Transacts (lg : Log) (bs : List Nat) (lg' : Log) : Prop where
  empty : lg.lh = []
  room : 0 < lg.size
  home : ∀ b ∈ bs, Home lg.start lg.size b
  word : ∀ b ∈ bs, b < wordSize
  writes : logWrites bs lg = .ok lg'

theorem Transacts.recorded (h : Transacts lg bs lg') : Recorded lg.start lg.size lg'.lh ∧ ∀ b, b ∈ lg'.lh ↔ b ∈ bs := by
  obtain ⟨-, -, hmem, hcap, hfits⟩ := logWrites_ok h.writes
  have hmem' : ∀ b, b ∈ lg'.lh ↔ b ∈ bs := fun b => by rw [hmem, h.empty]; simp
  refine ⟨⟨fun b hb => h.home b ((hmem' b).1 hb), fun b hb => h.word b ((hmem' b).1 hb), hfits ?_, hcap ?_⟩, hmem'⟩ <;>
    rw [h.empty]
  · exact h.room
  · exact Nat.zero_le _

/-- The disk between transactions: an image with an empty log, on which transactions are committed one after
the other, each with its own blocks and contents, or cut short and recovered from. -/
inductive Session (start size : Nat) : (Nat → Block) → Prop
  | image {d : Nat → Block} : headCount (d start) = 0 → Session start size d
  | commits {d : Nat → Block} {lg lg' : Log} {bs : List Nat} (new : Nat → Block) : Session start size d →
      lg.start = start → lg.size = size → Transacts lg bs lg' → Session start size ((commit start new lg'.lh).run d).2
  | recovers {d d₁ d₂ : Nat → Block} {lg lg' : Log} {bs : List Nat} (new : Nat → Block) : Session start size d →
      lg.start = start → lg.size = size → Transacts lg bs lg' → (commit start new lg'.lh).Cut d d₁ →
      Recovers (recoverFromLog start) d₁ d₂ → Session start size d₂

/-- What recovery makes of a commit that was cut short. -/
theorem cut_recovers (hd : Idle start size d d) {lh : LogHeader} (hr : Recorded start size lh)
    (hcut : (commit start new lh).Cut d d₁) (hrec : Recovers (recoverFromLog start) d₁ d₂) :
    Idle start size d d₂ ∨ Idle start size (installed lh new d) d₂ := by
  rcases commit_cut hr hd hcut with hi | hc | hi
  · exact .inl (recovers_idle hr.start_not_home hi hrec)
  · exact .inr (recovers_committed hr hc hrec)
  · exact .inr (recovers_idle hr.start_not_home hi hrec)

theorem commit_run (hd : Idle start size d d) {lh : LogHeader} (hr : Recorded start size lh) :
    Idle start size (installed lh new d) ((commit start new lh).run d).2 := by
  unfold commit
  split
  case isFalse hn =>
    obtain rfl : lh = [] := by simpa using hn
    exact ⟨hd.head, fun b _ => by simp [installed, Prog.run]⟩
  have hlog := writeLog_cut hr hd (Prog.cut_run (writeLog start new lh) d)
  have hcom : Committed start size lh new d _ := writeHead_committed hr hlog writeLog_run
  show Idle start size _ (((writeLog start new lh).bind fun _ => (writeHead start lh).bind fun _ =>
    (installTrans start lh).bind fun _ => writeHead start []).run d).2
  rw [Prog.run_bind, Prog.run_bind, Prog.run_bind]
  exact erase_idle hr.start_not_home (install_run hr hcom)

theorem Session.idle (h : Session start size d) : Idle start size d d := by
  have key : headOf (d start) = [] := by
    induction h with
    | image h0 => exact headCount_eq_zero.1 h0
    | commits new _ hs hz ht ih =>
      subst hs hz
      exact (commit_run ⟨ih, fun _ _ => rfl⟩ ht.recorded.1).head
    | recovers new _ hs hz ht hcut hrec ih =>
      subst hs hz
      rcases cut_recovers ⟨ih, fun _ _ => rfl⟩ ht.recorded.1 hcut hrec with hi | hi <;> exact hi.head
  exact ⟨key, fun _ _ => rfl⟩

/-- Transactions are atomic across power failures. -/
theorem commit_atomic (hd : Session lg.start lg.size d) (ht : Transacts lg bs lg')
    (hcut : (commit lg.start new lg'.lh).Cut d d₁) (hrec : Recovers (recoverFromLog lg.start) d₁ d₂) :
    ((∀ b ∈ bs, d₂ b = d b) ∨ (∀ b ∈ bs, d₂ b = new b)) ∧
      (∀ b, Home lg.start lg.size b → b ∉ bs → d₂ b = d b) ∧ headCount (d₂ lg.start) = 0 := by
  obtain ⟨hr, hmem⟩ := ht.recorded
  rcases cut_recovers hd.idle hr hcut hrec with hi | hi
  · exact ⟨.inl fun b hb => hi.home b (ht.home b hb), fun b hb _ => hi.home b hb, headCount_eq_zero.2 hi.head⟩
  · refine ⟨.inr fun b hb => ?_, fun b hb hn => ?_, headCount_eq_zero.2 hi.head⟩
    · rw [hi.home b (ht.home b hb), installed, if_pos ((hmem b).2 hb)]
    · rw [hi.home b hb, installed, if_neg fun h => hn ((hmem b).1 h)]

/-- Two blocks are logged on an empty image and the power fails after the first log block has been written. -/
theorem commit_atomic_first_block :
    let zero : Nat → Block := fun _ _ => 0
    let lg : Log := ⟨2, 30, 1, false, []⟩
    Transacts lg [100, 200] { lg with lh := [100, 200] } ∧
      (commit 2 (fun _ _ => 1) [100, 200]).Cut zero (update zero 3 fun _ => 1) ∧
      headCount (((recoverFromLog 2).run (update zero 3 fun _ => 1)).2 2) = 0 := by
  have ht : Transacts ⟨2, 30, 1, false, []⟩ [100, 200] ⟨2, 30, 1, false, [100, 200]⟩ :=
    ⟨rfl, by decide, by simp [Home], by decide, rfl⟩
  have hcut : (commit 2 (fun _ _ => 1) [100, 200]).Cut (fun _ _ => 0) (update (fun _ _ => 0) 3 fun _ => 1) :=
    .read (.write (.here _ _))
  exact ⟨ht, hcut, (commit_atomic (.image (by decide)) ht hcut (.completes _)).2.2⟩

end Sessions

end DemandPaging.FileSys
