/-
The loop of `grep.c` over what `read` returns. The rest of a buffer after its last newline is carried
over to the next round, but a buffer without a newline is dropped, so that the output is right for
every pattern iff no read that shows no newline comes before one that does.
-/
import DemandPaging.Lib.Bytes
import DemandPaging.Lib.Lines
import DemandPaging.User.Matcher

namespace DemandPaging.User

open Bytes Lines

/-! ## The program -/

/-- `sizeof(buf)`. -/
abbrev grepBuf : Nat := 1024

abbrev newline : UInt8 := '\n'.toUInt8

/-- The loop over the lines in the buffer, from `p` on. `out` is what has been written. -/
def lineLoop (pattern : List UInt8) : Nat → List UInt8 → Nat → List UInt8 → Option (List UInt8 × Nat × List UInt8)
  | 0, _, _, _ => none
  | fuel + 1, buf, p, out =>
    match strchr (buf.drop p) newline with
    | none => some (buf, p, out)
    | some d =>
      let q := p + d
      let buf := writeAt buf q [0]
      if matchRe pattern (buf.drop p) then
        let buf := writeAt buf q [newline]
        lineLoop pattern fuel buf (q + 1) (out ++ (buf.drop p).take (q + 1 - p))
      else lineLoop pattern fuel buf (q + 1) out

structure GrepState where
  buf : List UInt8
  /-- Bytes of the buffer in use. -/
  m : Nat
  out : List UInt8

/-- The end of a round: what stands from `p` on is moved to the start of the buffer, but a buffer without a newline is emptied. -/
def keepRest (buf : List UInt8) (p m : Nat) (out : List UInt8) : GrepState :=
  let m := if p = 0 then 0 else m
  if 0 < m then ⟨writeAt buf 0 ((buf.drop p).take (m - p)), m - p, out⟩ else ⟨buf, m, out⟩

/-- A round of the loop of `grep`, in which `read` has returned the bytes of `chunk`. -/
def grepRound (pattern : List UInt8) (s : GrepState) (chunk : List UInt8) : Option GrepState := do
  let m := s.m + chunk.length
  let buf := writeAt (writeAt s.buf s.m chunk) m [0]
  let (buf, p, out) ← lineLoop pattern grepBuf buf 0 s.out
  return keepRest buf p m out

/-- `grep`, where `chunks` are the results of `read` until the end of the file. What the buffer holds at the start is left over
from the file before. -/
def grep (pattern buf : List UInt8) (chunks : List (List UInt8)) : Option (List UInt8) :=
  (chunks.foldlM (grepRound pattern) ⟨buf, 0, []⟩).map GrepState.out

/-- Every `read` returns at least one byte, and no more than it was asked for. -/
def Fits (pattern : List UInt8) : GrepState → List (List UInt8) → Prop
  | _, [] => True
  | s, chunk :: chunks => chunk ≠ [] ∧ chunk.length ≤ grepBuf - s.m - 1 ∧
    ∀ s', grepRound pattern s chunk = some s' → Fits pattern s' chunks

/-! ## One round -/

section Round

variable {pattern t chunk text A B out : List UInt8} {s : GrepState}

/-- The loop writes the lines of the text that match, and stops at the rest. -/
theorem lineLoop_eq (pattern B : List UInt8) : ∀ {fuel : Nat} (A out : List UInt8), 0 ∉ text → text.length < fuel →
    ∃ A', lineLoop pattern fuel (A ++ (text ++ 0 :: B)) A.length out =
      some (A' ++ (rest newline text ++ 0 :: B), A'.length, out ++ joined newline ((complete newline text).filter (matchRe pattern))) ∧
      A'.length + (rest newline text).length = A.length + text.length := by
  induction text using (Lines.induct newline) with
  | hrest l h =>
    intro fuel A out h0 hfuel
    obtain ⟨fuel, rfl⟩ := Nat.exists_eq_succ_of_ne_zero (Nat.ne_of_gt (Nat.zero_lt_of_lt hfuel))
    refine ⟨A, ?_, by rw [rest_of_not_mem h]⟩
    rw [lineLoop, List.drop_left, strchr_nul B h, complete_of_not_mem h, rest_of_not_mem h]
    simp [joined]
  | hline x l h ih =>
    intro fuel A out h0 hfuel
    obtain ⟨fuel, rfl⟩ := Nat.exists_eq_succ_of_ne_zero (Nat.ne_of_gt (Nat.zero_lt_of_lt hfuel))
    simp only [List.mem_append, List.mem_cons, not_or] at h0
    obtain ⟨hx0, -, hl0⟩ := h0
    have hlen : (x ++ newline :: l).length = x.length + l.length + 1 := by simp; omega
    rw [hlen] at hfuel
    -- the line with the byte after it replaced
    have hput : ∀ b c : UInt8, writeAt (A ++ (x ++ b :: (l ++ 0 :: B))) (A.length + x.length) [c] = A ++ (x ++ c :: (l ++ 0 :: B)) := by
      intro b c
      have h1 : (A ++ (x ++ b :: (l ++ 0 :: B))).take (A.length + x.length) = A ++ x := by
        rw [← List.append_assoc, ← List.length_append, List.take_left]
      have h2 : (A ++ (x ++ b :: (l ++ 0 :: B))).drop (A.length + x.length + [c].length) = l ++ 0 :: B := by
        rw [← List.append_assoc, List.drop_append, List.drop_of_length_le (by simp)]
        simp
      rw [writeAt, h1, h2]
      simp
    have hnext : ∀ c : UInt8, A ++ (x ++ c :: (l ++ 0 :: B)) = (A ++ (x ++ [c])) ++ (l ++ 0 :: B) := by simp
    have hpos : ∀ c : UInt8, A.length + x.length + 1 = (A ++ (x ++ [c])).length := by simp; omega
    have htext : x ++ newline :: l ++ 0 :: B = x ++ newline :: (l ++ 0 :: B) := by simp
    rw [lineLoop, htext, List.drop_left, strchr_append (by decide) _ hx0 h]
    dsimp only
    rw [hput, List.drop_left, matchRe_nul, complete_line h, rest_line h, List.filter_cons]
    split
    · rw [hput, List.drop_left, Nat.sub_eq_of_eq_add (show _ = (x.length + 1) + A.length by omega), hnext newline, hpos newline]
      have htake : (x ++ newline :: (l ++ 0 :: B)).take (x.length + 1) = x ++ [newline] := by
        rw [List.take_append, List.take_of_length_le (Nat.le_succ _)]
        simp
      obtain ⟨A', hrun, hA'⟩ := ih (A ++ (x ++ [newline])) (out ++ (x ++ [newline])) hl0 (show l.length < fuel by omega)
      refine ⟨A', ?_, by rw [hA', hlen]; simp; omega⟩
      rw [htake, hrun, joined_cons, List.append_assoc out]
    · rw [hnext 0, hpos 0]
      obtain ⟨A', hrun, hA'⟩ := ih (A ++ (x ++ [0])) out hl0 (show l.length < fuel by omega)
      exact ⟨A', hrun, by rw [hA', hlen]; simp; omega⟩

/-- The bytes that a round hands on to the next. -/
def carried (t chunk : List UInt8) : List UInt8 := if newline ∈ chunk then rest newline (t ++ chunk) else []

/-- The state between two rounds: the buffer starts with the text carried over. -/
structure Carries (s : GrepState) (t : List UInt8) : Prop where
  size : s.buf.length = grepBuf
  used : s.m = t.length
  text : t <+: s.buf
  line : newline ∉ t
  nul : 0 ∉ t

theorem length_rest_lt (h : newline ∈ text) : (rest newline text).length < text.length := by
  have hl := congrArg List.length (joined_complete newline text)
  obtain ⟨x, ls, hls⟩ := List.exists_cons_of_ne_nil (complete_ne_nil h)
  rw [List.length_append, hls, joined, List.flatMap_cons, List.length_append, List.length_append, List.length_singleton] at hl
  omega

/-- The buffer after a `read`. -/
theorem Carries.read (h : Carries s t) (hlen : chunk.length ≤ grepBuf - s.m - 1) (hroom : t.length < grepBuf) :
    ∃ B, writeAt (writeAt s.buf s.m chunk) (s.m + chunk.length) [0] = t ++ chunk ++ 0 :: B ∧
      (t ++ chunk ++ 0 :: B).length = grepBuf := by
  obtain ⟨R, hR⟩ := h.text
  have hle : s.m ≤ s.buf.length := by
    rw [h.used, ← hR, List.length_append]
    exact Nat.le_add_right _ _
  have hB : writeAt (writeAt s.buf s.m chunk) (s.m + chunk.length) [0] = t ++ chunk ++ 0 :: R.drop (chunk.length + 1) := by
    rw [writeAt_writeAt hle, writeAt, ← hR, h.used, List.take_left, List.length_append, List.length_singleton, List.drop_append,
      List.drop_of_length_le (Nat.le_add_right _ _), Nat.add_sub_cancel_left]
    simp
  refine ⟨R.drop (chunk.length + 1), hB, ?_⟩
  rw [← hB, writeAt_writeAt hle, length_writeAt hle, h.size, List.length_append, List.length_singleton]
  rw [h.used] at hlen ⊢
  omega

/-- What stands after the lines of the buffer is moved to its start. -/
theorem keepRest_line (hA : A ≠ []) : keepRest (A ++ (text ++ 0 :: B)) A.length (A.length + text.length) out =
    ⟨writeAt (A ++ (text ++ 0 :: B)) 0 text, text.length, out⟩ := by
  have hpos : A.length ≠ 0 := fun h => hA (List.length_eq_zero_iff.1 h)
  rw [keepRest, if_neg hpos, if_pos (by omega), Nat.add_sub_cancel_left, List.drop_left, List.take_left]

/-- A round writes the lines that it sees in the text carried over and the new one. -/
theorem Carries.round (pattern : List UInt8) (h : Carries s t) (h0 : 0 ∉ chunk) (hlen : chunk.length ≤ grepBuf - s.m - 1) (hroom : t.length < grepBuf) :
    ∃ s', grepRound pattern s chunk = some s' ∧ Carries s' (carried t chunk) ∧
      s'.out = s.out ++ joined newline ((complete newline (t ++ chunk)).filter (matchRe pattern)) := by
  obtain ⟨B, hB, hsize⟩ := h.read hlen hroom
  have ht0 : 0 ∉ t ++ chunk := by simp [h.nul, h0]
  have hfuel : (t ++ chunk).length < grepBuf := by
    rw [List.length_append, List.length_cons] at hsize
    omega
  obtain ⟨A, hrun, hA⟩ := lineLoop_eq pattern B [] s.out ht0 hfuel
  rw [List.length_nil, Nat.zero_add] at hA
  have hround : grepRound pattern s chunk = some (keepRest (A ++ (rest newline (t ++ chunk) ++ 0 :: B)) A.length (s.m + chunk.length)
      (s.out ++ joined newline ((complete newline (t ++ chunk)).filter (matchRe pattern)))) := by
    unfold grepRound
    dsimp only
    rw [hB]
    exact congrArg (· >>= _) hrun
  rw [h.used, ← List.length_append, ← hA] at hround
  refine ⟨_, hround, ?_⟩
  by_cases hnl : newline ∈ chunk
  · have hpos := length_rest_lt (List.mem_append_right t hnl)
    have hne : A ≠ [] := by
      rintro rfl
      rw [List.length_nil] at hA
      omega
    have hrest0 : 0 ∉ rest newline (t ++ chunk) := fun hmem => ht0 (by
      rw [← joined_complete newline (t ++ chunk)]
      exact List.mem_append_right _ hmem)
    rw [keepRest_line hne, carried, if_pos hnl]
    refine ⟨⟨?_, rfl, ?_, not_mem_rest _ _, hrest0⟩, rfl⟩
    · rw [length_writeAt (Nat.zero_le _)]
      simp only [List.length_append, List.length_cons] at hA hsize ⊢
      omega
    · exact ⟨_, by rw [writeAt, List.take_zero, List.nil_append]⟩
  · have hmem : newline ∉ t ++ chunk := by simp [h.line, hnl]
    rw [rest_of_not_mem hmem] at hA ⊢
    obtain rfl : A = [] := List.length_eq_zero_iff.1 (by omega)
    rw [carried, if_neg hnl]
    exact ⟨⟨hsize, rfl, List.nil_prefix, List.not_mem_nil, List.not_mem_nil⟩, rfl⟩

theorem Carries.init {buf : List UInt8} (h : buf.length = grepBuf) : Carries ⟨buf, 0, []⟩ [] :=
  ⟨h, rfl, List.nil_prefix, List.not_mem_nil, List.not_mem_nil⟩

/-- The text carried over leaves room for the next read. -/
theorem carried_lt (h : (t ++ chunk).length < grepBuf) : (carried t chunk).length < grepBuf := by
  rw [carried]
  split
  · next hnl => exact (length_rest_lt (List.mem_append_right t hnl)).trans h
  · simp

end Round

/-! ## The whole input -/

section Run

variable {t : List UInt8} {chunks : List (List UInt8)}

/-- The lines as the rounds see them. -/
def seen : List UInt8 → List (List UInt8) → List (List UInt8)
  | _, [] => []
  | t, chunk :: chunks => complete newline (t ++ chunk) ++ seen (carried t chunk) chunks

theorem Carries.run {pattern : List UInt8} : ∀ {chunks : List (List UInt8)} {s : GrepState} {t : List UInt8}, Carries s t →
    t.length < grepBuf → (∀ c ∈ chunks, 0 ∉ c) → Fits pattern s chunks →
    ∃ s', chunks.foldlM (grepRound pattern) s = some s' ∧ s'.out = s.out ++ joined newline ((seen t chunks).filter (matchRe pattern))
  | [], s, t, _, _, _, _ => ⟨s, rfl, by simp [seen, joined]⟩
  | chunk :: chunks, s, t, h, hroom, h0, hfit => by
    obtain ⟨-, hlen, hnext⟩ := hfit
    obtain ⟨hc0, hcs0⟩ := List.forall_mem_cons.1 h0
    obtain ⟨s₁, hround, h₁, hout₁⟩ := h.round pattern hc0 hlen hroom
    have hlt : (t ++ chunk).length < grepBuf := by
      rw [h.used] at hlen
      rw [List.length_append]
      omega
    obtain ⟨s', hrun, hout⟩ := h₁.run (carried_lt hlt) hcs0 (hnext s₁ hround)
    refine ⟨s', ?_, ?_⟩
    · rw [List.foldlM_cons, hround]
      exact hrun
    · rw [hout, hout₁, seen, List.filter_append, joined_append, List.append_assoc]

theorem not_mem_seen : ∀ {chunks : List (List UInt8)} {t x : List UInt8}, x ∈ seen t chunks → newline ∉ x
  | [], _, _, h => absurd h List.not_mem_nil
  | _ :: _, _, _, h => by
    rcases List.mem_append.1 h with h | h
    · exact not_mem_complete _ _ _ h
    · exact not_mem_seen h

/-- The bytes in a list of lines. -/
def total (ls : List (List UInt8)) : Nat := (ls.map List.length).sum

theorem total_append (ls ls' : List (List UInt8)) : total (ls ++ ls') = total ls + total ls' := by
  rw [total, List.map_append, List.sum_append, total, total]

/-- A longer beginning makes the first line longer. -/
theorem total_complete_append {x l : List UInt8} (hx : newline ∉ x) (hl : newline ∈ l) :
    total (complete newline (x ++ l)) = x.length + total (complete newline l) := by
  obtain ⟨y, l', rfl, hy⟩ := List.eq_append_cons_of_mem hl
  have hxy : newline ∉ x ++ y := by simp [hx, hy]
  rw [← List.append_assoc, complete_line hxy, complete_line hy]
  simp only [total, List.map_cons, List.sum_cons, List.length_append]
  omega

/-- Nothing is added to the lines. -/
theorem total_seen_le : ∀ {chunks : List (List UInt8)} {t : List UInt8}, newline ∉ t →
    total (seen t chunks) ≤ total (complete newline (t ++ chunks.flatten))
  | [], _, _ => Nat.zero_le _
  | chunk :: chunks, t, ht => by
    rw [seen, total_append, List.flatten_cons, ← List.append_assoc, complete_append (t ++ chunk), total_append]
    refine Nat.add_le_add_left ?_ _
    by_cases hnl : newline ∈ chunk
    · rw [carried, if_pos hnl]
      exact total_seen_le (not_mem_rest _ _)
    · have hmem : newline ∉ t ++ chunk := by simp [ht, hnl]
      rw [carried, if_neg hnl, rest_of_not_mem hmem]
      refine (total_seen_le List.not_mem_nil).trans ?_
      rw [List.nil_append]
      by_cases hl : newline ∈ chunks.flatten
      · rw [total_complete_append hmem hl]
        exact Nat.le_add_left _ _
      · rw [complete_of_not_mem hl]
        exact Nat.zero_le _

/-- The lines are seen as they are iff no chunk without a newline comes before one that has one. -/
theorem seen_eq_iff : ∀ {chunks : List (List UInt8)} {t : List UInt8}, newline ∉ t → (∀ c ∈ chunks, c ≠ []) →
    (seen t chunks = complete newline (t ++ chunks.flatten) ↔ chunks.Pairwise fun c d => newline ∈ d → newline ∈ c)
  | [], t, ht, _ => by
    refine iff_of_true ?_ .nil
    rw [seen, List.flatten_nil, List.append_nil, complete_of_not_mem ht]
  | chunk :: chunks, t, ht, hne => by
    obtain ⟨hc, hcs⟩ := List.forall_mem_cons.1 hne
    rw [seen, List.flatten_cons, ← List.append_assoc, complete_append (t ++ chunk), List.append_cancel_left_eq, List.pairwise_cons]
    by_cases hnl : newline ∈ chunk
    · rw [carried, if_pos hnl, seen_eq_iff (not_mem_rest _ _) hcs]
      exact ⟨fun h => ⟨fun _ _ _ => hnl, h⟩, fun h => h.2⟩
    · have hmem : newline ∉ t ++ chunk := by simp [ht, hnl]
      rw [carried, if_neg hnl, rest_of_not_mem hmem]
      by_cases hl : newline ∈ chunks.flatten
      · -- the chunk is gone when its line ends
        obtain ⟨d, hd, hnd⟩ := List.mem_flatten.1 hl
        refine iff_of_false ?_ fun h => hnl (h.1 d hd hnd)
        intro heq
        have hle : total (seen [] chunks) ≤ total (complete newline ([] ++ chunks.flatten)) := total_seen_le List.not_mem_nil
        rw [heq, List.nil_append, total_complete_append hmem hl, List.length_append] at hle
        exact hc (List.length_eq_zero_iff.1 (by omega))
      · have hnone : ∀ d ∈ chunks, newline ∉ d := fun d hd hnd => hl (List.mem_flatten.2 ⟨d, hd, hnd⟩)
        have hpw : chunks.Pairwise fun c d => newline ∈ d → newline ∈ c :=
          List.pairwise_of_forall_mem_list fun c _ d hd hnd => absurd hnd (hnone d hd)
        refine iff_of_true ?_ ⟨fun d hd hnd => absurd hnd (hnone d hd), hpw⟩
        rw [(seen_eq_iff List.not_mem_nil hcs).2 hpw, List.nil_append, complete_of_not_mem hl,
          complete_of_not_mem fun hm => (List.mem_append.1 hm).elim hmem hl]

theorem matchRe_nil (text : List UInt8) : matchRe [] text = true := by
  cases text <;> rfl

theorem Fits.nonempty {pattern : List UInt8} : ∀ {chunks : List (List UInt8)} {s : GrepState} {t : List UInt8}, Carries s t →
    t.length < grepBuf → (∀ c ∈ chunks, 0 ∉ c) → Fits pattern s chunks → ∀ c ∈ chunks, c ≠ []
  | [], _, _, _, _, _, _ => fun _ hc => absurd hc List.not_mem_nil
  | chunk :: chunks, s, t, h, hroom, h0, hfit => by
    obtain ⟨hne, hlen, hnext⟩ := hfit
    obtain ⟨hc0, hcs0⟩ := List.forall_mem_cons.1 h0
    obtain ⟨s₁, hround, h₁, -⟩ := h.round pattern hc0 hlen hroom
    have hlt : (t ++ chunk).length < grepBuf := by
      rw [h.used] at hlen
      rw [List.length_append]
      omega
    exact List.forall_mem_cons.2 ⟨hne, Fits.nonempty h₁ (carried_lt hlt) hcs0 (hnext s₁ hround)⟩

/-- An input smaller than the buffer can come in any parts. -/
theorem fits_of_small {pattern : List UInt8} : ∀ {chunks : List (List UInt8)} {s : GrepState} {t : List UInt8}, Carries s t →
    (∀ c ∈ chunks, 0 ∉ c) → (∀ c ∈ chunks, c ≠ []) → t.length + chunks.flatten.length < grepBuf → Fits pattern s chunks
  | [], _, _, _, _, _, _ => trivial
  | chunk :: chunks, s, t, h, h0, hne, hlen => by
    obtain ⟨hc0, hcs0⟩ := List.forall_mem_cons.1 h0
    obtain ⟨hc, hcs⟩ := List.forall_mem_cons.1 hne
    rw [List.flatten_cons, List.length_append] at hlen
    have hle : chunk.length ≤ grepBuf - s.m - 1 := by rw [h.used]; omega
    refine ⟨hc, hle, fun s₁ hround => ?_⟩
    obtain ⟨s', hround', h', -⟩ := h.round pattern hc0 hle (by omega)
    cases hround.symm.trans hround'
    refine fits_of_small h' hcs0 hcs (lt_of_le_of_lt (Nat.add_le_add_right ?_ _) (show t.length + chunk.length + _ < grepBuf by omega))
    rw [carried]
    split
    · next hnl =>
      rw [← List.length_append]
      exact (length_rest_lt (List.mem_append_right t hnl)).le
    · exact Nat.zero_le _

/-- Whatever the pattern, `grep` writes the lines that match, iff no read without a newline comes before one with a newline. -/
theorem grep_chunks_iff {buf : List UInt8} (hbuf : buf.length = grepBuf) (h0 : ∀ c ∈ chunks, 0 ∉ c)
    (hfit : ∀ pattern, Fits pattern ⟨buf, 0, []⟩ chunks) :
    (∀ pattern, 0 ∉ pattern →
      grep pattern buf chunks = some (joined newline ((complete newline chunks.flatten).filter (matchRe pattern)))) ↔
    chunks.Pairwise fun c d => newline ∈ d → newline ∈ c := by
  have hrun : ∀ pattern, grep pattern buf chunks = some (joined newline ((seen [] chunks).filter (matchRe pattern))) := by
    intro pattern
    obtain ⟨s', hrun, hout⟩ := (Carries.init hbuf).run (by decide) h0 (hfit pattern)
    rw [grep, hrun, Option.map_some, hout, List.nil_append]
  have hiff := seen_eq_iff (t := []) List.not_mem_nil (Fits.nonempty (Carries.init hbuf) (by decide) h0 (hfit []))
  rw [← hiff, List.nil_append]
  constructor
  · -- the empty pattern matches every line
    intro h
    have heq := (hrun []).symm.trans (h [] List.not_mem_nil)
    rw [Option.some.injEq, List.filter_eq_self.2 fun x _ => matchRe_nil x, List.filter_eq_self.2 fun x _ => matchRe_nil x] at heq
    rw [← complete_joined fun x hx => not_mem_seen hx, heq, complete_joined (not_mem_complete _ _)]
  · intro heq pattern _
    rw [hrun, heq]

/-- Two lines in two reads. -/
theorem grep_chunks_two : grep [97] (List.replicate grepBuf 0) [[97, 10], [98, 10]] = some [97, 10] := by
  have h : grep [97] (List.replicate grepBuf 0) [[97, 10], [98, 10]] = _ :=
    (grep_chunks_iff List.length_replicate (by decide) fun _ =>
      fits_of_small (Carries.init List.length_replicate) (by decide) (by decide) (by decide)).2 (by decide) [97] (by decide)
  rw [h]
  decide

/-- One line in two reads, the first without the newline: nothing is written. -/
theorem grep_loses_line : (∀ pattern, Fits pattern ⟨List.replicate grepBuf 0, 0, []⟩ [[97], [98, 10]]) ∧
    grep [97] (List.replicate grepBuf 0) [[97], [98, 10]] = some [] ∧
    joined newline ((complete newline [97, 98, 10]).filter (matchRe [97])) = [97, 98, 10] := by
  refine ⟨fun _ => fits_of_small (Carries.init List.length_replicate) (by decide) (by decide) (by decide), ?_, by decide⟩
  decide +kernel

end Run

end DemandPaging.User
