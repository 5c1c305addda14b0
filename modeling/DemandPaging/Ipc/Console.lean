/-
The input side of `console.c`, used by any number of readers. The steps are the parts of a call that
hold `cons.lock`: a whole `consoleintr`, and `consoleread` up to its return or to a `sleep`. A line
editor without buffer or indices says which characters are committed; the readers get these, in
order, also when the indices wrap.
-/
import DemandPaging.Ipc.Pipe

namespace DemandPaging.Console

open Ipc (Exit)

/-! ## The code -/

/-- `INPUT_BUF`. -/
abbrev inputBuf : Nat := 128

local instance neZeroInputBuf : NeZero inputBuf := ⟨by decide⟩

/-- `C(x)`. -/
abbrev ctrl (x : Char) : UInt8 := x.toUInt8 - '@'.toUInt8

abbrev newline : UInt8 := '\n'.toUInt8

abbrev del : UInt8 := 0x7f

/-- `input`: `nread` is the read index `r`, `nwrite` the edit index `e`. -/
structure Input extends Circular UInt8 32 inputBuf where
  w : BitVec 32

def Input.erase (i : Input) : Input := { i with toCircular := i.back }

def Input.store (i : Input) (c : UInt8) : Input := { i with toCircular := i.put c }

def Input.next (i : Input) : Input := { i with toCircular := i.take }

/-- The loop of `C('U')`. It is run for as many rounds as there are characters after `w`, and ends there. -/
def killLoop : Nat → Input → Input
  | 0, i => i
  | n + 1, i => if i.nwrite ≠ i.w ∧ i.last ≠ newline then killLoop n i.erase else i

/-- The body of the loop of `consoleintr`, for the character that `getc` has returned. -/
def typed (i : Input) (c : UInt8) : Input :=
  if c = ctrl 'P' then i
  else if c = ctrl 'U' then killLoop (i.nwrite - i.w).toNat i
  else if c = ctrl 'H' ∨ c = del then if i.nwrite ≠ i.w then i.erase else i
  else if c ≠ 0 ∧ (i.nwrite - i.nread).toNat < inputBuf then
    let c := if c = '\r'.toUInt8 then newline else c
    let i := i.store c
    if c = newline ∨ c = ctrl 'D' ∨ i.nwrite = i.nread + BitVec.ofNat 32 inputBuf then { i with w := i.nwrite } else i
  else i

/-- `consoleintr`, for the characters that `getc` returns. -/
def consoleintr (cs : List UInt8) (i : Input) : Input := cs.foldl typed i

/-- A part of a call of `consoleread` that holds the lock: how it ends, the bytes it has stored at `dst`, what is left of `n`. -/
structure Part where
  how : Exit Nat
  dst : List UInt8
  n : Nat
  input : Input

/-- The loop of `consoleread`, with `n` bytes to go. -/
def consoleread (killed : Bool) (target : Nat) : Nat → Input → Part
  | 0, i => ⟨.returned target, [], 0, i⟩
  | n + 1, i =>
    if i.nread = i.w then ⟨if killed then .failed else .asleep, [], n + 1, i⟩
    else
      let c := i.front
      let j := i.next
      if c = ctrl 'D' then
        -- save the end of file for next time
        let j := if n + 1 < target then { j with nread := j.nread - 1#32 } else j
        ⟨.returned (target - (n + 1)), [], n + 1, j⟩
      else if c = newline then ⟨.returned (target - n), [c], n, j⟩
      else
        let part := consoleread killed target n j
        { part with dst := c :: part.dst }

/-! ## The line editor -/

/-- What the keys have done: the characters committed, those of them that have been read, and the line after them. -/
structure Editor where
  committed : List UInt8
  consumed : List UInt8
  line : List UInt8

/-- The characters that are held for a reader or for editing. -/
def Editor.held (ed : Editor) : Nat := ed.committed.length - ed.consumed.length + ed.line.length

/-- A key. A line is committed by a newline, by an end of file and when there is no room for more. -/
def Editor.key (ed : Editor) (c : UInt8) : Editor :=
  if c = ctrl 'P' ∨ c = 0 then ed
  else if c = ctrl 'U' then { ed with line := [] }
  else if c = ctrl 'H' ∨ c = del then { ed with line := ed.line.dropLast }
  else if ed.held < inputBuf then
    let c := if c = '\r'.toUInt8 then newline else c
    if c = newline ∨ c = ctrl 'D' ∨ ed.held + 1 = inputBuf then
      { ed with committed := ed.committed ++ (ed.line ++ [c]), line := [] }
    else { ed with line := ed.line ++ [c] }
  else ed

/-! ## Runs -/

inductive Thread
  | out
  /-- In `consoleread`, with `n` of `target` bytes to go. -/
  | reading (target n : Nat)

/-- The console and its readers. The editor is told of the keys, and of the characters that the read index has passed. -/
structure Sys where
  input : Input
  thread : Nat → Thread
  editor : Editor

inductive Event
  | intr (cs : List UInt8)
  | read (t : Nat) (n : Int)
  | run (t : Nat) (killed : Bool)

/-- The characters that the read index has passed. -/
def passed (i j : Input) : List UInt8 := i.contents.take (j.nread - i.nread).toNat

def step (s : Sys) : Event → Sys
  | .intr cs => { s with input := consoleintr cs s.input, editor := cs.foldl Editor.key s.editor }
  | .read t n =>
    match s.thread t with
    | .out => { s with thread := Function.update s.thread t (.reading n.toNat n.toNat) }
    | .reading _ _ => s
  | .run t killed =>
    match s.thread t with
    | .out => s
    | .reading target n =>
      let part := consoleread killed target n s.input
      { input := part.input
        thread := Function.update s.thread t (if part.how = .asleep then .reading target part.n else .out)
        editor := { s.editor with consumed := s.editor.consumed ++ passed s.input part.input } }

/-- An empty console, wherever the indices stand. -/
def Sys.init (data : Fin inputBuf → UInt8) (k : BitVec 32) : Sys := ⟨⟨⟨data, k, k⟩, k⟩, fun _ => .out, ⟨[], [], []⟩⟩

def after (data : Fin inputBuf → UInt8) (k : BitVec 32) (es : List Event) : Sys := es.foldl step (Sys.init data k)

/-! ## The two parts of the buffer -/

/-- How far `w` is from `r`. -/
def Input.mark (i : Input) : Nat := (i.w - i.nread).toNat

/-- The characters between `r` and `w`. -/
def Input.pending (i : Input) : List UInt8 := i.contents.take i.mark

/-- The characters between `w` and `e`. -/
def Input.line (i : Input) : List UInt8 := i.contents.drop i.mark

/-- The indices are in order. -/
structure Ordered (i : Input) : Prop where
  mark : i.mark ≤ i.count
  room : i.count ≤ inputBuf

section Parts

variable {i : Input} {c : UInt8}

theorem inputBuf_dvd : inputBuf ∣ 2 ^ 32 := by decide

theorem inputBuf_lt : inputBuf < 2 ^ 32 := by decide

theorem Ordered.edit (h : Ordered i) : (i.nwrite - i.w).toNat + i.mark = i.count := by
  have hsub : i.nwrite - i.w = (i.nwrite - i.nread) - (i.w - i.nread) := by bv_omega
  have hle : i.w - i.nread ≤ i.nwrite - i.nread := h.mark
  rw [hsub, BitVec.toNat_sub_of_le hle]
  exact Nat.sub_add_cancel h.mark

theorem Ordered.length_pending (h : Ordered i) : i.pending.length = i.mark := by
  rw [Input.pending, List.length_take, Circular.length_contents, Nat.min_eq_left h.mark]

theorem length_line (i : Input) : i.line.length = i.count - i.mark := by
  rw [Input.line, List.length_drop, Circular.length_contents]

theorem pending_append_line (i : Input) : i.pending ++ i.line = i.contents := List.take_append_drop _ _

theorem Ordered.line_eq_nil (h : Ordered i) : i.nwrite = i.w ↔ i.line = [] := by
  have hedit := h.edit
  rw [← List.length_eq_zero_iff, length_line i]
  constructor
  · intro heq
    rw [heq, BitVec.sub_self, show (0#32).toNat = 0 from rfl, Nat.zero_add] at hedit
    omega
  · intro hlen
    have hz : (i.nwrite - i.w).toNat = 0 := by omega
    have hz' : i.nwrite - i.w = 0#32 := BitVec.eq_of_toNat_eq hz
    bv_omega

theorem pending_eq_nil (h : Ordered i) : i.nread = i.w ↔ i.pending = [] := by
  rw [← List.length_eq_zero_iff, h.length_pending]
  exact Circular.empty_iff (b := { i.toCircular with nwrite := i.w })

/-- A character is taken off the line. -/
theorem Ordered.erase (h : Ordered i) (hne : i.nwrite ≠ i.w) :
    Ordered i.erase ∧ i.erase.pending = i.pending ∧ i.line = i.erase.line ++ [i.last] := by
  have hedit := h.edit
  have hline : i.line ≠ [] := fun hnil => hne (h.line_eq_nil.2 hnil)
  have hlen := length_line i
  have hpos := List.length_pos_iff.2 hline
  have hread : i.nread ≠ i.nwrite := by
    intro heq
    have := Circular.empty_iff.1 heq
    omega
  have hcount : i.erase.count + 1 = i.count := Circular.count_back hread
  have hmark : i.erase.mark = i.mark := rfl
  have hcont : i.contents = i.erase.contents ++ [i.last] := Circular.contents_back hread
  have hle : i.mark ≤ i.erase.contents.length := by
    rw [Circular.length_contents]
    omega
  refine ⟨⟨by rw [hmark]; omega, by have := h.room; omega⟩, ?_, ?_⟩
  · rw [Input.pending, Input.pending, hmark, hcont, List.take_append_of_le_length hle]
  · rw [Input.line, Input.line, hmark, hcont, List.drop_append_of_le_length hle]

/-- A character is put at the end of the line. -/
theorem Ordered.store (h : Ordered i) (hlt : i.count < inputBuf) : Ordered (i.store c) ∧ (i.store c).pending = i.pending ∧
    (i.store c).line = i.line ++ [c] ∧ (i.store c).count = i.count + 1 := by
  have hcount : (i.store c).count = i.count + 1 := Circular.count_put c inputBuf_lt hlt
  have hcont : (i.store c).contents = i.contents ++ [c] := Circular.contents_put c inputBuf_dvd inputBuf_lt hlt
  have hmark : (i.store c).mark = i.mark := rfl
  have hle : i.mark ≤ i.contents.length := by
    rw [Circular.length_contents]
    exact h.mark
  refine ⟨⟨?_, ?_⟩, ?_, ?_, hcount⟩
  · rw [hcount, hmark]
    exact h.mark.trans (Nat.le_succ _)
  · rw [hcount]
    exact hlt
  · rw [Input.pending, Input.pending, hcont, hmark, List.take_append_of_le_length hle]
  · rw [Input.line, Input.line, hcont, hmark, List.drop_append_of_le_length hle]

/-- The line is committed. -/
theorem Ordered.commit (h : Ordered i) : Ordered { i with w := i.nwrite } ∧
    Input.pending { i with w := i.nwrite } = i.pending ++ i.line ∧ Input.line { i with w := i.nwrite } = [] := by
  have hlen : i.contents.length = i.count := Circular.length_contents
  refine ⟨⟨le_rfl, h.room⟩, ?_, ?_⟩
  · rw [pending_append_line]
    exact List.take_of_length_le hlen.le
  · exact List.drop_of_length_le hlen.le

/-- The first pending character is taken. -/
theorem Ordered.next (h : Ordered i) (hne : i.nread ≠ i.w) : Ordered i.next ∧ i.pending = i.front :: i.next.pending ∧
    i.next.line = i.line := by
  have hmark : i.next.mark + 1 = i.mark := Circular.count_take (b := { i.toCircular with nwrite := i.w }) hne
  have hle := h.mark
  have hread : i.nread ≠ i.nwrite := by
    intro heq
    have h0 := Circular.empty_iff.1 heq
    omega
  have hcount : i.next.count + 1 = i.count := Circular.count_take hread
  have hcont : i.contents = i.front :: i.next.contents := Circular.contents_take hread
  refine ⟨⟨?_, ?_⟩, ?_, ?_⟩
  · omega
  · have hroom := h.room
    omega
  · rw [Input.pending, Input.pending, ← hmark, hcont, List.take_succ_cons]
  · rw [Input.line, Input.line, ← hmark, hcont, List.drop_succ_cons]

end Parts

/-! ## Keys -/

section Keys

variable {i : Input} {ed : Editor}

/-- What an editing key may do: only the line changes, and it only gets shorter. -/
structure Erases (i j : Input) : Prop where
  read : j.nread = i.nread
  commit : j.w = i.w
  pending : j.pending = i.pending
  line : j.line <+: i.line

theorem Erases.refl (i : Input) : Erases i i := ⟨rfl, rfl, rfl, List.prefix_refl _⟩

/-- The loop of `C('U')` empties a line that has no newline. -/
theorem killLoop_spec : ∀ {n : Nat} {i : Input}, Ordered i → i.line.length ≤ n → newline ∉ i.line →
    Ordered (killLoop n i) ∧ Erases i (killLoop n i) ∧ (killLoop n i).line = []
  | 0, i, h, hn, _ => ⟨h, .refl i, List.length_eq_zero_iff.1 (Nat.le_zero.1 hn)⟩
  | n + 1, i, h, hn, hplain => by
    rw [killLoop]
    by_cases hne : i.nwrite = i.w
    · rw [if_neg fun hc => hc.1 hne]
      exact ⟨h, .refl i, h.line_eq_nil.1 hne⟩
    · obtain ⟨h', hp, hl⟩ := h.erase hne
      have hlast : i.last ≠ newline := fun heq => hplain (by rw [hl, heq]; simp)
      rw [if_pos ⟨hne, hlast⟩]
      have hlen : i.erase.line.length ≤ n := by
        have := congrArg List.length hl
        rw [List.length_append, List.length_singleton] at this
        omega
      have hpl : newline ∉ i.erase.line := fun hm => hplain (by rw [hl]; exact List.mem_append_left _ hm)
      obtain ⟨hk, he, hnil⟩ := killLoop_spec h' hlen hpl
      exact ⟨hk, ⟨he.read, he.commit, he.pending.trans hp, by rw [hnil]; exact List.nil_prefix⟩, hnil⟩

/-- The buffer holds what the editor has. -/
structure Follows (i : Input) (ed : Editor) : Prop extends Ordered i where
  queue : ed.committed = ed.consumed ++ i.pending
  line : i.line = ed.line
  plain : newline ∉ ed.line

theorem Follows.held (h : Follows i ed) : ed.held = i.count := by
  have hl := length_line i
  have hm := h.mark
  rw [h.line] at hl
  rw [Editor.held, hl, h.queue, List.length_append, h.toOrdered.length_pending]
  omega

theorem Follows.kill (h : Follows i ed) : Erases i (killLoop (i.nwrite - i.w).toNat i) ∧
    Follows (killLoop (i.nwrite - i.w).toNat i) { ed with line := [] } := by
  have hlen : i.line.length ≤ (i.nwrite - i.w).toNat := by
    have hedit := h.toOrdered.edit
    rw [length_line i]
    omega
  obtain ⟨hk, he, hnil⟩ := killLoop_spec h.toOrdered hlen (by rw [h.line]; exact h.plain)
  exact ⟨he, hk, by rw [he.pending]; exact h.queue, hnil, List.not_mem_nil⟩

theorem Follows.erase (h : Follows i ed) : Erases i (if i.nwrite ≠ i.w then i.erase else i) ∧
    Follows (if i.nwrite ≠ i.w then i.erase else i) { ed with line := ed.line.dropLast } := by
  by_cases hne : i.nwrite = i.w
  · have hnil : ed.line = [] := by rw [← h.line, h.toOrdered.line_eq_nil.1 hne]
    rw [if_neg (not_not.2 hne), hnil]
    exact ⟨.refl i, h.toOrdered, h.queue, by rw [h.line, hnil]; rfl, List.not_mem_nil⟩
  · obtain ⟨h', hp, hl⟩ := h.toOrdered.erase hne
    have hdrop : ed.line.dropLast = i.erase.line := by rw [← h.line, hl, List.dropLast_concat]
    rw [if_pos hne, hdrop]
    refine ⟨⟨rfl, rfl, hp, by rw [hl]; exact List.prefix_append _ _⟩, h', by rw [hp]; exact h.queue, rfl, ?_⟩
    rw [← hdrop]
    exact fun hm => h.plain (List.dropLast_subset _ hm)

/-- Every key does to the buffer what it does to the editor. -/
theorem Follows.typed (h : Follows i ed) (c : UInt8) : Follows (typed i c) (ed.key c) := by
  unfold Console.typed Editor.key
  by_cases hP : c = ctrl 'P'
  · rw [if_pos hP, if_pos (.inl hP)]
    exact h
  by_cases hU : c = ctrl 'U'
  · have h0 : ¬(c = ctrl 'P' ∨ c = 0) := by rw [hU]; decide
    rw [if_neg hP, if_pos hU, if_neg h0, if_pos hU]
    exact h.kill.2
  by_cases hH : c = ctrl 'H' ∨ c = del
  · have h0 : ¬(c = ctrl 'P' ∨ c = 0) := by rcases hH with rfl | rfl <;> decide
    rw [if_neg hP, if_neg hU, if_pos hH, if_neg h0, if_neg hU, if_pos hH]
    exact h.erase.2
  rw [if_neg hP, if_neg hU, if_neg hH]
  by_cases h0 : c = 0
  · rw [if_neg fun hc => hc.1 h0, if_pos (.inr h0)]
    exact h
  rw [if_neg (not_or.2 ⟨hP, h0⟩), if_neg hU, if_neg hH, h.held]
  by_cases hroom : i.count < inputBuf
  · rw [if_pos ⟨h0, hroom⟩, if_pos hroom]
    generalize (if c = '\r'.toUInt8 then newline else c) = c'
    obtain ⟨hput, hp, hl, hcount⟩ := h.toOrdered.store (c := c') hroom
    have hfull := Circular.full_iff (b := (i.store c').toCircular) inputBuf_lt
    rw [hcount] at hfull
    dsimp only
    by_cases hcommit : c' = newline ∨ c' = ctrl 'D' ∨ i.count + 1 = inputBuf
    · rw [if_pos (hcommit.imp_right (Or.imp_right hfull.2)), if_pos hcommit]
      obtain ⟨hc, hcp, hcl⟩ := hput.commit
      refine ⟨hc, ?_, hcl, List.not_mem_nil⟩
      rw [hcp, hp, hl, h.line, h.queue, List.append_assoc]
    · rw [if_neg fun hx => hcommit (hx.imp_right (Or.imp_right hfull.1)), if_neg hcommit]
      refine ⟨hput, ?_, ?_, ?_⟩
      · rw [hp]
        exact h.queue
      · rw [hl, h.line]
      · rw [List.mem_append, List.mem_singleton, not_or]
        exact ⟨h.plain, fun heq => hcommit (.inl heq.symm)⟩
  · rw [if_neg fun hc => hroom hc.2, if_neg hroom]
    exact h

theorem Follows.consoleintr : ∀ {i : Input} {ed : Editor} (cs : List UInt8), Follows i ed →
    Follows (consoleintr cs i) (cs.foldl Editor.key ed)
  | _, _, [], h => h
  | _, _, c :: cs, h => Follows.consoleintr cs (h.typed c)

/-- Backspace and kill take characters off the line, and no others. -/
theorem Follows.erases (h : Follows i ed) {c : UInt8} (hc : c = ctrl 'U' ∨ c = ctrl 'H' ∨ c = del) : Erases i (Console.typed i c) := by
  unfold Console.typed
  by_cases hU : c = ctrl 'U'
  · rw [if_neg (by rw [hU]; decide), if_pos hU]
    exact h.kill.1
  · have hH := hc.resolve_left hU
    rw [if_neg (by rcases hH with rfl | rfl <;> decide), if_neg hU, if_pos hH]
    exact h.erase.1

end Keys

/-! ## Reading -/

section Reading

variable {target : Nat} {i : Input}

/-- What a part of a call reads: the first pending characters, up to a newline, an end of file or the count; it sleeps or fails only
when nothing is pending. An end of file that is met after other characters stays for the next call, and is taken by it. -/
structure Reads (target n : Nat) (i : Input) (part : Part) : Prop where
  commit : part.input.w = i.w
  queue : i.pending = passed i part.input ++ part.input.pending
  line : part.input.line = i.line
  left : part.dst.length + part.n = n
  plain : ctrl 'D' ∉ part.dst ∧ newline ∉ part.dst.dropLast
  stays : (part.how = .asleep ∨ part.how = .failed) → passed i part.input = part.dst ∧ part.input.pending = [] ∧ 0 < part.n
  returns : ∀ k, part.how = .returned k → k = target - part.n ∧
    ((part.n = 0 ∨ part.dst.getLast? = some newline) ∧ passed i part.input = part.dst ∨
      part.n = target ∧ part.dst = [] ∧ passed i part.input = [ctrl 'D'] ∨
      part.n < target ∧ passed i part.input = part.dst ∧ part.input.pending.head? = some (ctrl 'D'))

theorem passed_self (i : Input) : passed i i = [] := by
  rw [passed, BitVec.sub_self]
  rfl

theorem passed_eq {j : Input} {cs : List UInt8} (h : Ordered i) (hj : Ordered j) (hw : j.w = i.w)
    (hp : i.pending = cs ++ j.pending) : passed i j = cs := by
  have hlen := congrArg List.length hp
  rw [List.length_append, h.length_pending, hj.length_pending] at hlen
  have hsub : j.nread - i.nread = (i.w - i.nread) - (i.w - j.nread) := by bv_omega
  have hle : i.w - j.nread ≤ i.w - i.nread := by
    show (i.w - j.nread).toNat ≤ i.mark
    rw [← hw]
    exact hlen ▸ Nat.le_add_left _ _
  have hk : (j.nread - i.nread).toNat = cs.length := by
    have hjm : (i.w - j.nread).toNat = j.mark := by rw [← hw]; rfl
    rw [hsub, BitVec.toNat_sub_of_le hle, hjm]
    show i.mark - j.mark = _
    omega
  rw [passed, hk, ← pending_append_line, hp, List.append_assoc, List.take_left]

theorem next_unread (i : Input) : { i.next with nread := i.next.nread - 1#32 } = i := by
  show ({ i with nread := i.nread + 1#32 - 1#32 } : Input) = i
  rw [BitVec.add_sub_cancel]

/-- A character and what is read after it. -/
theorem Reads.cons {n : Nat} {part : Part} (h : Ordered i) (hord : Ordered part.input) (hne : i.nread ≠ i.w) (hn : n < target)
    (hD : i.front ≠ ctrl 'D') (hnl : i.front ≠ newline) (hr : Reads target n i.next part) :
    Reads target (n + 1) i { part with dst := i.front :: part.dst } := by
  obtain ⟨-, hp, hl⟩ := h.next hne
  have hall : passed i part.input = i.front :: passed i.next part.input :=
    passed_eq h hord hr.commit (by rw [hp, hr.queue, List.cons_append])
  have hleft := hr.left
  refine ⟨hr.commit, ?_, hr.line.trans hl, ?_, ⟨?_, ?_⟩, fun hs => ?_, fun k hk => ?_⟩
  · rw [hall, hp, hr.queue, List.cons_append]
  · show part.dst.length + 1 + part.n = n + 1
    omega
  · rw [List.mem_cons, not_or]
    exact ⟨Ne.symm hD, hr.plain.1⟩
  · show newline ∉ (i.front :: part.dst).dropLast
    cases hdst : part.dst with
    | nil => exact List.not_mem_nil
    | cons d ds =>
      rw [List.dropLast_cons_cons, List.mem_cons, not_or, ← hdst]
      exact ⟨Ne.symm hnl, hr.plain.2⟩
  · obtain ⟨hpass, hnil, hpos⟩ := hr.stays hs
    exact ⟨by rw [hall, hpass], hnil, hpos⟩
  · obtain ⟨hk', hcases⟩ := hr.returns k hk
    refine ⟨hk', ?_⟩
    rcases hcases with ⟨hend, hpass⟩ | ⟨htarget, -, -⟩ | ⟨hlt, hpass, hhead⟩
    · refine .inl ⟨hend.imp_right fun hlast => ?_, by rw [hall, hpass]⟩
      rw [List.getLast?_cons, hlast]
      rfl
    · omega
    · exact .inr (.inr ⟨hlt, by rw [hall, hpass], hhead⟩)

theorem consoleread_reads (killed : Bool) : ∀ {n : Nat} {i : Input}, Ordered i → n ≤ target →
    Ordered (consoleread killed target n i).input ∧ Reads target n i (consoleread killed target n i)
  | 0, i, h, _ => by
    rw [consoleread]
    refine ⟨h, rfl, ?_, rfl, rfl, ⟨List.not_mem_nil, List.not_mem_nil⟩, ?_, ?_⟩
    · rw [passed_self, List.nil_append]
    · rintro (hc | hc) <;> cases hc
    · rintro k hk
      cases hk
      exact ⟨rfl, .inl ⟨.inl rfl, passed_self i⟩⟩
  | n + 1, i, h, hn => by
    rw [consoleread]
    by_cases hempty : i.nread = i.w
    · rw [if_pos hempty]
      refine ⟨h, rfl, ?_, rfl, Nat.zero_add _, ⟨List.not_mem_nil, List.not_mem_nil⟩, ?_, ?_⟩
      · rw [passed_self, List.nil_append]
      · intro _
        exact ⟨passed_self i, (pending_eq_nil h).1 hempty, Nat.succ_pos n⟩
      · intro k hk
        cases killed <;> cases hk
    rw [if_neg hempty]
    obtain ⟨hnext, hp, hl⟩ := h.next hempty
    have hone : passed i i.next = [i.front] := passed_eq h hnext rfl hp
    by_cases hD : i.front = ctrl 'D'
    · rw [if_pos hD]
      by_cases hlt : n + 1 < target
      · rw [if_pos hlt, next_unread]
        refine ⟨h, rfl, ?_, rfl, Nat.zero_add _, ⟨List.not_mem_nil, List.not_mem_nil⟩, ?_, ?_⟩
        · rw [passed_self, List.nil_append]
        · rintro (hc | hc) <;> cases hc
        · intro k hk
          cases hk
          refine ⟨rfl, .inr (.inr ⟨hlt, passed_self i, ?_⟩)⟩
          rw [hp, hD, List.head?_cons]
      · rw [if_neg hlt]
        refine ⟨hnext, rfl, ?_, hl, Nat.zero_add _, ⟨List.not_mem_nil, List.not_mem_nil⟩, ?_, ?_⟩
        · rw [hone, hp]
          rfl
        · rintro (hc | hc) <;> cases hc
        · intro k hk
          cases hk
          refine ⟨rfl, .inr (.inl ⟨le_antisymm hn (not_lt.1 hlt), rfl, ?_⟩)⟩
          rw [hone, hD]
    rw [if_neg hD]
    by_cases hnl : i.front = newline
    · rw [if_pos hnl]
      refine ⟨hnext, rfl, ?_, hl, Nat.add_comm 1 n, ⟨?_, List.not_mem_nil⟩, ?_, ?_⟩
      · rw [hone, hp]
        rfl
      · rw [List.mem_singleton]
        exact fun heq => hD heq.symm
      · rintro (hc | hc) <;> cases hc
      · intro k hk
        cases hk
        exact ⟨rfl, .inl ⟨.inr (by rw [hnl]; rfl), hone⟩⟩
    · rw [if_neg hnl]
      obtain ⟨hord, hr⟩ := consoleread_reads killed hnext (Nat.le_of_succ_le hn)
      exact ⟨hord, hr.cons h hord hempty hn hD hnl⟩

end Reading

/-! ## Whole runs -/

/-- The buffer follows the editor, and no reader wants more than it was called for. -/
structure Good (s : Sys) : Prop where
  follows : Follows s.input s.editor
  threads : ∀ t target n, s.thread t = .reading target n → n ≤ target

theorem Good.init (data : Fin inputBuf → UInt8) (k : BitVec 32) : Good (Sys.init data k) := by
  have hcount : (Sys.init data k).input.count = 0 := Circular.empty_iff.1 rfl
  have hmark : (Sys.init data k).input.mark = 0 := hcount
  have hcont : (Sys.init data k).input.contents = [] := Circular.contents_empty rfl
  refine ⟨⟨⟨?_, ?_⟩, ?_, ?_, List.not_mem_nil⟩, fun t target n h => by cases h⟩
  · rw [hcount, hmark]
  · rw [hcount]
    exact Nat.zero_le _
  · rw [Input.pending, hcont, hmark]
    rfl
  · rw [Input.line, hcont, hmark]
    rfl

theorem Good.step {s : Sys} (h : Good s) : ∀ e, Good (step s e)
  | .intr cs => ⟨h.follows.consoleintr cs, h.threads⟩
  | .read t n => by
    rw [Console.step]
    split
    · refine ⟨h.follows, fun t' target m ht => ?_⟩
      by_cases heq : t' = t
      · subst heq
        simp only [Function.update_self, Thread.reading.injEq] at ht
        obtain ⟨rfl, rfl⟩ := ht
        exact le_rfl
      · simp only [Function.update_of_ne heq] at ht
        exact h.threads t' target m ht
    · exact h
  | .run t killed => by
    rw [Console.step]
    split
    · exact h
    · next target n ht =>
      obtain ⟨hord, hr⟩ := consoleread_reads killed h.follows.toOrdered (h.threads t target n ht)
      refine ⟨⟨hord, ?_, ?_, h.follows.plain⟩, fun t' target' m ht' => ?_⟩
      · show s.editor.committed = s.editor.consumed ++ passed s.input _ ++ _
        rw [List.append_assoc, ← hr.queue]
        exact h.follows.queue
      · exact hr.line.trans h.follows.line
      · by_cases heq : t' = t
        · subst heq
          have hleft := hr.left
          have hle := h.threads t' target n ht
          simp only [Function.update_self] at ht'
          split at ht'
          · cases ht'
            omega
          · cases ht'
        · simp only [Function.update_of_ne heq] at ht'
          exact h.threads t' target' m ht'

theorem Good.run : ∀ {s : Sys} (es : List Event), Good s → Good (es.foldl Console.step s)
  | _, [], h => h
  | _, e :: es, h => Good.run es (h.step e)

/-- The console neither loses nor brings back committed input, in every run of keys and readers and wherever the indices start. -/
theorem console_lines (data : Fin inputBuf → UInt8) (k : BitVec 32) (es : List Event) :
    ((after data k es).input.w - (after data k es).input.nread).toNat +
        ((after data k es).input.nwrite - (after data k es).input.w).toNat =
      ((after data k es).input.nwrite - (after data k es).input.nread).toNat ∧
    ((after data k es).input.nwrite - (after data k es).input.nread).toNat ≤ inputBuf ∧
    (∀ c, c = ctrl 'U' ∨ c = ctrl 'H' ∨ c = del → Erases (after data k es).input (typed (after data k es).input c)) ∧
    (after data k es).editor.committed = (after data k es).editor.consumed ++ (after data k es).input.pending ∧
    (after data k es).input.line = (after data k es).editor.line ∧
    ∀ t target n killed, (after data k es).thread t = .reading target n →
      Reads target n (after data k es).input (consoleread killed target n (after data k es).input) := by
  have h : Good (after data k es) := (Good.init data k).run es
  have hord := h.follows.toOrdered
  refine ⟨?_, hord.room, fun c hc => h.follows.erases hc, h.follows.queue, h.follows.line, fun t target n killed ht => ?_⟩
  · rw [Nat.add_comm]
    exact hord.edit
  · exact (consoleread_reads killed hord (h.threads t target n ht)).2

/-- Two readers, a line that is edited, and an end of file that ends one call and then the next. -/
example : (after (fun _ => 0) (-1) [.read 0 9, .intr ([97, 120, 8, 13, 98, 4].map UInt8.ofNat), .run 0 false, .read 1 9, .run 1 false,
    .read 1 9, .run 1 false]).editor.consumed = [97, 10, 98, 4] := by decide +kernel

end DemandPaging.Console
