/-
`nulterminate` stores a NUL behind every word of the tree, in the buffer that all of them share. A
terminator stands where no character of a word stands: at the end of the line, at space or at a symbol.
-/
import DemandPaging.User.Parser
import Mathlib.Data.List.TakeWhile

namespace DemandPaging.User.Shell

open Outcome

variable {s buf buf' : List UInt8} {t : Cmd} {w v : Word} {i : Nat}

/-! ## Words of a tree -/

/-- The arguments and files of a tree, in the order in which `nulterminate` reaches them. -/
def Cmd.words : Cmd → List Word
  | .exec argv => argv
  | .redir cmd file _ _ => cmd.words ++ [file]
  | .pipe left right => left.words ++ right.words
  | .list left right => left.words ++ right.words
  | .back cmd => cmd.words

/-- `nulterminate` stores a NUL at the end of each word. -/
theorem nulterminate_eq (es : Nat) : ∀ (t : Cmd) (buf : List UInt8),
    nulterminate es t buf = t.words.foldl (fun buf w => terminate es w.stop buf) buf
  | .exec argv, buf => rfl
  | .redir cmd file mode fd, buf => by
    rw [nulterminate, nulterminate_eq es cmd, Cmd.words, List.foldl_append]
    rfl
  | .pipe left right, buf => by
    rw [nulterminate, nulterminate_eq es left, nulterminate_eq es right, Cmd.words, List.foldl_append]
  | .list left right, buf => by
    rw [nulterminate, nulterminate_eq es left, nulterminate_eq es right, Cmd.words, List.foldl_append]
  | .back cmd, buf => nulterminate_eq es cmd buf

theorem words_redirect (t : Cmd) (x : Redir) : (t.redirect x).words = t.words ++ [x.2] := by
  obtain ⟨d, v⟩ := x
  cases d <;> rfl

theorem words_wrap : ∀ (rs : List Redir) (t : Cmd), (t.wrap rs).words = t.words ++ rs.map Prod.snd
  | [], t => by rw [List.map_nil, List.append_nil]; rfl
  | x :: rs, t => by
    show ((t.redirect x).wrap rs).words = _
    rw [words_wrap rs, words_redirect, List.map_cons, List.append_assoc, List.singleton_append]

theorem words_backs (t : Cmd) : ∀ n : Nat, (t.backs n).words = t.words
  | 0 => rfl
  | n + 1 => by
    rw [Cmd.backs, Function.iterate_succ_apply']
    exact words_backs t n

theorem word_mem_redirTokens (rs : List Redir) : .word w ∈ redirTokens rs ↔ w ∈ rs.map Prod.snd := by
  simp [redirTokens, eq_comm]

theorem word_mem_argTokens (args : List (Word × List Redir)) :
    .word w ∈ argTokens args ↔ w ∈ args.map Prod.fst ∨ w ∈ (args.flatMap Prod.snd).map Prod.snd := by
  induction args with
  | nil => simp [argTokens]
  | cons a args ih =>
    have hcons : argTokens (a :: args) = .word a.1 :: (redirTokens a.2 ++ argTokens args) := by
      have h := argTokens_cons (r := []) a args
      rwa [List.append_nil, List.append_nil] at h
    rw [hcons, List.mem_cons, List.mem_append, word_mem_redirTokens, ih, List.map_cons, List.mem_cons, List.flatMap_cons,
      List.map_append, List.mem_append, Token.word.injEq]
    constructor
    · rintro (h | h | h | h)
      · exact .inl (.inl h)
      · exact .inr (.inl h)
      · exact .inl (.inr h)
      · exact .inr (.inr h)
    · rintro ((h | h) | h | h)
      · exact .inl h
      · exact .inr (.inr (.inl h))
      · exact .inr (.inl h)
      · exact .inr (.inr (.inr h))

theorem word_not_mem_ampTokens (n : Nat) : .word w ∉ ampTokens n := by
  intro h
  cases List.eq_of_mem_replicate h

/-- The words of the tree are the words of its tokens. -/
theorem Phrase.mem_words {N : Nonterminal} (d : Phrase N) : w ∈ d.tree.words ↔ .word w ∈ d.yield := by
  induction d with
  | simple pre args h =>
    rw [tree, yield, words_wrap, List.mem_append, List.mem_append, word_mem_redirTokens, word_mem_argTokens, List.map_append,
      List.mem_append, Cmd.words, or_left_comm]
  | block body post ih =>
    rw [tree, yield, words_wrap, List.mem_append, List.mem_cons, List.mem_append, List.mem_cons, word_mem_redirTokens, ih]
    simp
  | single cmd ih => exact ih
  | bar left right ihl ihr =>
    rw [tree, yield, Cmd.words, List.mem_append, List.mem_append, List.mem_cons, ihl, ihr]
    simp
  | last pipe n ih =>
    rw [tree, yield, words_backs, List.mem_append, ih, or_iff_left (word_not_mem_ampTokens n)]
  | semi left n right ihl ihr =>
    rw [tree, yield, Cmd.words, words_backs, List.mem_append, List.mem_append, List.mem_append, List.mem_cons, ihl, ihr,
      or_iff_right (word_not_mem_ampTokens n)]
    simp

/-! ## Words of a line -/

/-- Where a pointer into the line points to. -/
def address (buf p : List UInt8) : Nat := strlen buf - p.length

/-- The bytes of a word, in a buffer. -/
def text (buf : List UInt8) (w : Word) : List UInt8 :=
  (buf.drop (address buf w.start)).take (address buf w.stop - address buf w.start)

/-- The C string at an index of a buffer. -/
def cstring (buf : List UInt8) (i : Nat) : List UInt8 := (buf.drop i).take (strlen (buf.drop i))

/-- The index is that of a character of the word. -/
def Inside (buf : List UInt8) (w : Word) (i : Nat) : Prop := address buf w.start ≤ i ∧ i < address buf w.stop

/-- A word of a line ends at the first byte that is no character of words. -/
structure WordOf (s : List UInt8) (w : Word) : Prop where
  start : w.start <:+ s
  stop : w.stop = w.start.dropWhile isWordChar

theorem WordOf.mono {s' : List UInt8} (h : WordOf s w) (hs : s <:+ s') : WordOf s' w := ⟨h.start.trans hs, h.stop⟩

theorem wordOf_lex : ∀ {n : Nat} {s : List UInt8}, .word w ∈ lex n s → WordOf s w
  | 0, _, h => nomatch h
  | _ + 1, [], h => nomatch h
  | n + 1, c :: s, h => by
    rw [lex] at h
    split_ifs at h with hspace hgt
    · exact (wordOf_lex h).mono (List.suffix_cons _ _)
    · rcases List.mem_cons.1 h with h | h
      · cases h
      · exact (wordOf_lex h).mono ((List.tail_suffix s).trans (List.suffix_cons _ _))
    · cases hk : symOf c with
      | some k =>
        simp only [hk] at h
        rcases List.mem_cons.1 h with h | h
        · cases h
        · exact (wordOf_lex h).mono (List.suffix_cons _ _)
      | none =>
        simp only [hk, wordChar_eq] at h
        rcases List.mem_cons.1 h with h | h
        · cases h
          have hc : isWordChar c = true := isWordChar_iff.2 ⟨hspace, symOf_none.1 hk⟩
          exact ⟨List.suffix_refl _, by rw [List.dropWhile_cons_of_pos hc]⟩
        · exact (wordOf_lex h).mono ((List.dropWhile_suffix _).trans (List.suffix_cons _ _))

theorem length_line (buf : List UInt8) : (line buf).length = strlen buf := List.length_take_of_le (strlen_le_length buf)

theorem getElem?_line (hi : i < strlen buf) : (line buf)[i]? = buf[i]? := List.getElem?_take_of_lt hi

/-- The byte that a pointer points to. -/
theorem getElem?_address {p : List UInt8} (hp : p <:+ line buf) (j : Nat) : (line buf)[address buf p + j]? = p[j]? := by
  have hdrop : (line buf).drop (address buf p) = p := by
    rw [address, ← length_line]
    exact (List.suffix_iff_eq_drop.1 hp).symm
  rw [← List.getElem?_drop, hdrop]

theorem address_le (p : List UInt8) : address buf p ≤ strlen buf := Nat.sub_le _ _

theorem WordOf.stop_suffix (h : WordOf (line buf) w) : w.stop <:+ line buf := (h.stop ▸ List.dropWhile_suffix _).trans h.start

/-- The characters of a word, and where it ends. -/
theorem WordOf.parts (h : WordOf (line buf) w) :
    ∃ body, w.start = body ++ w.stop ∧ (∀ c ∈ body, isWordChar c = true) ∧ address buf w.stop = address buf w.start + body.length := by
  have hsplit : w.start = w.start.takeWhile isWordChar ++ w.stop := by rw [h.stop, List.takeWhile_append_dropWhile]
  refine ⟨w.start.takeWhile isWordChar, hsplit, fun c hc => List.mem_takeWhile_imp hc, ?_⟩
  have hstart : w.start.length ≤ strlen buf := length_line buf ▸ h.start.length_le
  have hlen : w.start.length = (w.start.takeWhile isWordChar).length + w.stop.length := by
    rw [← List.length_append, ← hsplit]
  rw [address, address]
  omega

theorem WordOf.inside (h : WordOf (line buf) w) (hi : Inside buf w i) : ∃ c, (line buf)[i]? = some c ∧ isWordChar c = true := by
  obtain ⟨body, hstart, hbody, hstop⟩ := h.parts
  obtain ⟨hle, hlt⟩ := hi
  obtain ⟨j, rfl⟩ := Nat.exists_eq_add_of_le hle
  have hj : j < body.length := by omega
  refine ⟨body[j], ?_, hbody _ (List.getElem_mem hj)⟩
  rw [getElem?_address h.start, hstart, List.getElem?_append_left hj, List.getElem?_eq_getElem hj]

/-- A word ends at a byte that is no character of words, or at the end of the line. -/
theorem WordOf.stop_not (h : WordOf (line buf) w) {c : UInt8} (hc : (line buf)[address buf w.stop]? = some c) : isWordChar c = false := by
  have hbyte := getElem?_address h.stop_suffix 0
  rw [Nat.add_zero, hc, ← List.head?_eq_getElem?, h.stop] at hbyte
  have hhead := List.head?_dropWhile_not isWordChar w.start
  rw [← hbyte] at hhead
  exact hhead

/-- No word ends inside a word. -/
theorem WordOf.stop_outside (hw : WordOf (line buf) w) (hv : WordOf (line buf) v) (hi : Inside buf v i) : address buf w.stop ≠ i := by
  rintro rfl
  obtain ⟨c, hc, hchar⟩ := hv.inside hi
  rw [hw.stop_not hc] at hchar
  cases hchar

/-! ## Terminators -/

/-- The buffer after a NUL has been stored at the end of each word. -/
def terminated (buf : List UInt8) (ws : List Word) (es : Nat) : List UInt8 := ws.foldl (fun buf w => terminate es w.stop buf) buf

/-- Only the ends of the words change. -/
theorem terminated_of_ne {es : Nat} : ∀ {ws : List Word} {buf : List UInt8}, (∀ w ∈ ws, es - w.stop.length ≠ i) →
    (terminated buf ws es)[i]? = buf[i]?
  | [], buf, _ => rfl
  | w :: ws, buf, h => by
    rw [List.forall_mem_cons] at h
    show (terminated (terminate es w.stop buf) ws es)[i]? = _
    rw [terminated_of_ne h.2, terminate, List.getElem?_set_ne h.1]

/-- There is no other byte at the index than NUL. -/
def Nul (buf : List UInt8) (i : Nat) : Prop := ∀ c ∈ buf[i]?, c = 0

theorem nul_terminate (es : Nat) (p buf : List UInt8) : Nul (terminate es p buf) (es - p.length) := by
  intro c hc
  rw [terminate, List.getElem?_set_self'] at hc
  obtain ⟨b, -, rfl⟩ := Option.map_eq_some_iff.1 hc
  rfl

theorem Nul.terminate {es : Nat} (h : Nul buf i) (p : List UInt8) : Nul (Shell.terminate es p buf) i := by
  by_cases hi : es - p.length = i
  · rw [← hi]
    exact nul_terminate es p buf
  · intro c hc
    rw [Shell.terminate, List.getElem?_set_ne hi] at hc
    exact h c hc

theorem Nul.terminated {es : Nat} : ∀ (ws : List Word) {buf : List UInt8}, Nul buf i → Nul (Shell.terminated buf ws es) i
  | [], _, h => h
  | w :: ws, _, h => Nul.terminated ws (h.terminate w.stop)

/-- The end of each word is NUL. -/
theorem nul_terminated {es : Nat} : ∀ {ws : List Word} {buf : List UInt8}, w ∈ ws → Nul (terminated buf ws es) (es - w.stop.length)
  | v :: ws, buf, h => by
    show Nul (terminated (terminate es v.stop buf) ws es) _
    rcases List.mem_cons.1 h with rfl | htail
    · exact (nul_terminate es w.stop buf).terminated ws
    · exact nul_terminated htail

/-- The C string at an index, where the bytes up to a NUL are known. -/
theorem cstring_eq {a b : List UInt8} {p q : Nat} (hpq : p ≤ q) (hsame : ∀ i, p ≤ i → i < q → b[i]? = a[i]? ∧ a[i]? ≠ some 0) (hend : Nul b q) :
    cstring b p = (a.drop p).take (q - p) := by
  have htake : (b.drop p).take (q - p) = (a.drop p).take (q - p) := by
    refine List.ext_getElem? fun j => ?_
    rw [List.getElem?_take, List.getElem?_take, List.getElem?_drop, List.getElem?_drop]
    split_ifs with hj
    · exact (hsame (p + j) (by omega) (by omega)).1
    · rfl
  have hdrop : b.drop p = (a.drop p).take (q - p) ++ b.drop q := by
    rw [← htake, ← Nat.add_sub_cancel' hpq, ← List.drop_drop, Nat.add_sub_cancel_left, List.take_append_drop]
  have hclean : 0 ∉ (a.drop p).take (q - p) := by
    intro h0
    obtain ⟨j, hj⟩ := List.mem_iff_getElem?.1 h0
    rw [List.getElem?_take, List.getElem?_drop] at hj
    split_ifs at hj with hlt
    exact (hsame (p + j) (by omega) (by omega)).2 hj
  have hnul : chr (b.drop q) = 0 := by
    rw [chr, List.headD_eq_head?_getD, List.head?_drop]
    cases hq : b[q]? with
    | none => rfl
    | some c => exact hend c hq
  rw [cstring, hdrop, strlen_append hclean hnul, List.take_left]

/-- For every line that `parsecmd` accepts, the words of the tree are the words of the line; in the buffer that it leaves, each is a C
string, the bytes that the word had in the line; and no terminator stands where a character of a word stood. -/
theorem parsecmd_words (h : parsecmd buf = .ok (t, buf')) :
    (∀ w, w ∈ t.words ↔ .word w ∈ tokens (line buf)) ∧
    (∀ w ∈ t.words, cstring buf' (address buf w.start) = text buf w) ∧
    ∀ w ∈ t.words, ∀ v, .word v ∈ tokens (line buf) → ∀ i, Inside buf v i → address buf w.stop ≠ i := by
  obtain ⟨⟨d, hd, rfl⟩, hbuf⟩ := (parsecmd_sound buf).of_ok h
  have hmem : ∀ w, w ∈ d.tree.words ↔ .word w ∈ tokens (line buf) := by
    intro w
    rw [d.mem_words, hd]
  have hword : ∀ w ∈ d.tree.words, WordOf (line buf) w := fun w hw => wordOf_lex ((hmem w).1 hw)
  have hterm : buf' = terminated buf d.tree.words (strlen buf) := hbuf.trans (nulterminate_eq _ _ _)
  refine ⟨hmem, fun w hw => ?_, fun w hw v hv i hi => (hword w hw).stop_outside (wordOf_lex hv) hi⟩
  obtain ⟨body, -, -, hstop⟩ := (hword w hw).parts
  rw [hterm]
  refine cstring_eq (by omega) (fun i hle hlt => ?_) (nul_terminated hw)
  have hi : Inside buf w i := ⟨hle, hlt⟩
  constructor
  · exact terminated_of_ne fun v hv => (hword v hv).stop_outside (hword w hw) hi
  · rw [← getElem?_line (hlt.trans_le (address_le _))]
    exact fun h0 => zero_not_mem_take_strlen buf (List.mem_of_getElem? h0)

/-- `ls>a`: the NUL behind `ls` overwrites the symbol. -/
theorem parsecmd_words_redirection :
    parsecmd ['l'.toUInt8, 's'.toUInt8, '>'.toUInt8, 'a'.toUInt8, 0] =
      .ok (.redir (.exec [⟨['l'.toUInt8, 's'.toUInt8, '>'.toUInt8, 'a'.toUInt8], ['>'.toUInt8, 'a'.toUInt8]⟩]) ⟨['a'.toUInt8], []⟩ oWronlyCreate 1,
        ['l'.toUInt8, 's'.toUInt8, 0, 'a'.toUInt8, 0]) ∧
    cstring ['l'.toUInt8, 's'.toUInt8, 0, 'a'.toUInt8, 0] 0 = ['l'.toUInt8, 's'.toUInt8] := by
  have h : parsecmd ['l'.toUInt8, 's'.toUInt8, '>'.toUInt8, 'a'.toUInt8, 0] = .ok (_, _) := rfl
  refine ⟨h, ?_⟩
  exact (parsecmd_words h).2.1 ⟨['l'.toUInt8, 's'.toUInt8, '>'.toUInt8, 'a'.toUInt8], ['>'.toUInt8, 'a'.toUInt8]⟩ (by decide)

end DemandPaging.User.Shell
