/-
The tokens of a command line, and `gettoken` and `peek` on them: a parser that is at a place in the line
sees the list of the tokens from there on.
-/
import DemandPaging.User.Shell

namespace DemandPaging.User.Shell

variable {c : UInt8} {s : List UInt8} {k : Sym} {w : Word}

/-! ## Characters -/

theorem isSpace_iff : isSpace c = true ↔ c ∈ whitespace := strchr_isSome (by decide)

theorem isWordChar_iff : isWordChar c = true ↔ c ∉ whitespace ∧ c ∉ symbols := by
  have h₁ : (strchr whitespace c).isSome = true ↔ c ∈ whitespace := strchr_isSome (by decide)
  have h₂ : (strchr symbols c).isSome = true ↔ c ∈ symbols := strchr_isSome (by decide)
  rw [isWordChar, Bool.and_eq_true, Bool.not_eq_true', Bool.not_eq_true', ← Bool.not_eq_true, ← Bool.not_eq_true, h₁, h₂]

/-- The character that a symbol starts with. -/
def Sym.char : Sym → UInt8
  | .bar => '|'.toUInt8
  | .lparen => '('.toUInt8
  | .rparen => ')'.toUInt8
  | .semi => ';'.toUInt8
  | .amp => '&'.toUInt8
  | .less => '<'.toUInt8
  | .greater => '>'.toUInt8
  | .append => '>'.toUInt8

theorem symOf_char (h : symOf c = some k) : k.char = c ∧ k ≠ .append := by
  unfold symOf at h
  split_ifs at h with h₁ h₂ h₃ h₄ h₅ h₆ h₇
  all_goals
    cases h
    exact ⟨by simp [Sym.char, *], by decide⟩

theorem symOf_none : symOf c = none ↔ c ∉ symbols := by
  constructor
  · intro h
    unfold symOf at h
    split_ifs at h
    simp [symbols, *]
  · intro h
    simp only [symbols, List.mem_cons, List.not_mem_nil, or_false, not_or] at h
    obtain ⟨h₁, h₂, h₃, h₄, h₅, h₆, h₇⟩ := h
    simp [symOf, h₁, h₂, h₃, h₄, h₅, h₆, h₇]

/-! ## Tokens -/

inductive Token
  | sym (k : Sym)
  | word (w : Word)
  deriving DecidableEq

/-- The tokens of the first `n` bytes: a symbol, or a run of characters that are neither symbols nor space. -/
def lex : Nat → List UInt8 → List Token
  | 0, _ => []
  | _ + 1, [] => []
  | n + 1, c :: s =>
    if c ∈ whitespace then lex n s
    else if c = '>'.toUInt8 ∧ s.head? = some '>'.toUInt8 then .sym .append :: lex n s.tail
    else
      match symOf c with
      | some k => .sym k :: lex n s
      | none => .word ⟨c :: s, s.dropWhile fun c => c ∉ whitespace ∧ c ∉ symbols⟩ :: lex n (s.dropWhile fun c => c ∉ whitespace ∧ c ∉ symbols)

def tokens (s : List UInt8) : List Token := lex s.length s

/-- Looking at more bytes than there are changes nothing. -/
theorem lex_eq : ∀ {n m : Nat} {s : List UInt8}, s.length ≤ n → s.length ≤ m → lex n s = lex m s
  | 0, 0, _, _, _ => rfl
  | 0, m + 1, [], _, _ => rfl
  | n + 1, 0, [], _, _ => rfl
  | n + 1, m + 1, [], _, _ => rfl
  | n + 1, m + 1, c :: s, hn, hm => by
    have hn : s.length ≤ n := Nat.le_of_succ_le_succ hn
    have hm : s.length ≤ m := Nat.le_of_succ_le_succ hm
    have htail : s.tail.length ≤ s.length := by simp
    have hdrop : (s.dropWhile fun c => c ∉ whitespace ∧ c ∉ symbols).length ≤ s.length := (List.dropWhile_sublist _).length_le
    rw [lex, lex, lex_eq hn hm, lex_eq (htail.trans hn) (htail.trans hm), lex_eq (hdrop.trans hn) (hdrop.trans hm)]

theorem tokens_cons (c : UInt8) (s : List UInt8) : tokens (c :: s) = lex (s.length + 1) (c :: s) := rfl

theorem lex_length {n : Nat} (h : s.length ≤ n) : lex n s = tokens s := lex_eq h le_rfl

theorem tokens_of_space (hc : c ∈ whitespace) : tokens (c :: s) = tokens s := by
  rw [tokens_cons, lex, if_pos hc]
  rfl

theorem tokens_append (s : List UInt8) : tokens ('>'.toUInt8 :: '>'.toUInt8 :: s) = .sym .append :: tokens s := by
  rw [tokens_cons, lex, if_neg (by decide), if_pos ⟨rfl, rfl⟩, List.tail_cons, List.length_cons, lex_length (Nat.le_succ _)]

theorem tokens_sym (hc : c ∉ whitespace) (hk : symOf c = some k) (hne : ¬ (c = '>'.toUInt8 ∧ s.head? = some '>'.toUInt8)) :
    tokens (c :: s) = .sym k :: tokens s := by
  rw [tokens_cons, lex, if_neg hc, if_neg hne]
  simp only [hk]
  rfl

theorem wordChar_eq : (fun c => decide (c ∉ whitespace ∧ c ∉ symbols)) = isWordChar := by
  funext c
  rw [Bool.eq_iff_iff, decide_eq_true_iff, isWordChar_iff]

theorem tokens_word (hc : c ∉ whitespace) (hk : symOf c = none) :
    tokens (c :: s) = .word ⟨c :: s, s.dropWhile isWordChar⟩ :: tokens (s.dropWhile isWordChar) := by
  have hne : ¬ (c = '>'.toUInt8 ∧ s.head? = some '>'.toUInt8) := by
    rintro ⟨rfl, -⟩
    exact absurd hk (by decide)
  rw [tokens_cons, lex, if_neg hc, if_neg hne]
  simp only [hk, wordChar_eq]
  rw [lex_length (List.dropWhile_sublist _).length_le]

theorem tokens_skip : ∀ s : List UInt8, tokens (s.dropWhile isSpace) = tokens s
  | [] => rfl
  | c :: s => by
    by_cases hc : isSpace c = true
    · rw [List.dropWhile_cons_of_pos hc, tokens_skip s, tokens_of_space (isSpace_iff.1 hc)]
    · rw [List.dropWhile_cons_of_neg hc]

theorem length_lex_le : ∀ (n : Nat) (s : List UInt8), (lex n s).length ≤ n
  | 0, _ => le_rfl
  | n + 1, [] => Nat.zero_le _
  | n + 1, c :: s => by
    rw [lex]
    split
    · exact (length_lex_le n s).trans (Nat.le_succ _)
    split
    · exact Nat.succ_le_succ (length_lex_le n _)
    split
    · exact Nat.succ_le_succ (length_lex_le n s)
    · exact Nat.succ_le_succ (length_lex_le n _)

/-! ## The place of the parser -/

/-- At the place there are the tokens still to come; the line has no NUL. -/
structure At (s : List UInt8) (ts : List Token) : Prop where
  clean : 0 ∉ s
  tokens : tokens s = ts

variable {ts : List Token}

theorem At.length_le (h : At s ts) : ts.length ≤ s.length := h.tokens ▸ length_lex_le _ s

theorem At.skip (h : At s ts) : At (s.dropWhile isSpace) ts :=
  ⟨fun h0 => h.clean ((List.dropWhile_sublist _).subset h0), (tokens_skip s).trans h.tokens⟩

/-- Where the token starts: at the end of the line, or at a character that is not space. -/
theorem skip_cases (s : List UInt8) (h : 0 ∉ s) : s.dropWhile isSpace = [] ∨
    ∃ c r, s.dropWhile isSpace = c :: r ∧ c ∉ whitespace ∧ c ≠ 0 := by
  cases hq : s.dropWhile isSpace with
  | nil => exact .inl rfl
  | cons c r =>
    refine .inr ⟨c, r, rfl, fun hc => ?_, ?_⟩
    · have hne : s.dropWhile isSpace ≠ [] := by rw [hq]; exact List.cons_ne_nil _ _
      have hhead := List.head_dropWhile_not isSpace hne
      simp only [hq, List.head_cons] at hhead
      rw [isSpace_iff.2 hc] at hhead
      cases hhead
    · rintro rfl
      exact h ((List.dropWhile_sublist _).subset (hq ▸ List.mem_cons_self))

/-- The first token and what `gettoken` makes of it. -/
theorem switchTok_cases {r : List UInt8} (hc : c ∉ whitespace) (h0 : c ≠ 0) :
    (∃ k e, switchTok (c :: r) = (.sym k, e) ∧ tokens (c :: r) = .sym k :: tokens e ∧ k.char = c ∧ e <:+ r) ∨
    ∃ e, switchTok (c :: r) = (.word, e) ∧ tokens (c :: r) = .word ⟨c :: r, e⟩ :: tokens e ∧ c ∉ symbols ∧ e <:+ r := by
  have hchr : ¬ chr (c :: r) = 0 := h0
  rw [switchTok, if_neg hchr]
  cases hk : symOf c with
  | none =>
    have hw : isWordChar c = true := isWordChar_iff.2 ⟨hc, symOf_none.1 hk⟩
    have hsym : symOf (chr (c :: r)) = none := hk
    refine .inr ⟨r.dropWhile isWordChar, ?_, tokens_word hc hk, symOf_none.1 hk, List.dropWhile_suffix _⟩
    simp only [hsym, List.dropWhile_cons_of_pos hw]
  | some k =>
    have hsym : symOf (chr (c :: r)) = some k := hk
    obtain ⟨hkc, -⟩ := symOf_char hk
    simp only [hsym]
    by_cases hgt : k = .greater
    · subst hgt
      have hcgt : c = '>'.toUInt8 := hkc.symm
      subst hcgt
      by_cases hnext : chr r = '>'.toUInt8
      · -- two characters make one symbol
        obtain ⟨r', rfl⟩ : ∃ r', r = '>'.toUInt8 :: r' := by
          cases r with
          | nil => exact absurd hnext (by decide)
          | cons d r => exact ⟨r, by rw [← hnext]; rfl⟩
        exact .inl ⟨.append, r', if_pos rfl, tokens_append r', rfl, List.suffix_cons _ _⟩
      · have hne : ¬ ('>'.toUInt8 = '>'.toUInt8 ∧ r.head? = some '>'.toUInt8) := by
          rintro ⟨-, hhead⟩
          cases r with
          | nil => cases hhead
          | cons d r => exact hnext (Option.some.inj hhead)
        exact .inl ⟨.greater, r, if_neg hnext, tokens_sym hc hk hne, rfl, List.suffix_refl r⟩
    · have hne : ¬ (c = '>'.toUInt8 ∧ r.head? = some '>'.toUInt8) := by
        rintro ⟨rfl, -⟩
        exact hgt (Option.some.inj (hk.symm.trans (by decide)))
      refine .inl ⟨k, r, ?_, tokens_sym hc hk hne, hkc, List.suffix_refl r⟩
      cases k with
      | greater => exact absurd rfl hgt
      | _ => rfl

theorem at_of_suffix (h : 0 ∉ s) {e : List UInt8} (he : e <:+ s) : At (e.dropWhile isSpace) (tokens e) :=
  At.skip ⟨fun h0 => h (he.subset h0), rfl⟩

/-- Without a token there is only space. -/
theorem At.skip_eq_nil (h : At s []) : s.dropWhile isSpace = [] := by
  rcases skip_cases s h.clean with hq | ⟨c, r, hq, hc, h0⟩
  · exact hq
  · have hts := h.skip.tokens
    rw [hq] at hts
    rcases switchTok_cases (r := r) hc h0 with ⟨k, e, -, htok, -⟩ | ⟨e, -, htok, -⟩
    · rw [htok] at hts
      cases hts
    · rw [htok] at hts
      cases hts

theorem At.skip_eq_nil_iff (h : At s ts) : s.dropWhile isSpace = [] ↔ ts = [] := by
  constructor
  · intro hq
    have hts := h.skip.tokens
    rw [hq] at hts
    exact hts.symm
  · rintro rfl
    exact h.skip_eq_nil

/-- At the end of the line. -/
theorem At.gettoken_nil (h : At s []) : ∃ w, gettoken s = (.eof, w, []) := by
  refine ⟨⟨[], []⟩, ?_⟩
  rw [gettoken, h.skip_eq_nil]
  rfl

/-- The parts of a line that starts with a token. -/
theorem At.cons_cases {tok : Token} (h : At s (tok :: ts)) : ∃ c r, s.dropWhile isSpace = c :: r ∧
    ((∃ k e, tok = .sym k ∧ k.char = c ∧ switchTok (c :: r) = (.sym k, e) ∧ At (e.dropWhile isSpace) ts) ∨
      ∃ e, tok = .word ⟨c :: r, e⟩ ∧ c ∉ symbols ∧ switchTok (c :: r) = (.word, e) ∧ At (e.dropWhile isSpace) ts) := by
  have hts := h.skip.tokens
  have hclean := h.skip.clean
  rcases skip_cases s h.clean with hq | ⟨c, r, hq, hc, h0⟩
  · rw [hq] at hts
    cases hts
  · rw [hq] at hts hclean
    have hr : 0 ∉ r := fun h => hclean (List.mem_cons_of_mem _ h)
    refine ⟨c, r, hq, ?_⟩
    rcases switchTok_cases (r := r) hc h0 with ⟨k, e, hsw, htok, hkc, he⟩ | ⟨e, hsw, htok, hsym, he⟩
    · rw [htok] at hts
      cases hts
      exact .inl ⟨k, e, rfl, hkc, hsw, at_of_suffix hr he⟩
    · rw [htok] at hts
      cases hts
      exact .inr ⟨e, rfl, hsym, hsw, at_of_suffix hr he⟩

theorem At.gettoken_sym (h : At s (.sym k :: ts)) : ∃ w s', gettoken s = (.sym k, w, s') ∧ At s' ts := by
  obtain ⟨c, r, hq, ⟨k', e, heq, -, hsw, he⟩ | ⟨e, heq, -⟩⟩ := h.cons_cases
  · cases heq
    exact ⟨⟨c :: r, e⟩, _, by rw [gettoken, hq, hsw], he⟩
  · cases heq

theorem At.gettoken_word (h : At s (.word w :: ts)) : ∃ s', gettoken s = (.word, w, s') ∧ At s' ts := by
  obtain ⟨c, r, hq, ⟨k', e, heq, -⟩ | ⟨e, heq, -, hsw, he⟩⟩ := h.cons_cases
  · cases heq
  · cases heq
    exact ⟨_, by rw [gettoken, hq, hsw], he⟩

/-- The first token is a symbol that starts with one of the characters. -/
def heads (toks : List UInt8) : List Token → Bool
  | .sym k :: _ => k.char ∈ toks
  | _ => false

/-- What `peek` looks for. -/
theorem At.peek (h : At s ts) (toks : List UInt8) (htoks : toks ⊆ symbols) : ∃ s', Shell.peek toks s = (heads toks ts, s') ∧ At s' ts := by
  have h0 : 0 ∉ toks := fun hmem => absurd (htoks hmem) (by decide)
  refine ⟨s.dropWhile isSpace, ?_, h.skip⟩
  cases ts with
  | nil =>
    rw [Shell.peek, h.skip_eq_nil]
    rfl
  | cons tok ts =>
    obtain ⟨c, r, hq, hcase⟩ := h.cons_cases
    have hne : c ≠ 0 := by
      rintro rfl
      exact h.skip.clean (hq ▸ List.mem_cons_self)
    have hpeek : Shell.peek toks s = (decide (c ∈ toks), s.dropWhile isSpace) := by
      rw [Shell.peek, hq]
      refine Prod.ext ?_ rfl
      show decide (c ≠ 0 ∧ (strchr toks c).isSome = true) = decide (c ∈ toks)
      rw [decide_eq_decide, strchr_isSome h0, and_iff_right hne]
    rw [hpeek]
    rcases hcase with ⟨k, e, rfl, rfl, -, -⟩ | ⟨e, rfl, hsym, -, -⟩
    · rfl
    · refine Prod.ext ?_ rfl
      show decide (c ∈ toks) = false
      exact decide_eq_false fun hmem => hsym (htoks hmem)

end DemandPaging.User.Shell
