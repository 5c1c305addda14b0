/-
The grammar of command lines. A derivation yields tokens and stands for a command; what may follow a
phrase never continues it, so that no two derivations yield the same tokens.
-/
import DemandPaging.User.Tokens

namespace DemandPaging.User.Shell

inductive Nonterminal
  | line | pipe | cmd

variable {s : List UInt8} {ts r r' : List Token} {N M : Nonterminal}

/-! ## The grammar -/

inductive Direction
  | input | output | append

def Direction.sym : Direction → Sym
  | .input => .less
  | .output => .greater
  | .append => .append

/-- `redir := ('<' | '>' | '>>') word`. -/
abbrev Redir := Direction × Word

/-- A redirection around a command. -/
def Cmd.redirect (c : Cmd) : Redir → Cmd
  | (.input, w) => .redir c w oRdonly 0
  | (.output, w) => .redir c w oWronlyCreate 1
  | (.append, w) => .redir c w oWronlyCreate 1

/-- Later redirections are outermost. -/
def Cmd.wrap (c : Cmd) (rs : List Redir) : Cmd := rs.foldl Cmd.redirect c

/-- `n` times in the background. -/
def Cmd.backs (n : Nat) (c : Cmd) : Cmd := Cmd.back^[n] c

/-- The derivations: `line := pipe '&'* [';' line]`, `pipe := cmd ['|' pipe]`, and
`cmd := '(' line ')' redir* | redir* (word redir*)*` with fewer than `MAXARGS` words. -/
inductive Phrase : Nonterminal → Type
  | simple (pre : List Redir) (args : List (Word × List Redir)) (h : args.length < maxArgs) : Phrase .cmd
  | block (body : Phrase .line) (post : List Redir) : Phrase .cmd
  | single (cmd : Phrase .cmd) : Phrase .pipe
  | bar (left : Phrase .cmd) (right : Phrase .pipe) : Phrase .pipe
  | last (pipe : Phrase .pipe) (amps : Nat) : Phrase .line
  | semi (left : Phrase .pipe) (amps : Nat) (right : Phrase .line) : Phrase .line

def redirTokens (rs : List Redir) : List Token := rs.flatMap fun x => [.sym x.1.sym, .word x.2]

def argTokens (args : List (Word × List Redir)) : List Token := args.flatMap fun a => .word a.1 :: redirTokens a.2

def ampTokens (n : Nat) : List Token := List.replicate n (.sym .amp)

/-- The tokens that are derived. -/
def Phrase.yield : ∀ {N : Nonterminal}, Phrase N → List Token
  | _, .simple pre args _ => redirTokens pre ++ argTokens args
  | _, .block body post => .sym .lparen :: (body.yield ++ .sym .rparen :: redirTokens post)
  | _, .single cmd => cmd.yield
  | _, .bar left right => left.yield ++ .sym .bar :: right.yield
  | _, .last pipe n => pipe.yield ++ ampTokens n
  | _, .semi left n right => left.yield ++ (ampTokens n ++ .sym .semi :: right.yield)

/-- The command that the derivation stands for. -/
def Phrase.tree : ∀ {N : Nonterminal}, Phrase N → Cmd
  | _, .simple pre args _ => (Cmd.exec (args.map Prod.fst)).wrap (pre ++ args.flatMap Prod.snd)
  | _, .block body post => body.tree.wrap post
  | _, .single cmd => cmd.tree
  | _, .bar left right => .pipe left.tree right.tree
  | _, .last pipe n => pipe.tree.backs n
  | _, .semi left n right => .list (left.tree.backs n) right.tree

/-! ## What follows a phrase -/

def Nonterminal.follow : Nonterminal → List Sym
  | .line => [.rparen]
  | .pipe => [.rparen, .amp, .semi]
  | .cmd => [.rparen, .amp, .semi, .bar]

/-- The tokens are none, or start with a symbol that may follow. -/
def Follows (N : Nonterminal) (r : List Token) : Prop := ∀ tok ∈ r.head?, ∃ k ∈ N.follow, tok = .sym k

theorem follows_nil (N : Nonterminal) : Follows N [] := by
  intro tok htok
  cases htok

theorem follows_cons {k : Sym} (hk : k ∈ N.follow) (ts : List Token) : Follows N (.sym k :: ts) := by
  intro tok htok
  cases htok
  exact ⟨k, hk, rfl⟩

theorem Follows.sym {k : Sym} (h : Follows N (.sym k :: ts)) : k ∈ N.follow := by
  obtain ⟨k', hk, heq⟩ := h _ rfl
  cases heq
  exact hk

theorem not_follows_word (N : Nonterminal) (w : Word) (ts : List Token) : ¬ Follows N (.word w :: ts) := by
  intro h
  obtain ⟨k, -, heq⟩ := h _ rfl
  cases heq

theorem Follows.mono (h : Follows N r) (hNM : N.follow ⊆ M.follow) : Follows M r := by
  intro tok htok
  obtain ⟨k, hk, heq⟩ := h tok htok
  exact ⟨k, hNM hk, heq⟩

theorem Follows.heads_false (h : Follows N r) {toks : List UInt8} (hN : ∀ k ∈ N.follow, k.char ∉ toks) : heads toks r = false := by
  cases r with
  | nil => rfl
  | cons tok r =>
    cases tok with
    | word w => rfl
    | sym k => exact decide_eq_false (hN k h.sym)

/-- A pipeline may be followed by its `&`. -/
theorem follows_amps (n : Nat) (h : Follows .pipe r) : Follows .pipe (ampTokens n ++ r) := by
  cases n with
  | zero => exact h
  | succ n => exact follows_cons (by decide) _

theorem heads_direction (d : Direction) (ts : List Token) : heads ['<'.toUInt8, '>'.toUInt8] (.sym d.sym :: ts) = true := by
  cases d <;> rfl

theorem heads_argTokens (args : List (Word × List Redir)) {toks : List UInt8} (hr : heads toks r = false) :
    heads toks (argTokens args ++ r) = false := by
  cases args with
  | nil => exact hr
  | cons a args => rfl

theorem heads_redirTokens (rs : List Redir) {toks : List UInt8} (hd : ∀ d : Direction, d.sym.char ∉ toks) (hr : heads toks r = false) :
    heads toks (redirTokens rs ++ r) = false := by
  cases rs with
  | nil => exact hr
  | cons x rs => exact decide_eq_false (hd x.1)

/-! ## Derivations are unique -/

theorem redirTokens_cons (x : Redir) (rs : List Redir) :
    redirTokens (x :: rs) ++ r = .sym x.1.sym :: .word x.2 :: (redirTokens rs ++ r) := rfl

theorem argTokens_cons (a : Word × List Redir) (args : List (Word × List Redir)) :
    argTokens (a :: args) ++ r = .word a.1 :: (redirTokens a.2 ++ (argTokens args ++ r)) := by
  show .word a.1 :: redirTokens a.2 ++ argTokens args ++ r = _
  rw [List.cons_append, List.cons_append, List.append_assoc]

theorem ampTokens_succ (n : Nat) : ampTokens (n + 1) ++ r = .sym .amp :: (ampTokens n ++ r) := rfl

theorem Direction.sym_injective : Function.Injective Direction.sym := by
  intro d d' h
  cases d <;> cases d' <;> first | rfl | cases h

theorem redirTokens_inj : ∀ {rs rs' : List Redir}, redirTokens rs ++ r = redirTokens rs' ++ r' →
    heads ['<'.toUInt8, '>'.toUInt8] r = false → heads ['<'.toUInt8, '>'.toUInt8] r' = false → rs = rs' ∧ r = r'
  | [], [], h, _, _ => ⟨rfl, h⟩
  | [], x :: rs', h, hr, _ => by
    rw [redirTokens_cons] at h
    rw [show r = _ from h, heads_direction] at hr
    cases hr
  | x :: rs, [], h, _, hr' => by
    rw [redirTokens_cons] at h
    rw [show r' = _ from h.symm, heads_direction] at hr'
    cases hr'
  | x :: rs, x' :: rs', h, hr, hr' => by
    rw [redirTokens_cons, redirTokens_cons] at h
    injection h with hsym h
    injection h with hword h
    obtain ⟨rfl, rfl⟩ := redirTokens_inj h hr hr'
    have hx : x = x' := Prod.ext (Direction.sym_injective (Token.sym.inj hsym)) (Token.word.inj hword)
    exact ⟨by rw [hx], rfl⟩

/-- No redirection follows a command. -/
theorem Follows.no_redir (h : Follows .cmd r) : heads ['<'.toUInt8, '>'.toUInt8] r = false := h.heads_false (by decide)

theorem argTokens_inj : ∀ {args args' : List (Word × List Redir)}, argTokens args ++ r = argTokens args' ++ r' →
    Follows .cmd r → Follows .cmd r' → args = args' ∧ r = r'
  | [], [], h, _, _ => ⟨rfl, h⟩
  | [], a :: args', h, hr, _ => by
    rw [argTokens_cons] at h
    rw [show r = _ from h] at hr
    exact absurd hr (not_follows_word _ _ _)
  | a :: args, [], h, _, hr' => by
    rw [argTokens_cons] at h
    rw [show r' = _ from h.symm] at hr'
    exact absurd hr' (not_follows_word _ _ _)
  | a :: args, a' :: args', h, hr, hr' => by
    rw [argTokens_cons, argTokens_cons] at h
    injection h with hword h
    obtain ⟨hredirs, h⟩ := redirTokens_inj h (heads_argTokens args hr.no_redir) (heads_argTokens args' hr'.no_redir)
    obtain ⟨rfl, rfl⟩ := argTokens_inj h hr hr'
    have ha : a = a' := Prod.ext (Token.word.inj hword) hredirs
    exact ⟨by rw [ha], rfl⟩

theorem ampTokens_inj : ∀ {n m : Nat}, ampTokens n ++ r = ampTokens m ++ r' → heads ['&'.toUInt8] r = false →
    heads ['&'.toUInt8] r' = false → n = m ∧ r = r'
  | 0, 0, h, _, _ => ⟨rfl, h⟩
  | 0, m + 1, h, hr, _ => by
    rw [show r = _ from h] at hr
    cases hr
  | n + 1, 0, h, _, hr' => by
    rw [show r' = _ from h.symm] at hr'
    cases hr'
  | n + 1, m + 1, h, hr, hr' => by
    rw [ampTokens_succ, ampTokens_succ] at h
    injection h with _ h
    obtain ⟨rfl, rfl⟩ := ampTokens_inj h hr hr'
    exact ⟨rfl, rfl⟩

/-- What starts a simple command does not open a block. -/
theorem heads_simple (pre : List Redir) (args : List (Word × List Redir)) (hr : Follows .cmd r) :
    heads ['('.toUInt8] (redirTokens pre ++ (argTokens args ++ r)) = false := by
  refine heads_redirTokens pre ?_ (heads_argTokens args (hr.heads_false (by decide)))
  intro d
  cases d <;> decide

section Yield

variable (pre post : List Redir) (args : List (Word × List Redir)) (h : args.length < maxArgs) (body : Phrase .line)
  (c : Phrase .cmd) (p : Phrase .pipe) (n : Nat)

theorem Phrase.yield_simple : (simple pre args h).yield ++ r = redirTokens pre ++ (argTokens args ++ r) := List.append_assoc _ _ _

theorem Phrase.yield_block : (block body post).yield ++ r = .sym .lparen :: (body.yield ++ .sym .rparen :: (redirTokens post ++ r)) := by
  rw [yield, List.cons_append, List.append_assoc, List.cons_append]

theorem Phrase.yield_bar : (bar c p).yield ++ r = c.yield ++ .sym .bar :: (p.yield ++ r) := by
  rw [yield, List.append_assoc, List.cons_append]

theorem Phrase.yield_last : (last p n).yield ++ r = p.yield ++ (ampTokens n ++ r) := List.append_assoc _ _ _

theorem Phrase.yield_semi : (semi p n body).yield ++ r = p.yield ++ (ampTokens n ++ .sym .semi :: (body.yield ++ r)) := by
  rw [yield, List.append_assoc, List.append_assoc, List.cons_append]

end Yield

/-- Two phrases that start the same tokens, each followed by what may follow it, are one. -/
theorem Phrase.yield_append_inj {d d' : Phrase N} (h : d.yield ++ r = d'.yield ++ r') (hr : Follows N r) (hr' : Follows N r') :
    d = d' ∧ r = r' := by
  induction d generalizing r r' with
  | simple pre args hargs =>
    cases d' with
    | simple pre' args' hargs' =>
      rw [yield_simple, yield_simple] at h
      obtain ⟨rfl, h₁⟩ := redirTokens_inj h (heads_argTokens args hr.no_redir) (heads_argTokens args' hr'.no_redir)
      obtain ⟨rfl, rfl⟩ := argTokens_inj h₁ hr hr'
      exact ⟨rfl, rfl⟩
    | block body' post' =>
      have hheads := heads_simple pre args hr
      rw [← yield_simple pre args hargs, h] at hheads
      cases hheads
  | block body post ih =>
    cases d' with
    | simple pre' args' hargs' =>
      have hheads := heads_simple pre' args' hr'
      rw [← yield_simple pre' args' hargs', ← h] at hheads
      cases hheads
    | block body' post' =>
      rw [yield_block, yield_block] at h
      injection h with _ h
      obtain ⟨rfl, h₁⟩ := ih h (follows_cons (by decide) _) (follows_cons (by decide) _)
      injection h₁ with _ h₁
      obtain ⟨rfl, rfl⟩ := redirTokens_inj h₁ hr.no_redir hr'.no_redir
      exact ⟨rfl, rfl⟩
  | single c ih =>
    cases d' with
    | single c' =>
      obtain ⟨rfl, rfl⟩ := ih h (hr.mono (by decide)) (hr'.mono (by decide))
      exact ⟨rfl, rfl⟩
    | bar left' right' =>
      rw [yield_bar] at h
      obtain ⟨-, rfl⟩ := ih h (hr.mono (by decide)) (follows_cons (by decide) _)
      exact absurd hr.sym (by decide)
  | bar left right ihl ihr =>
    cases d' with
    | single c' =>
      rw [yield_bar] at h
      obtain ⟨-, rfl⟩ := ihl h (follows_cons (by decide) _) (hr'.mono (by decide))
      exact absurd hr'.sym (by decide)
    | bar left' right' =>
      rw [yield_bar, yield_bar] at h
      obtain ⟨rfl, h₁⟩ := ihl h (follows_cons (by decide) _) (follows_cons (by decide) _)
      injection h₁ with _ h₁
      obtain ⟨rfl, rfl⟩ := ihr h₁ hr hr'
      exact ⟨rfl, rfl⟩
  | last p n ih =>
    have hrp : Follows .pipe r := hr.mono (by decide)
    cases d' with
    | last p' n' =>
      rw [yield_last, yield_last] at h
      obtain ⟨rfl, h₁⟩ := ih h (follows_amps n hrp) (follows_amps n' (hr'.mono (by decide)))
      obtain ⟨rfl, rfl⟩ := ampTokens_inj h₁ (hr.heads_false (by decide)) (hr'.heads_false (by decide))
      exact ⟨rfl, rfl⟩
    | semi left' n' right' =>
      rw [yield_last, yield_semi] at h
      obtain ⟨-, h₁⟩ := ih h (follows_amps n hrp) (follows_amps n' (follows_cons (by decide) _))
      obtain ⟨-, rfl⟩ := ampTokens_inj h₁ (hr.heads_false (by decide)) rfl
      exact absurd hr.sym (by decide)
  | semi left n right ihl ihr =>
    cases d' with
    | last p' n' =>
      rw [yield_last, yield_semi] at h
      obtain ⟨-, h₁⟩ := ihl h (follows_amps n (follows_cons (by decide) _)) (follows_amps n' (hr'.mono (by decide)))
      obtain ⟨-, rfl⟩ := ampTokens_inj h₁ rfl (hr'.heads_false (by decide))
      exact absurd hr'.sym (by decide)
    | semi left' n' right' =>
      rw [yield_semi, yield_semi] at h
      obtain ⟨rfl, h₁⟩ := ihl h (follows_amps n (follows_cons (by decide) _)) (follows_amps n' (follows_cons (by decide) _))
      obtain ⟨rfl, h₂⟩ := ampTokens_inj h₁ rfl rfl
      injection h₂ with _ h₂
      obtain ⟨rfl, rfl⟩ := ihr h₂ hr hr'
      exact ⟨rfl, rfl⟩

theorem Phrase.yield_injective : Function.Injective (Phrase.yield (N := N)) := by
  intro d d' h
  have happ : d.yield ++ [] = d'.yield ++ [] := by rw [h]
  exact (yield_append_inj happ (follows_nil N) (follows_nil N)).1

end DemandPaging.User.Shell
