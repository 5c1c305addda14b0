/-
`parsecmd` accepts exactly the lines of the grammar. Where the tokens start with a phrase, followed by
what may follow it, the function of its nonterminal returns the tree of the phrase and stops behind it;
and a function that returns has consumed a phrase. Each token pays for four calls, so that no function runs
out of fuel.
-/
import DemandPaging.Lib.Outcome
import DemandPaging.User.Grammar

namespace DemandPaging.User.Shell

open Outcome

variable {s : List UInt8} {ts r : List Token} {N : Nonterminal} {fuel : Nat} {c : UInt8} {k : Sym}

/-! ## One symbol -/

/-- A character that is one symbol whatever follows it. -/
theorem heads_single (hk : symOf c = some k) (hne : k ≠ .greater) (h : heads [c] ts = true) : ∃ r, ts = .sym k :: r := by
  cases ts with
  | nil => cases h
  | cons tok r =>
    cases tok with
    | word w => cases h
    | sym k' =>
      have hchar : k'.char = k.char := by
        rw [(symOf_char hk).1]
        exact List.mem_singleton.1 (of_decide_eq_true h)
      have heq : k' = k := by
        have happend := (symOf_char hk).2
        revert hchar hne happend
        cases k <;> cases k' <;> decide
      exact ⟨r, by rw [heq]⟩

theorem char_mem_symbols (k : Sym) : k.char ∈ symbols := by
  cases k <;> decide

theorem singleton_subset_symbols (hk : symOf c = some k) : [c] ⊆ symbols := by
  rw [← (symOf_char hk).1]
  exact List.cons_subset.2 ⟨char_mem_symbols k, List.nil_subset _⟩

/-- `peek` finds the symbol, and `gettoken` then takes it. -/
theorem At.take (hk : symOf c = some k) (h : At s (.sym k :: ts)) :
    ∃ s', Shell.peek [c] s = (true, s') ∧ At s' (.sym k :: ts) ∧ At (gettoken s').2.2 ts := by
  obtain ⟨s', hpeek, h'⟩ := h.peek [c] (singleton_subset_symbols hk)
  obtain ⟨w, s'', htok, h''⟩ := h'.gettoken_sym
  have htrue : heads [c] (.sym k :: ts) = true := decide_eq_true (List.mem_singleton.2 (symOf_char hk).1)
  rw [htrue] at hpeek
  refine ⟨s', hpeek, h', ?_⟩
  rw [htok]
  exact h''

/-- `peek` does not find the symbol. -/
theorem At.pass (hk : symOf c = some k) (h : At s ts) (hne : heads [c] ts = false) : ∃ s', Shell.peek [c] s = (false, s') ∧ At s' ts := by
  obtain ⟨s', hpeek, h'⟩ := h.peek [c] (singleton_subset_symbols hk)
  rw [hne] at hpeek
  exact ⟨s', hpeek, h'⟩

theorem At.peek_cases (hk : symOf c = some k) (hne : k ≠ .greater) (h : At s ts) :
    (∃ r s', ts = .sym k :: r ∧ Shell.peek [c] s = (true, s') ∧ At s' ts ∧ At (gettoken s').2.2 r) ∨
      heads [c] ts = false ∧ ∃ s', Shell.peek [c] s = (false, s') ∧ At s' ts := by
  cases hheads : heads [c] ts with
  | false => exact .inr ⟨rfl, h.pass hk hheads⟩
  | true =>
    obtain ⟨r, rfl⟩ := heads_single hk hne hheads
    obtain ⟨s', hpeek, h', h''⟩ := h.take hk
    exact .inl ⟨r, s', rfl, hpeek, h', h''⟩

/-! ## Redirections -/

theorem wrap_append (t : Cmd) (rs rs' : List Redir) : t.wrap (rs ++ rs') = (t.wrap rs).wrap rs' := List.foldl_append

theorem addArg_redirect (t : Cmd) (x : Redir) (w : Word) : (t.redirect x).addArg w = (t.addArg w).redirect x := by
  obtain ⟨d, v⟩ := x
  cases d <;> rfl

/-- A word goes to the command under the redirections. -/
theorem addArg_wrap (w : Word) : ∀ (rs : List Redir) (t : Cmd), (t.wrap rs).addArg w = (t.addArg w).wrap rs
  | [], _ => rfl
  | x :: rs, t => by
    show ((t.redirect x).wrap rs).addArg w = ((t.addArg w).redirect x).wrap rs
    rw [addArg_wrap w rs, addArg_redirect]

theorem redir_subset : ['<'.toUInt8, '>'.toUInt8] ⊆ symbols := by decide

theorem heads_redir (h : heads ['<'.toUInt8, '>'.toUInt8] ts = true) : ∃ (d : Direction) (r : _), ts = .sym d.sym :: r := by
  cases ts with
  | nil => cases h
  | cons tok r =>
    cases tok with
    | word w => cases h
    | sym k =>
      have hk : ∃ d : Direction, k = d.sym := by
        cases k with
        | less => exact ⟨.input, rfl⟩
        | greater => exact ⟨.output, rfl⟩
        | append => exact ⟨.append, rfl⟩
        | _ => cases h
      obtain ⟨d, rfl⟩ := hk
      exact ⟨d, r, rfl⟩

/-- One round of `parseredirs`. -/
theorem parseredirs_step (t : Cmd) (fuel : Nat) {d : Direction} {w : Word} (h : At s (.sym d.sym :: .word w :: ts)) :
    ∃ s', parseredirs (fuel + 1) t s = parseredirs fuel (t.redirect (d, w)) s' ∧ At s' ts := by
  obtain ⟨s₁, hpeek, h₁⟩ := h.peek _ redir_subset
  obtain ⟨v, s₂, htok, h₂⟩ := h₁.gettoken_sym
  obtain ⟨s₃, htok', h₃⟩ := h₂.gettoken_word
  rw [heads_direction] at hpeek
  refine ⟨s₃, ?_, h₃⟩
  rw [parseredirs, hpeek]
  simp only [htok, htok']
  cases d <;> rfl

theorem parseredirs_stop (t : Cmd) (fuel : Nat) (h : At s ts) (hstop : heads ['<'.toUInt8, '>'.toUInt8] ts = false) :
    ∃ s', parseredirs (fuel + 1) t s = .ok (t, s') ∧ At s' ts := by
  obtain ⟨s₁, hpeek, h₁⟩ := h.peek _ redir_subset
  rw [hstop] at hpeek
  exact ⟨s₁, by rw [parseredirs, hpeek], h₁⟩

/-- A direction without a file is an error. -/
theorem parseredirs_panic (t : Cmd) (fuel : Nat) {d : Direction} (h : At s (.sym d.sym :: ts)) (hts : ∀ w r, ts ≠ .word w :: r) :
    parseredirs (fuel + 1) t s = .error (.panic "missing file for redirection") := by
  obtain ⟨s₁, hpeek, h₁⟩ := h.peek _ redir_subset
  obtain ⟨v, s₂, htok, h₂⟩ := h₁.gettoken_sym
  rw [heads_direction] at hpeek
  rw [parseredirs, hpeek]
  cases ts with
  | nil =>
    obtain ⟨w, hnil⟩ := h₂.gettoken_nil
    simp only [htok, hnil]
  | cons tok ts =>
    cases tok with
    | word w => exact absurd rfl (hts w ts)
    | sym k =>
      obtain ⟨v', s₃, hsym, -⟩ := h₂.gettoken_sym
      simp only [htok, hsym]

/-- `parseredirs` consumes the redirections. -/
theorem parseredirs_complete : ∀ (rs : List Redir) (t : Cmd) {s : List UInt8} {fuel : Nat}, At s (redirTokens rs ++ r) →
    (redirTokens rs ++ r).length < fuel → heads ['<'.toUInt8, '>'.toUInt8] r = false →
    ∃ s', parseredirs fuel t s = .ok (t.wrap rs, s') ∧ At s' r
  | [], t, s, fuel + 1, h, _, hstop => parseredirs_stop t fuel h hstop
  | x :: rs, t, s, fuel + 1, h, hf, hstop => by
    rw [redirTokens_cons] at h hf
    obtain ⟨s', hstep, h'⟩ := parseredirs_step t fuel h
    rw [hstep]
    refine parseredirs_complete rs (t.redirect x) h' ?_ hstop
    rw [List.length_cons, List.length_cons] at hf
    omega

/-- `parseredirs` consumes redirections, or finds one without a file. -/
theorem parseredirs_sound : ∀ {fuel : Nat} {t : Cmd} {s : List UInt8} {ts : List Token}, At s ts → ts.length < fuel →
    Ends (fun x => ∃ rs r, ts = redirTokens rs ++ r ∧ x.1 = t.wrap rs ∧ At x.2 r) (· ≠ Fault.diverge) (parseredirs fuel t s)
  | fuel + 1, t, s, ts, h, hf => by
    cases hheads : heads ['<'.toUInt8, '>'.toUInt8] ts with
    | false =>
      obtain ⟨s', hres, h'⟩ := parseredirs_stop t fuel h hheads
      rw [hres]
      exact ⟨[], ts, rfl, rfl, h'⟩
    | true =>
      obtain ⟨d, r, rfl⟩ := heads_redir hheads
      by_cases hword : ∃ w r', r = .word w :: r'
      · obtain ⟨w, r, rfl⟩ := hword
        obtain ⟨s', hstep, h'⟩ := parseredirs_step t fuel h
        rw [List.length_cons, List.length_cons] at hf
        rw [hstep]
        refine (parseredirs_sound h' (by omega)).mono ?_
        rintro x ⟨rs, r', rfl, hx, hx'⟩
        exact ⟨(d, w) :: rs, r', rfl, hx, hx'⟩
      · rw [parseredirs_panic t fuel h fun w r' heq => hword ⟨w, r', heq⟩]
        exact Fault.noConfusion

/-! ## Arguments -/

theorem stop_subset : ['|'.toUInt8, ')'.toUInt8, '&'.toUInt8, ';'.toUInt8] ⊆ symbols := by decide

theorem heads_stop (hk : k ∈ Nonterminal.cmd.follow) : k.char ∈ ['|'.toUInt8, ')'.toUInt8, '&'.toUInt8, ';'.toUInt8] := by
  revert hk
  cases k <;> decide

/-- The loop of `parseexec` ends at what may follow a command. -/
theorem parseargs_stop (t : Cmd) (argc fuel : Nat) (h : At s r) (hr : Follows .cmd r) :
    ∃ s', parseargs (fuel + 1) argc t s = .ok (t, s') ∧ At s' r := by
  obtain ⟨s₁, hpeek, h₁⟩ := h.peek _ stop_subset
  rw [parseargs, hpeek]
  cases r with
  | nil =>
    obtain ⟨w, hnil⟩ := h₁.gettoken_nil
    refine ⟨[], ?_, ⟨List.not_mem_nil, rfl⟩⟩
    simp only [heads, hnil]
  | cons tok r =>
    obtain ⟨k, hk, rfl⟩ := hr tok rfl
    have htrue : heads ['|'.toUInt8, ')'.toUInt8, '&'.toUInt8, ';'.toUInt8] (.sym k :: r) = true := decide_eq_true (heads_stop hk)
    refine ⟨s₁, ?_, h₁⟩
    rw [htrue]

/-- A symbol that may not follow a command is an error. -/
theorem parseargs_panic (t : Cmd) (argc fuel : Nat) (h : At s (.sym k :: ts)) (hk : ¬ Follows .cmd (.sym k :: ts)) :
    parseargs (fuel + 1) argc t s = .error (.panic "syntax") := by
  obtain ⟨s₁, hpeek, h₁⟩ := h.peek _ stop_subset
  obtain ⟨v, s₂, htok, -⟩ := h₁.gettoken_sym
  have hfalse : heads ['|'.toUInt8, ')'.toUInt8, '&'.toUInt8, ';'.toUInt8] (.sym k :: ts) = false := by
    refine decide_eq_false fun hmem => hk (follows_cons ?_ ts)
    revert hmem
    cases k <;> decide
  rw [parseargs, hpeek, hfalse]
  simp only [htok]

/-- A word is stored, and what follows it is taken as redirections. -/
theorem parseargs_word (t : Cmd) {argc : Nat} (fuel : Nat) {w : Word} (h : At s (.word w :: ts)) (hlt : argc + 1 < maxArgs) :
    ∃ s', At s' ts ∧ parseargs (fuel + 1) argc t s =
      (parseredirs (s'.length + 1) (t.addArg w) s' >>= fun x => parseargs fuel (argc + 1) x.1 x.2) := by
  obtain ⟨s₁, hpeek, h₁⟩ := h.peek _ stop_subset
  obtain ⟨s₂, htok, h₂⟩ := h₁.gettoken_word
  refine ⟨s₂, h₂, ?_⟩
  rw [parseargs, hpeek]
  simp only [heads, htok]
  rw [if_neg (not_le.2 hlt)]

/-- One word too many is an error. -/
theorem parseargs_full (t : Cmd) {argc : Nat} (fuel : Nat) {w : Word} (h : At s (.word w :: ts)) (hle : maxArgs ≤ argc + 1) :
    parseargs (fuel + 1) argc t s = .error (.panic "too many args") := by
  obtain ⟨s₁, hpeek, h₁⟩ := h.peek _ stop_subset
  obtain ⟨s₂, htok, -⟩ := h₁.gettoken_word
  rw [parseargs, hpeek]
  simp only [heads, htok]
  rw [if_pos hle]

/-- The command with the words and redirections so far. -/
def simpleCmd (ws : List Word) (rs : List Redir) : Cmd := (Cmd.exec ws).wrap rs

theorem simpleCmd_step (ws : List Word) (rs rs' : List Redir) (w : Word) :
    ((simpleCmd ws rs).addArg w).wrap rs' = simpleCmd (ws ++ [w]) (rs ++ rs') := by
  rw [simpleCmd, simpleCmd, addArg_wrap, wrap_append]
  rfl

theorem simpleCmd_cons (ws : List Word) (rs rs' : List Redir) (w : Word) (args : List (Word × List Redir)) :
    simpleCmd (ws ++ ((w, rs') :: args).map Prod.fst) (rs ++ ((w, rs') :: args).flatMap Prod.snd) =
      simpleCmd (ws ++ [w] ++ args.map Prod.fst) (rs ++ rs' ++ args.flatMap Prod.snd) := by
  simp

/-- The loop of `parseexec` consumes the arguments. -/
theorem parseargs_complete : ∀ (args : List (Word × List Redir)) (ws : List Word) (rs : List Redir) {s : List UInt8} {fuel : Nat},
    At s (argTokens args ++ r) → (argTokens args ++ r).length < fuel → ws.length + args.length < maxArgs → Follows .cmd r →
    ∃ s', parseargs fuel ws.length (simpleCmd ws rs) s =
      .ok (simpleCmd (ws ++ args.map Prod.fst) (rs ++ args.flatMap Prod.snd), s') ∧ At s' r
  | [], ws, rs, s, fuel + 1, h, _, _, hr => by
    rw [List.map_nil, List.flatMap_nil, List.append_nil, List.append_nil]
    exact parseargs_stop _ _ fuel h hr
  | (w, rs') :: args, ws, rs, s, fuel + 1, h, hf, hlen, hr => by
    rw [argTokens_cons] at h hf
    rw [List.length_cons] at hf hlen
    have hword : (ws ++ [w]).length = ws.length + 1 := by rw [List.length_append, List.length_singleton]
    have hfuel : (argTokens args ++ r).length < fuel := by
      rw [List.length_append] at hf
      omega
    have hlt : ws.length + 1 < maxArgs := by omega
    obtain ⟨s₁, h₁, hres⟩ := parseargs_word (simpleCmd ws rs) fuel h hlt
    obtain ⟨s₂, hredirs, h₂⟩ := parseredirs_complete rs' ((simpleCmd ws rs).addArg w) h₁ (Nat.lt_succ_of_le h₁.length_le)
      (heads_argTokens args hr.no_redir)
    obtain ⟨s₃, hargs, h₃⟩ := parseargs_complete args (ws ++ [w]) (rs ++ rs') h₂ hfuel (by omega) hr
    refine ⟨s₃, ?_, h₃⟩
    rw [hres, hredirs, simpleCmd_step, simpleCmd_cons, ← hword]
    exact hargs

/-- The loop of `parseexec` consumes arguments, or ends with an error. -/
theorem parseargs_sound : ∀ {fuel : Nat} (ws : List Word) (rs : List Redir) {s : List UInt8} {ts : List Token}, At s ts →
    ts.length < fuel → ws.length < maxArgs →
    Ends (fun x => ∃ args r, ts = argTokens args ++ r ∧ ws.length + args.length < maxArgs ∧
      x.1 = simpleCmd (ws ++ args.map Prod.fst) (rs ++ args.flatMap Prod.snd) ∧ At x.2 r) (· ≠ Fault.diverge)
      (parseargs fuel ws.length (simpleCmd ws rs) s)
  | fuel + 1, ws, rs, s, ts, h, hf, hws => by
    by_cases hstop : Follows .cmd ts
    · obtain ⟨s', hres, h'⟩ := parseargs_stop (simpleCmd ws rs) ws.length fuel h hstop
      rw [hres]
      refine ⟨[], ts, rfl, hws, ?_, h'⟩
      rw [List.map_nil, List.flatMap_nil, List.append_nil, List.append_nil]
    cases ts with
    | nil => exact absurd (follows_nil _) hstop
    | cons tok ts =>
      cases tok with
      | sym k =>
        rw [parseargs_panic _ _ fuel h hstop]
        exact Fault.noConfusion
      | word w =>
        by_cases hlt : ws.length + 1 < maxArgs
        · have hword : (ws ++ [w]).length = ws.length + 1 := by rw [List.length_append, List.length_singleton]
          obtain ⟨s₁, h₁, hres⟩ := parseargs_word (simpleCmd ws rs) fuel h hlt
          rw [hres]
          refine (parseredirs_sound h₁ (Nat.lt_succ_of_le h₁.length_le)).bind ?_
          rintro ⟨t, s₂⟩ ⟨rs', r, rfl, ht, h₂⟩
          have hrest : r.length < fuel := by
            rw [List.length_cons, List.length_append] at hf
            omega
          dsimp only at ht h₂ ⊢
          rw [ht, simpleCmd_step, ← hword]
          refine (parseargs_sound (ws ++ [w]) (rs ++ rs') h₂ hrest (by omega)).mono ?_
          rintro x ⟨args, r', rfl, hlen, hx, hx'⟩
          refine ⟨(w, rs') :: args, r', ?_, ?_, ?_, hx'⟩
          · rw [argTokens_cons]
          · rw [List.length_cons]
            omega
          · rw [hx, simpleCmd_cons]
        · rw [parseargs_full _ fuel h (not_lt.1 hlt)]
          exact Fault.noConfusion

/-! ## Background -/

/-- The `&` that come first. -/
theorem amps_split : ∀ ts : List Token, ∃ n r, ts = ampTokens n ++ r ∧ heads ['&'.toUInt8] r = false
  | [] => ⟨0, [], rfl, rfl⟩
  | tok :: ts => by
    cases hheads : heads ['&'.toUInt8] (tok :: ts) with
    | false => exact ⟨0, tok :: ts, rfl, hheads⟩
    | true =>
      obtain ⟨r', heq⟩ := heads_single (k := .amp) rfl (by decide) hheads
      obtain ⟨n, r, hts, hr⟩ := amps_split ts
      injection heq with htok _
      exact ⟨n + 1, r, by rw [ampTokens_succ, ← hts, htok], hr⟩

/-- The loop of `parseline` takes each `&`. -/
theorem backLoop_complete : ∀ (n : Nat) (t : Cmd) {s : List UInt8} {fuel : Nat}, At s (ampTokens n ++ r) →
    (ampTokens n ++ r).length < fuel → heads ['&'.toUInt8] r = false →
    ∃ s', backLoop fuel t s = .ok (t.backs n, s') ∧ At s' r
  | 0, t, s, fuel + 1, h, _, hstop => by
    obtain ⟨s', hpeek, h'⟩ := h.pass (k := .amp) rfl hstop
    exact ⟨s', by rw [backLoop, hpeek]; rfl, h'⟩
  | n + 1, t, s, fuel + 1, h, hf, hstop => by
    rw [ampTokens_succ] at h hf
    obtain ⟨s₁, hpeek, -, h₁⟩ := h.take (c := '&'.toUInt8) rfl
    rw [backLoop, hpeek]
    exact backLoop_complete n (.back t) h₁ (Nat.lt_of_succ_lt_succ hf) hstop

/-! ## Recursive descent -/

/-- The function of a nonterminal. -/
def parser : Nonterminal → Nat → List UInt8 → Except Fault (Cmd × List UInt8)
  | .line => parseline
  | .pipe => parsepipe
  | .cmd => parseexec

/-- How many calls deep the function may go before it takes a token. -/
def Nonterminal.depth : Nonterminal → Nat
  | .line => 4
  | .pipe => 3
  | .cmd => 2

/-- A function returns the tree of the phrase that the tokens start with. -/
theorem parser_complete (d : Phrase N) : ∀ {s : List UInt8} {r : List Token} {fuel : Nat}, At s (d.yield ++ r) →
    4 * (d.yield ++ r).length + N.depth ≤ fuel → Follows N r → ∃ s', parser N fuel s = .ok (d.tree, s') ∧ At s' r := by
  induction d with
  | simple pre args hargs =>
    intro s r fuel h hf hr
    rw [Nonterminal.depth] at hf
    obtain ⟨fuel, rfl⟩ : ∃ n, fuel = n + 1 := ⟨fuel - 1, by omega⟩
    rw [Phrase.yield_simple] at h
    obtain ⟨s₁, hpeek, h₁⟩ := h.pass (c := '('.toUInt8) (k := .lparen) rfl (heads_simple pre args hr)
    obtain ⟨s₂, hredirs, h₂⟩ := parseredirs_complete pre (.exec []) h₁ (Nat.lt_succ_of_le h₁.length_le)
      (heads_argTokens args hr.no_redir)
    have hlen : ([] : List Word).length + args.length < maxArgs := by rwa [List.length_nil, Nat.zero_add]
    obtain ⟨s₃, hloop, h₃⟩ := parseargs_complete args [] pre h₂ (Nat.lt_succ_of_le h₂.length_le) hlen hr
    refine ⟨s₃, ?_, h₃⟩
    rw [parser, parseexec, hpeek]
    dsimp only
    rw [hredirs]
    exact hloop
  | block body post ih =>
    intro s r fuel h hf hr
    rw [Phrase.yield_block] at h hf
    rw [List.length_cons, Nonterminal.depth] at hf
    obtain ⟨fuel, rfl⟩ : ∃ n, fuel = n + 2 := ⟨fuel - 2, by omega⟩
    obtain ⟨s₁, hpeek, h₁, -⟩ := h.take (c := '('.toUInt8) rfl
    obtain ⟨s₂, hopen, -, h₂⟩ := h₁.take (c := '('.toUInt8) rfl
    have hbody : 4 * _ + Nonterminal.line.depth ≤ fuel := Nat.le_of_add_le_add_right hf
    obtain ⟨s₃, hline, h₃⟩ := ih h₂ hbody (follows_cons (by decide) _)
    obtain ⟨s₄, hclose, -, h₄⟩ := h₃.take (c := ')'.toUInt8) rfl
    obtain ⟨s₅, hredirs, h₅⟩ := parseredirs_complete post body.tree h₄ (Nat.lt_succ_of_le h₄.length_le) hr.no_redir
    refine ⟨s₅, ?_, h₅⟩
    rw [parser] at hline
    rw [parser, parseexec, hpeek]
    dsimp only
    rw [parseblock, hopen]
    simp only [hline, bind, Except.bind, hclose]
    exact hredirs
  | single cmd ih =>
    intro s r fuel h hf hr
    rw [Nonterminal.depth] at hf
    obtain ⟨fuel, rfl⟩ : ∃ n, fuel = n + 1 := ⟨fuel - 1, by omega⟩
    have hcmd : 4 * _ + Nonterminal.cmd.depth ≤ fuel := Nat.le_of_succ_le_succ hf
    obtain ⟨s₁, hexec, h₁⟩ := ih h hcmd (hr.mono (by decide))
    obtain ⟨s₂, hpeek, h₂⟩ := h₁.pass (c := '|'.toUInt8) (k := .bar) rfl (hr.heads_false (by decide))
    refine ⟨s₂, ?_, h₂⟩
    rw [parser] at hexec
    rw [parser, parsepipe]
    simp only [hexec, bind, Except.bind, hpeek]
    rfl
  | bar left right ihl ihr =>
    intro s r fuel h hf hr
    rw [Phrase.yield_bar] at h hf
    rw [Nonterminal.depth] at hf
    obtain ⟨fuel, rfl⟩ : ∃ n, fuel = n + 1 := ⟨fuel - 1, by omega⟩
    have hleft : 4 * _ + Nonterminal.cmd.depth ≤ fuel := Nat.le_of_succ_le_succ hf
    obtain ⟨s₁, hexec, h₁⟩ := ihl h hleft (follows_cons (by decide) _)
    obtain ⟨s₂, hpeek, -, h₂⟩ := h₁.take (c := '|'.toUInt8) rfl
    have hright : 4 * (right.yield ++ r).length + Nonterminal.pipe.depth ≤ fuel := by
      rw [List.length_append, List.length_cons] at hf
      rw [Nonterminal.depth]
      omega
    obtain ⟨s₃, hpipe, h₃⟩ := ihr h₂ hright hr
    refine ⟨s₃, ?_, h₃⟩
    rw [parser] at hexec
    rw [parser] at hpipe
    rw [parser, parsepipe]
    simp only [hexec, bind, Except.bind, hpeek, hpipe]
    rfl
  | last pipe n ih =>
    intro s r fuel h hf hr
    rw [Phrase.yield_last] at h hf
    rw [Nonterminal.depth] at hf
    obtain ⟨fuel, rfl⟩ : ∃ n, fuel = n + 1 := ⟨fuel - 1, by omega⟩
    have hpipe : 4 * _ + Nonterminal.pipe.depth ≤ fuel := Nat.le_of_succ_le_succ hf
    obtain ⟨s₁, hpipe, h₁⟩ := ih h hpipe (follows_amps n (hr.mono (by decide)))
    obtain ⟨s₂, hback, h₂⟩ := backLoop_complete n pipe.tree h₁ (Nat.lt_succ_of_le h₁.length_le) (hr.heads_false (by decide))
    obtain ⟨s₃, hpeek, h₃⟩ := h₂.pass (c := ';'.toUInt8) (k := .semi) rfl (hr.heads_false (by decide))
    refine ⟨s₃, ?_, h₃⟩
    rw [parser] at hpipe
    rw [parser, parseline]
    simp only [hpipe, bind, Except.bind, hback, hpeek]
    rfl
  | semi left n right ihl ihr =>
    intro s r fuel h hf hr
    rw [Phrase.yield_semi] at h hf
    rw [Nonterminal.depth] at hf
    obtain ⟨fuel, rfl⟩ : ∃ n, fuel = n + 1 := ⟨fuel - 1, by omega⟩
    have hleft : 4 * _ + Nonterminal.pipe.depth ≤ fuel := Nat.le_of_succ_le_succ hf
    obtain ⟨s₁, hpipe, h₁⟩ := ihl h hleft (follows_amps n (follows_cons (by decide) _))
    obtain ⟨s₂, hback, h₂⟩ := backLoop_complete n left.tree h₁ (Nat.lt_succ_of_le h₁.length_le) rfl
    obtain ⟨s₃, hpeek, -, h₃⟩ := h₂.take (c := ';'.toUInt8) rfl
    have hright : 4 * (right.yield ++ r).length + Nonterminal.line.depth ≤ fuel := by
      rw [List.length_append, List.length_append, List.length_cons] at hf
      rw [Nonterminal.depth]
      omega
    obtain ⟨s₄, hline, h₄⟩ := ihr h₃ hright hr
    refine ⟨s₄, ?_, h₄⟩
    rw [parser] at hpipe
    rw [parser] at hline
    rw [parser, parseline]
    simp only [hpipe, bind, Except.bind, hback, hpeek, hline]
    rfl

/-- The function consumes a phrase of the tokens, or fails with an error. -/
def Sound (N : Nonterminal) (ts : List Token) (x : Except Fault (Cmd × List UInt8)) : Prop :=
  Ends (fun x => ∃ (d : Phrase N) (r : _), ts = d.yield ++ r ∧ x.1 = d.tree ∧ At x.2 r) (· ≠ Fault.diverge) x

theorem parseblock_sound (ih : ∀ {s : List UInt8} {ts : List Token}, At s ts → 4 * ts.length + 4 ≤ fuel → Sound .line ts (parseline fuel s))
    (h : At s (.sym .lparen :: ts)) (hf : 4 * ts.length + 4 ≤ fuel) : Sound .cmd (.sym .lparen :: ts) (parseblock (fuel + 1) s) := by
  obtain ⟨s₁, hpeek, -, h₁⟩ := h.take (c := '('.toUInt8) rfl
  rw [Sound, parseblock, hpeek]
  refine (ih h₁ hf).bind ?_
  rintro ⟨t, s₂⟩ ⟨d, r, rfl, ht, h₂⟩
  dsimp only at ht h₂ ⊢
  obtain ⟨r, s₃, rfl, hclose, -, h₃⟩ | ⟨-, s₃, hclose, -⟩ := h₂.peek_cases (c := ')'.toUInt8) (k := .rparen) rfl (by decide)
  · rw [hclose]
    refine (parseredirs_sound h₃ (Nat.lt_succ_of_le h₃.length_le)).mono ?_
    rintro x ⟨rs, r, rfl, hx, hx'⟩
    exact ⟨.block d rs, r, by rw [Phrase.yield_block], by rw [hx, ht, Phrase.tree], hx'⟩
  · rw [hclose]
    exact Fault.noConfusion

theorem parseexec_sound (ih : ∀ {s : List UInt8} {ts : List Token}, At s ts → 4 * ts.length + 4 ≤ fuel → Sound .line ts (parseline fuel s))
    (h : At s ts) (hf : 4 * ts.length ≤ fuel) : Sound .cmd ts (parseexec (fuel + 2) s) := by
  obtain ⟨r, s₁, rfl, hpeek, h₁, -⟩ | ⟨-, s₁, hpeek, h₁⟩ := h.peek_cases (c := '('.toUInt8) (k := .lparen) rfl (by decide)
  · rw [parseexec, hpeek]
    exact parseblock_sound ih h₁ hf
  · rw [Sound, parseexec, hpeek]
    refine (parseredirs_sound h₁ (Nat.lt_succ_of_le h₁.length_le)).bind ?_
    rintro ⟨t, s₂⟩ ⟨pre, r, rfl, ht, h₂⟩
    dsimp only at ht h₂ ⊢
    rw [ht]
    refine (parseargs_sound [] pre h₂ (Nat.lt_succ_of_le h₂.length_le) (by decide)).mono ?_
    rintro x ⟨args, r, rfl, hlen, hx, hx'⟩
    rw [List.length_nil, Nat.zero_add] at hlen
    exact ⟨.simple pre args hlen, r, by rw [Phrase.yield_simple], hx, hx'⟩

theorem parsepipe_sound (ihe : ∀ {s : List UInt8} {ts : List Token}, At s ts → 4 * ts.length + 2 ≤ fuel → Sound .cmd ts (parseexec fuel s))
    (ihp : ∀ {s : List UInt8} {ts : List Token}, At s ts → 4 * ts.length + 3 ≤ fuel → Sound .pipe ts (parsepipe fuel s))
    (h : At s ts) (hf : 4 * ts.length + 2 ≤ fuel) : Sound .pipe ts (parsepipe (fuel + 1) s) := by
  rw [Sound, parsepipe]
  refine (ihe h hf).bind ?_
  rintro ⟨t, s₁⟩ ⟨d, r, rfl, ht, h₁⟩
  dsimp only at ht h₁ ⊢
  obtain ⟨r, s₂, rfl, hpeek, -, h₂⟩ | ⟨-, s₂, hpeek, h₂⟩ := h₁.peek_cases (c := '|'.toUInt8) (k := .bar) rfl (by decide)
  · rw [hpeek]
    rw [List.length_append, List.length_cons] at hf
    refine (ihp h₂ (by omega)).bind ?_
    rintro ⟨u, s₃⟩ ⟨e, r, rfl, hu, h₃⟩
    exact ⟨.bar d e, r, by rw [Phrase.yield_bar], by rw [Phrase.tree, ← ht, ← hu], h₃⟩
  · rw [hpeek]
    exact ⟨.single d, r, rfl, ht, h₂⟩

theorem parseline_sound (ihp : ∀ {s : List UInt8} {ts : List Token}, At s ts → 4 * ts.length + 3 ≤ fuel → Sound .pipe ts (parsepipe fuel s))
    (ihl : ∀ {s : List UInt8} {ts : List Token}, At s ts → 4 * ts.length + 4 ≤ fuel → Sound .line ts (parseline fuel s))
    (h : At s ts) (hf : 4 * ts.length + 3 ≤ fuel) : Sound .line ts (parseline (fuel + 1) s) := by
  rw [Sound, parseline]
  refine (ihp h hf).bind ?_
  rintro ⟨t, s₁⟩ ⟨d, r, rfl, ht, h₁⟩
  dsimp only at ht h₁ ⊢
  obtain ⟨n, r, rfl, hr⟩ := amps_split r
  obtain ⟨s₂, hback, h₂⟩ := backLoop_complete n t h₁ (Nat.lt_succ_of_le h₁.length_le) hr
  simp only [hback, bind, Except.bind]
  obtain ⟨r, s₃, rfl, hpeek, -, h₃⟩ | ⟨-, s₃, hpeek, h₃⟩ := h₂.peek_cases (c := ';'.toUInt8) (k := .semi) rfl (by decide)
  · rw [hpeek]
    rw [List.length_append, List.length_append, List.length_cons] at hf
    refine Ends.bind (ihl h₃ (by omega)) ?_
    rintro ⟨u, s₄⟩ ⟨e, r, rfl, hu, h₄⟩
    exact ⟨.semi d n e, r, by rw [Phrase.yield_semi], by rw [Phrase.tree, ← ht, ← hu], h₄⟩
  · rw [hpeek]
    exact ⟨.last d n, r, by rw [Phrase.yield_last], by rw [Phrase.tree, ← ht], h₃⟩

/-- A function that returns has consumed a phrase of its nonterminal. -/
theorem parser_sound (fuel : Nat) : ∀ {N : Nonterminal} {s : List UInt8} {ts : List Token}, At s ts → 4 * ts.length + N.depth ≤ fuel →
    Sound N ts (parser N fuel s) := by
  induction fuel using Nat.strong_induction_on with
  | _ fuel ih =>
    intro N s ts h hf
    cases N with
    | line =>
      obtain ⟨fuel, rfl⟩ : ∃ n, fuel = n + 1 := ⟨fuel - 1, by rw [Nonterminal.depth] at hf; omega⟩
      exact parseline_sound (ih fuel (Nat.lt_succ_self _) (N := .pipe)) (ih fuel (Nat.lt_succ_self _) (N := .line)) h
        (Nat.le_of_succ_le_succ hf)
    | pipe =>
      obtain ⟨fuel, rfl⟩ : ∃ n, fuel = n + 1 := ⟨fuel - 1, by rw [Nonterminal.depth] at hf; omega⟩
      exact parsepipe_sound (ih fuel (Nat.lt_succ_self _) (N := .cmd)) (ih fuel (Nat.lt_succ_self _) (N := .pipe)) h
        (Nat.le_of_succ_le_succ hf)
    | cmd =>
      obtain ⟨fuel, rfl⟩ : ∃ n, fuel = n + 2 := ⟨fuel - 2, by rw [Nonterminal.depth] at hf; omega⟩
      exact parseexec_sound (ih fuel (by omega) (N := .line)) h (Nat.le_of_add_le_add_right hf)

/-! ## Command lines -/

theorem at_line (buf : List UInt8) : At (line buf) (tokens (line buf)) := ⟨zero_not_mem_take_strlen buf, rfl⟩

/-- The fuel of `parsecmd` is enough. -/
theorem parsecmd_fuel (buf : List UInt8) : 4 * (tokens (line buf)).length + Nonterminal.line.depth ≤ 4 * strlen buf + 4 := by
  have hlen : (tokens (line buf)).length ≤ strlen buf := (at_line buf).length_le.trans (List.length_take_le _ _)
  rw [Nonterminal.depth]
  omega

/-- What is left after the line decides. -/
theorem parsecmd_of_parseline {buf s : List UInt8} {t : Cmd} (h : parseline (4 * strlen buf + 4) (line buf) = .ok (t, s)) (hs : At s r) :
    parsecmd buf = if r = [] then .ok (t, nulterminate (strlen buf) t buf) else .error (.leftovers (s.dropWhile isSpace) "syntax") := by
  rw [parsecmd]
  simp only [h, bind, Except.bind]
  have hpeek : (peek [] s).2 = [] ↔ r = [] := hs.skip_eq_nil_iff
  by_cases hr : r = []
  · rw [if_pos hr]
    exact if_neg (not_not.2 (hpeek.2 hr))
  · rw [if_neg hr]
    exact if_pos fun heq => hr (hpeek.1 heq)

theorem parsecmd_sound (buf : List UInt8) : Ends (fun x => (∃ d : Phrase .line, d.yield = tokens (line buf) ∧ d.tree = x.1) ∧
    x.2 = nulterminate (strlen buf) x.1 buf) (· ≠ Fault.diverge) (parsecmd buf) := by
  have hsound : Sound .line (tokens (line buf)) (parseline (4 * strlen buf + 4) (line buf)) :=
    parser_sound _ (at_line buf) (parsecmd_fuel buf)
  cases hline : parseline (4 * strlen buf + 4) (line buf) with
  | error e =>
    rw [parsecmd]
    simp only [hline, bind, Except.bind]
    exact hsound.of_error hline
  | ok x =>
    obtain ⟨d, r, hts, ht, hr⟩ := hsound.of_ok hline
    rw [parsecmd_of_parseline hline hr]
    split_ifs with hnil
    · rw [hnil, List.append_nil] at hts
      exact ⟨⟨d, hts.symm, ht.symm⟩, rfl⟩
    · exact Fault.noConfusion

/-- For every line `parsecmd` ends, with an error or a tree. It returns a tree just where the tokens of the line are derivable,
the tree is that of the derivation, and there is one derivation only. -/
theorem parsecmd_grammar (buf : List UInt8) :
    parsecmd buf ≠ .error .diverge ∧
    (∀ t, (∃ buf', parsecmd buf = .ok (t, buf')) ↔ ∃ d : Phrase .line, d.yield = tokens (line buf) ∧ d.tree = t) ∧
    ∀ d d' : Phrase .line, d.yield = tokens (line buf) → d'.yield = tokens (line buf) → d = d' := by
  refine ⟨fun h => (parsecmd_sound buf).of_error h rfl, fun t => ?_, fun d d' h h' => Phrase.yield_injective (h.trans h'.symm)⟩
  constructor
  · rintro ⟨buf', h⟩
    exact ((parsecmd_sound buf).of_ok h).1
  · rintro ⟨d, hd, rfl⟩
    have hat : At (line buf) (d.yield ++ []) := by
      rw [List.append_nil, hd]
      exact at_line buf
    have hfuel : 4 * (d.yield ++ []).length + Nonterminal.line.depth ≤ 4 * strlen buf + 4 := by
      rw [List.append_nil, hd]
      exact parsecmd_fuel buf
    obtain ⟨s, hline, hs⟩ := parser_complete d hat hfuel (follows_nil _)
    exact ⟨_, (parsecmd_of_parseline hline hs).trans (if_pos rfl)⟩

end DemandPaging.User.Shell
