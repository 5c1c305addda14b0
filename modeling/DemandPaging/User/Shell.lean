/-
The parser of the shell, `sh.c`. A pointer into the line is the list of the bytes from it to `es`, the
NUL at the end of the line: at `es` the list is empty and `*s` is NUL. A failed `malloc` is not modelled.
-/
import DemandPaging.User.Ulib

namespace DemandPaging.User.Shell

/-- `whitespace`. -/
def whitespace : List UInt8 := [' '.toUInt8, '\t'.toUInt8, '\r'.toUInt8, '\n'.toUInt8, 11]

/-- `symbols`. -/
def symbols : List UInt8 := ['<'.toUInt8, '|'.toUInt8, '>'.toUInt8, '&'.toUInt8, ';'.toUInt8, '('.toUInt8, ')'.toUInt8]

/-- `MAXARGS`. -/
abbrev maxArgs : Nat := 10

def isSpace (c : UInt8) : Bool := (strchr whitespace c).isSome

def isWordChar (c : UInt8) : Bool := !(strchr whitespace c).isSome && !(strchr symbols c).isSome

/-! ## Commands -/

/-- The pointers to a word and to its end. -/
structure Word where
  start : List UInt8
  stop : List UInt8
  deriving DecidableEq

/-- `O_RDONLY`. -/
abbrev oRdonly : Nat := 0

/-- `O_WRONLY | O_CREATE`. -/
abbrev oWronlyCreate : Nat := 0x201

/-- `struct cmd`. -/
inductive Cmd
  | exec (argv : List Word)
  | redir (cmd : Cmd) (file : Word) (mode fd : Nat)
  | pipe (left right : Cmd)
  | list (left right : Cmd)
  | back (cmd : Cmd)
  deriving DecidableEq

/-- The word is stored in the `execcmd` under the redirections. -/
def Cmd.addArg (w : Word) : Cmd → Cmd
  | .exec argv => .exec (argv ++ [w])
  | .redir cmd file mode fd => .redir (cmd.addArg w) file mode fd
  | cmd => cmd

/-- What ends the parser: `panic`, with a line about what was left, or a loop that never ends. -/
inductive Fault
  | panic (msg : String)
  | leftovers (s : List UInt8) (msg : String)
  | diverge
  deriving DecidableEq

/-! ## Tokens -/

inductive Sym
  | bar | lparen | rparen | semi | amp | less | greater
  /-- `>>`. -/
  | append
  deriving DecidableEq

/-- What `gettoken` returns: `0`, the symbol, or `'a'`. -/
inductive Tok
  | eof
  | sym (k : Sym)
  | word
  deriving DecidableEq

/-- The symbol that a character is by itself. -/
def symOf (c : UInt8) : Option Sym :=
  if c = '|'.toUInt8 then some .bar
  else if c = '('.toUInt8 then some .lparen
  else if c = ')'.toUInt8 then some .rparen
  else if c = ';'.toUInt8 then some .semi
  else if c = '&'.toUInt8 then some .amp
  else if c = '<'.toUInt8 then some .less
  else if c = '>'.toUInt8 then some .greater
  else none

/-- The `switch` of `gettoken`: the token at `s` and its end. -/
def switchTok (s : List UInt8) : Tok × List UInt8 :=
  if chr s = 0 then (.eof, s)
  else
    match symOf (chr s) with
    | some .greater => if chr s.tail = '>'.toUInt8 then (.sym .append, s.tail.tail) else (.sym .greater, s.tail)
    | some k => (.sym k, s.tail)
    | none => (.word, s.dropWhile isWordChar)

/-- `gettoken`: the token, its start and end, and where the next one starts. -/
def gettoken (s : List UInt8) : Tok × Word × List UInt8 :=
  let q := s.dropWhile isSpace
  let (ret, eq) := switchTok q
  (ret, ⟨q, eq⟩, eq.dropWhile isSpace)

/-- `peek`. -/
def peek (toks : List UInt8) (s : List UInt8) : Bool × List UInt8 :=
  let s := s.dropWhile isSpace
  (chr s ≠ 0 ∧ (strchr toks (chr s)).isSome, s)

/-! ## Loops -/

/-- `parseredirs`. -/
def parseredirs : Nat → Cmd → List UInt8 → Except Fault (Cmd × List UInt8)
  | 0, _, _ => .error .diverge
  | fuel + 1, cmd, s =>
    match peek ['<'.toUInt8, '>'.toUInt8] s with
    | (false, s) => .ok (cmd, s)
    | (true, s) =>
      let (tok, _, s) := gettoken s
      match gettoken s with
      | (.word, file, s) =>
        match tok with
        | .sym .less => parseredirs fuel (.redir cmd file oRdonly 0) s
        | .sym .greater => parseredirs fuel (.redir cmd file oWronlyCreate 1) s
        | .sym .append => parseredirs fuel (.redir cmd file oWronlyCreate 1) s
        | _ => parseredirs fuel cmd s
      | _ => .error (.panic "missing file for redirection")

/-- The loop of `parseexec`. -/
def parseargs : Nat → Nat → Cmd → List UInt8 → Except Fault (Cmd × List UInt8)
  | 0, _, _, _ => .error .diverge
  | fuel + 1, argc, ret, s =>
    match peek ['|'.toUInt8, ')'.toUInt8, '&'.toUInt8, ';'.toUInt8] s with
    | (true, s) => .ok (ret, s)
    | (false, s) =>
      match gettoken s with
      | (.eof, _, s) => .ok (ret, s)
      | (.sym _, _, _) => .error (.panic "syntax")
      | (.word, w, s) =>
        if maxArgs ≤ argc + 1 then .error (.panic "too many args")
        else do
          let (ret, s) ← parseredirs (s.length + 1) (ret.addArg w) s
          parseargs fuel (argc + 1) ret s

/-- The loop of `parseline`. -/
def backLoop : Nat → Cmd → List UInt8 → Except Fault (Cmd × List UInt8)
  | 0, _, _ => .error .diverge
  | fuel + 1, cmd, s =>
    match peek ['&'.toUInt8] s with
    | (false, s) => .ok (cmd, s)
    | (true, s) => backLoop fuel (.back cmd) (gettoken s).2.2

/-! ## Recursive descent -/

mutual

def parseline : Nat → List UInt8 → Except Fault (Cmd × List UInt8)
  | 0, _ => .error .diverge
  | fuel + 1, s => do
    let (cmd, s) ← parsepipe fuel s
    let (cmd, s) ← backLoop (s.length + 1) cmd s
    match peek [';'.toUInt8] s with
    | (false, s) => return (cmd, s)
    | (true, s) =>
      let (right, s) ← parseline fuel (gettoken s).2.2
      return (.list cmd right, s)

def parsepipe : Nat → List UInt8 → Except Fault (Cmd × List UInt8)
  | 0, _ => .error .diverge
  | fuel + 1, s => do
    let (cmd, s) ← parseexec fuel s
    match peek ['|'.toUInt8] s with
    | (false, s) => return (cmd, s)
    | (true, s) =>
      let (right, s) ← parsepipe fuel (gettoken s).2.2
      return (.pipe cmd right, s)

def parseexec : Nat → List UInt8 → Except Fault (Cmd × List UInt8)
  | 0, _ => .error .diverge
  | fuel + 1, s =>
    match peek ['('.toUInt8] s with
    | (true, s) => parseblock fuel s
    | (false, s) => do
      let (ret, s) ← parseredirs (s.length + 1) (.exec []) s
      parseargs (s.length + 1) 0 ret s

def parseblock : Nat → List UInt8 → Except Fault (Cmd × List UInt8)
  | 0, _ => .error .diverge
  | fuel + 1, s =>
    match peek ['('.toUInt8] s with
    | (false, _) => .error (.panic "parseblock")
    | (true, s) => do
      let (cmd, s) ← parseline fuel (gettoken s).2.2
      match peek [')'.toUInt8] s with
      | (false, _) => .error (.panic "syntax - missing )")
      | (true, s) =>
        let s := (gettoken s).2.2
        parseredirs (s.length + 1) cmd s

end

/-- A NUL is stored at the pointer, in the buffer whose line ends at `es`. -/
def terminate (es : Nat) (p : List UInt8) (buf : List UInt8) : List UInt8 := buf.set (es - p.length) 0

/-- `nulterminate`. -/
def nulterminate (es : Nat) : Cmd → List UInt8 → List UInt8
  | .exec argv, buf => argv.foldl (fun buf w => terminate es w.stop buf) buf
  | .redir cmd file _ _, buf => terminate es file.stop (nulterminate es cmd buf)
  | .pipe left right, buf => nulterminate es right (nulterminate es left buf)
  | .list left right, buf => nulterminate es right (nulterminate es left buf)
  | .back cmd, buf => nulterminate es cmd buf

/-- The bytes of the line, before its NUL. -/
def line (buf : List UInt8) : List UInt8 := buf.take (strlen buf)

/-- `parsecmd`: the command, and the buffer with the words terminated. A call of the recursive descent is for the same
bytes at most four deep. -/
def parsecmd (buf : List UInt8) : Except Fault (Cmd × List UInt8) := do
  let (cmd, s) ← parseline (4 * strlen buf + 4) (line buf)
  let (_, s) := peek [] s
  if s ≠ [] then .error (.leftovers s "syntax")
  else return (cmd, nulterminate (strlen buf) cmd buf)

end DemandPaging.User.Shell
