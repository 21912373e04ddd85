import ScriptMachine.Token

/-!
# Scanning

The tokens of a source text are found from left to right. At each place the
longest lexeme is taken: a run of blanks, a comment up to the end of its line, or
a token (`lexeme`). What starts no lexeme is an error of one character, except
that a text without a closing quote is an error up to the end of the source and
an integer beyond `2 ^ 31` an error of all its digits. An error does not end the
scan: all errors are collected, and the tokens around them are still returned
(`scan`).
-/

namespace ScriptMachine

/-! ## Classes of characters -/

/-- Blanks separate tokens and mean nothing else. -/
def isBlank (c : Char) : Bool := c == ' ' || c == '\t' || c == '\r' || c == '\n'

/-- The decimal digits. -/
def isDigit (c : Char) : Bool := '0' ≤ c && c ≤ '9'

/-- Characters that can start a name. -/
def isNameStart (c : Char) : Bool :=
  ('A' ≤ c && c ≤ 'Z') || ('a' ≤ c && c ≤ 'z') || c == '_'

/-- Characters that can stand inside a name. -/
def isNamePart (c : Char) : Bool := isNameStart c || isDigit c

/-- The number that a sequence of digits writes. -/
def digitsValue (ds : List Char) : Nat := ds.foldl (fun n d => 10 * n + (d.toNat - 48)) 0

/-! ## Lexemes -/

/-- What a place of the source holds. -/
inductive Lexeme where
  /-- Blanks or a comment. -/
  | skipped
  | token (t : Token)
  | bad
deriving DecidableEq, Inhabited

/-- The largest integer that can be written; it is only used negated. -/
def maxInteger : Nat := 2147483648

/-- The lexeme that starts with the digit `c`, and the number of characters it
    takes after `c`. -/
def numberLexeme (c : Char) (cs : List Char) : Lexeme × Nat :=
  let whole := cs.takeWhile isDigit
  let integer : Lexeme × Nat :=
    let n := digitsValue (c :: whole)
    (if n ≤ maxInteger then .token (.int n) else .bad, whole.length)
  match cs.dropWhile isDigit with
  | '.' :: rest =>
    let fraction := rest.takeWhile isDigit
    if fraction.isEmpty then integer
    else
      let x := Binary32.ofDecimal (digitsValue (c :: whole ++ fraction)) (-fraction.length)
      (.token (.float x), whole.length + 1 + fraction.length)
  | _ => integer

/-- A name, unless it is a keyword. -/
def wordToken (name : String) : Token :=
  match Keyword.all.find? (·.spelling == name) with
  | some k => .keyword k
  | none => .ident name

/-- The lexeme that starts with the letter `c`. -/
def wordLexeme (c : Char) (cs : List Char) : Lexeme × Nat :=
  let rest := cs.takeWhile isNamePart
  (.token (wordToken (String.ofList (c :: rest))), rest.length)

/-- The lexeme that starts with a double quote before `cs`. -/
def textLexeme (cs : List Char) : Lexeme × Nat :=
  let content := cs.takeWhile (· != '"')
  if content.length < cs.length then (.token (.text (String.ofList content)), content.length + 1)
  else (.bad, cs.length)

/-- The longest symbol that starts with `c`. -/
def symbolLexeme (c : Char) (cs : List Char) : Lexeme × Nat :=
  match Symbol.all.find? fun s => s.spelling.toList.isPrefixOf (c :: cs) with
  | some s => (.token (.symbol s), s.spelling.length - 1)
  | none => (.bad, 0)

/-- The lexeme that starts with `c`, and the number of characters it takes after
    `c`. -/
def lexeme (c : Char) (cs : List Char) : Lexeme × Nat :=
  if isBlank c then (.skipped, (cs.takeWhile isBlank).length)
  else if isDigit c then numberLexeme c cs
  else if isNameStart c then wordLexeme c cs
  else if c == '"' then textLexeme cs
  else if c == '/' && cs.head? == some '/' then (.skipped, (cs.takeWhile (· != '\n')).length)
  else symbolLexeme c cs

/-! ## Errors -/

/-- A place of the source that holds no token. -/
structure ScanError where
  span : Span
  /-- The source at that place. -/
  snippet : String
deriving DecidableEq, Inhabited

namespace ScanError

/-- What may have been meant. -/
def suggestion (e : ScanError) : String :=
  match e.snippet.toList with
  | '"' :: _ => "Unterminated string literal: close it with '\"'."
  | '\'' :: _ => "Strings use double quotes."
  | cs =>
    if cs.all isDigit then
      "Integer literal '" ++ e.snippet ++
        "' does not fit in 32 bits (range -2147483648 to 2147483647)."
    else if cs = ['&'] ∨ cs = ['|'] then
      "Logical operators are doubled: '" ++ e.snippet ++ e.snippet ++ "'."
    else
      "Unexpected character(s): '" ++ e.snippet ++ "'."

/-- The message of the error. -/
def message (e : ScanError) : String :=
  "Lex error at position " ++ toString e.span.start ++ ": '" ++ e.snippet ++ "'. " ++ e.suggestion

end ScanError

/-! ## The scan -/

/-- What scanning a source finds, in the order of the source. -/
structure Scan where
  tokens : List (Token × Span)
  errors : List ScanError
deriving DecidableEq, Inhabited

/-- The number of bytes that characters take. -/
def byteLength (cs : List Char) : Nat := cs.foldr (fun c n => c.utf8Size + n) 0

/-- The scan of `cs`, which starts at the byte `offset`. -/
def scanFrom (offset : Nat) : List Char → Scan
  | [] => ⟨[], []⟩
  | c :: cs =>
    let found := lexeme c cs
    let taken := c :: cs.take found.2
    let span : Span := ⟨offset, offset + byteLength taken⟩
    let rest := scanFrom span.stop (cs.drop found.2)
    match found.1 with
    | .skipped => rest
    | .token t => { rest with tokens := (t, span) :: rest.tokens }
    | .bad => { rest with errors := ⟨span, String.ofList taken⟩ :: rest.errors }
termination_by cs => cs.length
decreasing_by simp +arith [List.length_drop]

/-- The tokens and the errors of a source text. -/
def scan (source : String) : Scan := scanFrom 0 source.toList

end ScriptMachine
