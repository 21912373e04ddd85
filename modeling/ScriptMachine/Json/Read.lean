import ScriptMachine.Json

/-!
# Reading JSON

A document is one value between blanks. Numbers keep their text, so that it can
still be told how they were written. In a string, an escape may name one half of
a character outside the basic plane; halves that do not stand in pairs are read
as the replacement character, except that they cannot be part of a field name of
the outermost object.
-/

namespace ScriptMachine.Json

/-- Blanks between the parts of a document. -/
def isBlankChar (c : Char) : Bool := c == ' ' || c == '\t' || c == '\n' || c == '\r'

/-- What follows the blanks. -/
def skipBlanks (cs : List Char) : List Char := cs.dropWhile isBlankChar

/-! ## Strings -/

/-- A part of a string: a character, or one half of one. -/
inductive Piece where
  | char (c : Char)
  | half (unit : Nat)

/-- The value of a hexadecimal digit. -/
def hexValue? (c : Char) : Option Nat :=
  if '0' ≤ c ∧ c ≤ '9' then some (c.toNat - '0'.toNat)
  else if 'a' ≤ c ∧ c ≤ 'f' then some (c.toNat - 'a'.toNat + 10)
  else if 'A' ≤ c ∧ c ≤ 'F' then some (c.toNat - 'A'.toNat + 10)
  else none

/-- The character behind a backslash. -/
def escape? : Char → Option Char
  | '"' => some '"'
  | '\\' => some '\\'
  | '/' => some '/'
  | 'b' => some '\x08'
  | 'f' => some '\x0c'
  | 'n' => some '\n'
  | 'r' => some '\r'
  | 't' => some '\t'
  | _ => none

/-- Reads a string behind its opening quote. -/
def readPieces : List Char → Option (List Piece × List Char)
  | [] => none
  | '"' :: rest => some ([], rest)
  | '\\' :: 'u' :: a :: b :: c :: d :: rest => do
    let n := 4096 * (← hexValue? a) + 256 * (← hexValue? b) + 16 * (← hexValue? c) +
      (← hexValue? d)
    let piece := if 0xd800 ≤ n ∧ n < 0xe000 then Piece.half n else Piece.char (Char.ofNat n)
    let (pieces, rest) ← readPieces rest
    return (piece :: pieces, rest)
  | '\\' :: e :: rest => do
    let c ← escape? e
    let (pieces, rest) ← readPieces rest
    return (.char c :: pieces, rest)
  | c :: rest =>
    if c.toNat < 0x20 ∨ c = '\\' then none
    else do
      let (pieces, rest) ← readPieces rest
      return (.char c :: pieces, rest)

/-- Puts halves together; says also whether all of them stood in pairs. -/
def joinPieces : List Piece → List Char × Bool
  | [] => ([], true)
  | .char c :: rest =>
    let (cs, paired) := joinPieces rest
    (c :: cs, paired)
  | .half h :: .half l :: rest =>
    if h < 0xdc00 ∧ 0xdc00 ≤ l then
      let (cs, paired) := joinPieces rest
      (Char.ofNat (0x10000 + 0x400 * (h - 0xd800) + (l - 0xdc00)) :: cs, paired)
    else
      let (cs, _) := joinPieces (.half l :: rest)
      ('\ufffd' :: cs, false)
  | .half _ :: rest =>
    let (cs, _) := joinPieces rest
    ('\ufffd' :: cs, false)

/-! ## Numbers -/

/-- Splits off the digits at the front. -/
def takeDigits (cs : List Char) : List Char × List Char :=
  (cs.takeWhile Char.isDigit, cs.dropWhile Char.isDigit)

/-- Reads a number without its sign. -/
def readUnsigned (cs : List Char) : Option (List Char × List Char) := do
  let (whole, rest) := takeDigits cs
  if whole.isEmpty ∨ (whole.head? = some '0' ∧ 1 < whole.length) then failure
  let (fraction, rest) ← match rest with
    | '.' :: more =>
      let (digits, more) := takeDigits more
      if digits.isEmpty then none else some ('.' :: digits, more)
    | rest => some ([], rest)
  let (scale, rest) ← match rest with
    | e :: more =>
      if e = 'e' ∨ e = 'E' then
        let (sign, more) := match more with
          | '+' :: more => (['+'], more)
          | '-' :: more => (['-'], more)
          | more => ([], more)
        let (digits, more) := takeDigits more
        if digits.isEmpty then none else some (e :: sign ++ digits, more)
      else some ([], rest)
    | [] => some ([], [])
  return (whole ++ fraction ++ scale, rest)

/-! ## Values -/

/-- What follows a word at the front of `cs`. -/
def afterWord (word : String) (cs : List Char) : Option (List Char) :=
  if word.toList.isPrefixOf cs then some (cs.drop word.length) else none

mutual

/-- Reads a value; `fuel` bounds the number of steps, and `outermost` says that
    no other value is around it. -/
def readValue : (fuel : Nat) → (outermost : Bool) → List Char → Option (Json × List Char)
  | 0, _, _ => none
  | fuel + 1, outermost, cs =>
    match skipBlanks cs with
    | '"' :: rest => do
      let (pieces, rest) ← readPieces rest
      return (.string (String.ofList (joinPieces pieces).1), rest)
    | '[' :: rest =>
      match skipBlanks rest with
      | ']' :: rest => some (.array [], rest)
      | _ => do
        let (es, rest) ← readElements fuel rest
        return (.array es, rest)
    | '\x7b' :: rest =>
      match skipBlanks rest with
      | '\x7d' :: rest => some (.object [], rest)
      | _ => do
        let (fs, rest) ← readFields fuel outermost rest
        return (.object fs, rest)
    | '-' :: rest => do
      let (text, rest) ← readUnsigned rest
      return (.number (String.ofList ('-' :: text)), rest)
    | 'n' :: rest => (afterWord "ull" rest).map (.null, ·)
    | 't' :: rest => (afterWord "rue" rest).map (.bool true, ·)
    | 'f' :: rest => (afterWord "alse" rest).map (.bool false, ·)
    | cs => do
      let (text, rest) ← readUnsigned cs
      return (.number (String.ofList text), rest)

/-- Reads the elements of an array and its closing bracket. -/
def readElements : (fuel : Nat) → List Char → Option (List Json × List Char)
  | 0, _ => none
  | fuel + 1, cs => do
    let (e, rest) ← readValue fuel false cs
    match skipBlanks rest with
    | ',' :: rest =>
      let (es, rest) ← readElements fuel rest
      return (e :: es, rest)
    | ']' :: rest => return ([e], rest)
    | _ => failure

/-- Reads the fields of an object and its closing brace. The names in the
    `outermost` object hold whole characters only. -/
def readFields :
    (fuel : Nat) → (outermost : Bool) → List Char → Option (List (String × Json) × List Char)
  | 0, _, _ => none
  | fuel + 1, outermost, cs =>
    match skipBlanks cs with
    | '"' :: rest => do
      let (pieces, rest) ← readPieces rest
      let (name, paired) := joinPieces pieces
      if outermost && !paired then failure
      match skipBlanks rest with
      | ':' :: rest =>
        let (v, rest) ← readValue fuel false rest
        let entry := (String.ofList name, v)
        match skipBlanks rest with
        | ',' :: rest =>
          let (fs, rest) ← readFields fuel outermost rest
          return (entry :: fs, rest)
        | '\x7d' :: rest => return ([entry], rest)
        | _ => failure
      | _ => failure
    | _ => none

end

/-- Reads a document. No document needs more steps than it has characters. -/
def read? (text : String) : Option Json := do
  let cs := text.toList
  let (value, rest) ← readValue (2 * cs.length + 2) true cs
  if (skipBlanks rest).isEmpty then return value else failure

end ScriptMachine.Json
