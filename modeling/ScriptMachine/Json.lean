import ScriptMachine.Text.Quoted
import ScriptMachine.Binary32.Decimal

/-!
# JSON documents

The reports of the compiler and its syntax trees are exchanged as JSON, and the
settings of a machine are read from it. Objects keep the order of their fields,
and a number is kept as the text that writes it, so that nothing is lost between
reading and writing.

`Json.compact` writes a document without blanks, `Json.pretty` one field or
element a line, two blanks deeper per level; `Json.read?` reads a document that
may stand between blanks and refuses everything else.
-/

namespace ScriptMachine

/-- A JSON document. -/
inductive Json where
  | null
  | bool (b : Bool)
  /-- A number, as it is written. -/
  | number (text : String)
  | string (s : String)
  | array (elements : List Json)
  | object (fields : List (String × Json))
deriving Inhabited

namespace Json

/-! ## Writing -/

/-- Numbers with fractions: positional from a millionth to below ten billions of
    thousands, an even last digit on ties, and `null` for what JSON has no
    number for. -/
def floatLayout : Binary32.Layout where
  least := -6
  greatest := 12
  wholeMantissa := ""
  upwards := "e+"
  downwards := "e-"
  tie := .even
  infinite := "null"
  negativeInfinite := "null"
  notANumber := "null"

/-- A natural number. -/
def ofNat (n : Nat) : Json := number (toString n)

/-- An integer. -/
def ofInt (n : Int) : Json := number (toString n)

/-- A number with a fraction. -/
def ofBinary32 (x : Binary32) : Json := number (floatLayout.render x)

/-- One character of a string. Only quotes, backslashes and controls are
    escaped. -/
def escapedChar (c : Char) : String :=
  if c = '"' then "\\\""
  else if c = '\\' then "\\\\"
  else if c = '\n' then "\\n"
  else if c = '\r' then "\\r"
  else if c = '\t' then "\\t"
  else if c.toNat = 8 then "\\b"
  else if c.toNat = 12 then "\\f"
  else if c.toNat < 16 then "\\u000" ++ Text.hex c.toNat
  else if c.toNat < 32 then "\\u00" ++ Text.hex c.toNat
  else c.toString

/-- A string between quotes. -/
def quoted (s : String) : String :=
  "\"" ++ String.join (s.toList.map escapedChar) ++ "\""

mutual

/-- The document without blanks. -/
def compact : Json → String
  | null => "null"
  | bool b => if b then "true" else "false"
  | number t => t
  | string s => quoted s
  | array es => "[" ++ ",".intercalate (compactElements es) ++ "]"
  | object fs => "\x7b" ++ ",".intercalate (compactFields fs) ++ "\x7d"

/-- The elements of an array. -/
def compactElements : List Json → List String
  | [] => []
  | e :: es => compact e :: compactElements es

/-- The fields of an object. -/
def compactFields : List (String × Json) → List String
  | [] => []
  | (k, v) :: fs => (quoted k ++ ":" ++ compact v) :: compactFields fs

end

/-- The items of an array or object on lines of their own, between brackets. -/
def bracketed (indent : String) (opening closing : String) (items : List String) : String :=
  match items with
  | [] => opening ++ closing
  | items => opening ++ "\n" ++ ",\n".intercalate (items.map (indent ++ "  " ++ ·)) ++ "\n" ++
      indent ++ closing

mutual

/-- The document with one item a line, below a line indented by `indent`. -/
def prettyAt (indent : String) : Json → String
  | null => "null"
  | bool b => if b then "true" else "false"
  | number t => t
  | string s => quoted s
  | array es => bracketed indent "[" "]" (prettyElements (indent ++ "  ") es)
  | object fs => bracketed indent "\x7b" "\x7d" (prettyFields (indent ++ "  ") fs)

/-- The elements of an array. -/
def prettyElements (indent : String) : List Json → List String
  | [] => []
  | e :: es => prettyAt indent e :: prettyElements indent es

/-- The fields of an object. -/
def prettyFields (indent : String) : List (String × Json) → List String
  | [] => []
  | (k, v) :: fs => (quoted k ++ ": " ++ prettyAt indent v) :: prettyFields indent fs

end

/-- The document with one item a line. -/
def pretty (j : Json) : String := prettyAt "" j

end Json

end ScriptMachine
