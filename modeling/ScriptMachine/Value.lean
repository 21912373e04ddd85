import ScriptMachine.Text.Shown

/-!
# Values

A running script computes with integers of thirty-two bits, numbers with a
fraction, truth values, texts, references to functions, and the unit value that
stands for the absence of a result. A value is written in two ways: as a script
writes it (`Value.text`), and with its type, as a dump of a process shows it
(`Value.describe`).
-/

namespace ScriptMachine

/-- The types of values. -/
inductive ValueType where
  | int | float | boolean | string | functionRef | unit
deriving DecidableEq, Inhabited

namespace ValueType

/-- The type in a message. -/
def text : ValueType → String
  | int => "INT"
  | float => "FLOAT"
  | boolean => "BOOLEAN"
  | string => "STRING"
  | functionRef => "FUNCTIONREF"
  | unit => "UNIT"

end ValueType

/-- A value. -/
inductive Value where
  | int (n : Int32)
  | float (x : Binary32)
  | boolean (b : Bool)
  | string (s : String)
  /-- A function of the program, by its number. -/
  | functionRef (id : Nat)
  | unit
deriving DecidableEq, Inhabited

namespace Value

/-- The type of a value. -/
def type : Value → ValueType
  | int _ => .int
  | float _ => .float
  | boolean _ => .boolean
  | string _ => .string
  | functionRef _ => .functionRef
  | unit => .unit

/-- The layout of numbers in the output of scripts: positional from a thousandth
    to below ten millions, always with a digit behind the point. -/
def floatLayout : Binary32.Layout where
  least := -3
  greatest := 6
  wholeMantissa := ".0"
  upwards := "E"
  downwards := "E-"
  tie := .up
  infinite := "Infinity"
  negativeInfinite := "-Infinity"
  notANumber := "NaN"

/-- A truth value in words. -/
def boolText (b : Bool) : String := if b then "true" else "false"

/-- The value as a script writes it. -/
def text : Value → String
  | int n => toString n.toInt
  | float x => floatLayout.render x
  | boolean b => boolText b
  | string s => s
  | functionRef id => "FunctionRef(" ++ toString id ++ ")"
  | unit => "unit"

/-- The value with its type. -/
def describe : Value → String
  | int n => "Int(" ++ toString n.toInt ++ ")"
  | float x => "Float(" ++ Text.shown x ++ ")"
  | boolean b => "Boolean(" ++ boolText b ++ ")"
  | string s => "Str(" ++ Text.quoted s ++ ")"
  | functionRef id => "FunctionRef(" ++ toString id ++ ")"
  | unit => "Unit"

/-- Values as a script writes them, with a blank between each two. -/
def joined (vs : List Value) : String := " ".intercalate (vs.map text)

end Value

end ScriptMachine
