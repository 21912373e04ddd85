import ScriptMachine.Text.Shapeless

/-!
# Quoted text

Text that is shown as a value stands between double quotes. A quote, a
backslash and the common controls are written as an escape of two characters,
every other character without a shape of its own as its code point in
hexadecimal between braces, and all else as itself.
-/

namespace ScriptMachine.Text

/-- Lower-case hexadecimal digits. -/
def hex (n : Nat) : String := String.ofList (Nat.toDigits 16 n)

/-- One character between the quotes. -/
def quotedChar (c : Char) : String :=
  if c = '"' then "\\\""
  else if c = '\\' then "\\\\"
  else if c = '\n' then "\\n"
  else if c = '\r' then "\\r"
  else if c = '\t' then "\\t"
  else if c.toNat = 0 then "\\0"
  else if isShapeless c then "\\u\x7b" ++ hex c.toNat ++ "\x7d"
  else c.toString

/-- Text between double quotes. -/
def quoted (s : String) : String :=
  "\"" ++ String.join (s.toList.map quotedChar) ++ "\""

end ScriptMachine.Text
