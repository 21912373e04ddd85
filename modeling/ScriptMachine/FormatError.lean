import ScriptMachine.Text.Quoted

/-!
# Errors of stored programs

Why a sequence of bytes is no stored program, and why a program cannot be
stored. Offsets count the bytes from the start of the stored program.
-/

namespace ScriptMachine

/-- The kinds of lengths in a stored program. -/
inductive LengthKind where
  | stringTable | functionTable | instruction | string
deriving DecidableEq, Inhabited

namespace LengthKind

/-- The kind in a message. -/
def describe : LengthKind → String
  | stringTable => "string table"
  | functionTable => "function table"
  | instruction => "instruction"
  | string => "string"

end LengthKind

/-- Why a program cannot be loaded or saved. -/
inductive FormatError where
  | badMagic (found : List UInt8)
  | negativeLength (kind : LengthKind) (length : Int) (offset : Nat)
  | unknownFunctionKind (marker : UInt8) (offset : Nat)
  | unknownOpcode (code : Nat)
  | unexpectedEnd (offset : Nat)
  | invalidText (offset : Nat)
  | functionIdOutOfRange (id : Int)
  | tooManyLocals (id slot max : Nat)
  | fileTooLarge (size max : Nat)
  | tableMismatch (functions names : Nat)
  | invalidEntry (id : Nat)
  | io (cause : String)
deriving DecidableEq, Inhabited

namespace FormatError

/-- A byte as two hexadecimal digits. -/
def byteText (b : UInt8) : String :=
  (if b.toNat < 16 then "0x0" else "0x") ++ Text.hex b.toNat

/-- The error in words. -/
def message : FormatError → String
  | badMagic found =>
    "invalid program format: unexpected magic [" ++
      ", ".intercalate (found.map fun b => toString b.toNat) ++ "]"
  | negativeLength kind length offset =>
    "invalid program format: negative " ++ kind.describe ++ " length " ++ toString length ++
      " at offset " ++ toString offset
  | unknownFunctionKind marker offset =>
    "invalid program format: unknown function kind " ++ byteText marker ++ " at offset " ++
      toString offset
  | unknownOpcode code => "invalid program format: unknown opcode " ++ toString code
  | unexpectedEnd offset =>
    "invalid program format: unexpected end of input at offset " ++ toString offset
  | invalidText offset =>
    "invalid program format: string at offset " ++ toString offset ++ " is not valid UTF-8"
  | functionIdOutOfRange id =>
    "invalid program format: function id " ++ toString id ++ " is outside the function table"
  | tooManyLocals id slot max =>
    "invalid program format: function " ++ toString id ++ " addresses local slot " ++
      toString slot ++ ", the limit is " ++ toString max
  | fileTooLarge size max =>
    "invalid program format: file is " ++ toString size ++ " bytes, the limit is " ++ toString max
  | tableMismatch functions names =>
    "cannot save program: function table has " ++ toString functions ++
      " entries but name table has " ++ toString names
  | invalidEntry id =>
    "cannot save program: function table entry " ++ toString id ++ " was never set"
  | io cause => "io error: " ++ cause

end FormatError

end ScriptMachine
