import ScriptMachine.Instruction
import ScriptMachine.Value

/-!
# Faults

A fault is why a process cannot go on. It ends the process that raised it, and
no other.
-/

namespace ScriptMachine

/-- Why a process cannot go on. -/
inductive Fault where
  /-- An operation on two values that have the wrong types. -/
  | typeError (op : Opcode) (left right : ValueType)
  /-- An operation on one value that has the wrong type. -/
  | unaryTypeError (op : Opcode) (operand : ValueType)
  /-- An instruction that needs a value of another type. -/
  | unexpectedType (op : Opcode) (expected found : ValueType)
  | notANumber
  | divisionByZero
  | stackOverflow (depth : Nat)
  | stackUnderflow
  | noActiveFrame
  | localOutOfRange (slot max : Nat)
  | noSuchLocal (slot : Nat)
  | badStringId (id : Nat)
  | badFunctionId (id : Nat)
  | invalidFunctionEntry (id : Nat)
  | importedUnsupported (file name : String)
  | invalidOpcode (code : Nat)
  | unboundExternal (name : String)
  /-- A function of the host failed. -/
  | external (reason : String)
deriving DecidableEq, Inhabited

namespace Fault

/-- The fault in words. -/
def message : Fault → String
  | typeError op left right =>
    "type error: " ++ op.mnemonic ++ " is not defined for " ++ left.text ++ " and " ++ right.text
  | unaryTypeError op operand =>
    "type error: " ++ op.mnemonic ++ " is not defined for " ++ operand.text
  | unexpectedType op expected found =>
    "type error: " ++ op.mnemonic ++ " expects " ++ expected.text ++ ", found " ++ found.text
  | notANumber => "cannot convert NaN to INT"
  | divisionByZero => "division by zero"
  | stackOverflow depth => "stack level has exceeded max " ++ toString depth
  | stackUnderflow => "operand stack is empty"
  | noActiveFrame => "no active frame"
  | localOutOfRange slot max =>
    "local slot " ++ toString slot ++ " is outside the limit of " ++ toString max
  | noSuchLocal slot => "local " ++ toString slot ++ " is not set"
  | badStringId id => "string id " ++ toString id ++ " is outside the string table"
  | badFunctionId id => "function id " ++ toString id ++ " is outside the function table"
  | invalidFunctionEntry id => "function id " ++ toString id ++ " has no body"
  | importedUnsupported file name =>
    "imported function " ++ file ++ ":" ++ name ++ " cannot be executed"
  | invalidOpcode code => "opcode " ++ toString code ++ " has no handler"
  | unboundExternal name => "no external function named `" ++ name ++ "` is bound"
  | external reason => "external function failed: " ++ reason

end Fault

end ScriptMachine
