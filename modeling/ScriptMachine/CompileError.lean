import ScriptMachine.FormatError
import ScriptMachine.Script.Cursor
import ScriptMachine.Token.Scan

/-!
# Errors of compilation

Why a source text or a tree does not become a program. Errors found while code is
generated for a function name that function.
-/

namespace ScriptMachine

/-- What is wrong with a conditional or a loop. -/
inductive ConditionProblem where
  | noBranches
  | noOtherwise
  | number
  | text
  | functionRef
  | arithmetic
  | negation
deriving DecidableEq, Inhabited

namespace ConditionProblem

/-- The problem in words. -/
def message : ConditionProblem → String
  | noBranches => "conditional has no branches"
  | noOtherwise => "conditional does not end in an else branch"
  | number => "a numeric literal is never a boolean"
  | text => "a string literal is never a boolean"
  | functionRef => "a function reference is never a boolean"
  | arithmetic => "an arithmetic expression is never a boolean"
  | negation => "a negation is never a boolean"

end ConditionProblem

/-- Why there is no program. -/
inductive CompileError where
  /-- The source cannot be read. -/
  | unreadable (scan : List ScanError) (parse : List ParseError)
  | unresolvedIdentifier (name function : String)
  | unresolvedFunction (name function : String)
  | malformedConditional (problem : ConditionProblem) (function : String)
  /-- A branch other than the last has no condition. -/
  | otherwiseEvaluated (function : String)
  /-- Values have no fields. -/
  | fieldAccess (field function : String)
  | duplicateFunction (name : String) (span first : Span)
  | noOpenFunction
  | nestedFunction (name opened : String)
  | unregisteredFunction (name : String)
  | format (e : FormatError)
deriving DecidableEq, Inhabited

namespace CompileError

/-- The error in words. -/
def message : CompileError → String
  | unreadable scan parse => toString (scan.length + parse.length) ++ " syntax error(s)"
  | unresolvedIdentifier name _ => "unresolved identifier `" ++ name ++ "`"
  | unresolvedFunction name _ => "unresolved function `" ++ name ++ "`"
  | malformedConditional problem _ => "malformed conditional: " ++ problem.message
  | otherwiseEvaluated _ => "the else guard of a conditional cannot be evaluated"
  | fieldAccess field _ => "unsupported: field access `." ++ field ++ "`"
  | duplicateFunction name _ _ => "function `" ++ name ++ "` is defined more than once"
  | noOpenFunction => "instruction emitted outside of a function"
  | nestedFunction name opened =>
    "cannot start function `" ++ name ++ "` while `" ++ opened ++ "` is still open"
  | unregisteredFunction name => "function `" ++ name ++ "` was never registered"
  | format e => e.message

/-- The code by which tools know the error. -/
def code : CompileError → String
  | unreadable _ _ => "TRN-C000"
  | unresolvedIdentifier _ _ => "TRN-C001"
  | unresolvedFunction _ _ => "TRN-C002"
  | malformedConditional _ _ => "TRN-C003"
  | otherwiseEvaluated _ => "TRN-C004"
  | fieldAccess _ _ => "TRN-C005"
  | duplicateFunction _ _ _ => "TRN-C006"
  | noOpenFunction | nestedFunction _ _ | unregisteredFunction _ => "TRN-C100"
  | format _ => "TRN-F001"

/-- The function that holds what is wrong. -/
def function? : CompileError → Option String
  | unresolvedIdentifier _ f | unresolvedFunction _ f | malformedConditional _ f
  | otherwiseEvaluated f | fieldAccess _ f => some f
  | _ => none

/-- The place of what is wrong. -/
def span? : CompileError → Option Span
  | duplicateFunction _ span _ => some span
  | _ => none

end CompileError

end ScriptMachine
