import ScriptMachine.Draft
import ScriptMachine.Program.Binary
import ScriptMachine.Script.Reading

/-!
# Compilation

From a source text to a program: the text is scanned and read, which may find
many errors at once, and code is generated for the tree, which stops at the first
error. Between the two a pass may change the instructions of every function; by
default nothing is changed.
-/

namespace ScriptMachine

/-- Changes the instructions of one function. -/
abbrev Pass := List Instruction → List Instruction

namespace Script

/-- Reads a script from its source. -/
def ofSource (source : String) : Except CompileError Script :=
  let scanned := scan source
  let parsed := ofTokens scanned.tokens
  if scanned.errors.isEmpty ∧ parsed.errors.isEmpty then .ok parsed.script
  else .error (.unreadable scanned.errors parsed.errors)

/-- The program of a script, after `pass` has changed its functions. -/
def compileWith (pass : Pass) (s : Script) : Except CompileError Program :=
  match Draft.empty.script s with
  | (_, .error e) => .error e
  | (d, .ok _) => .ok (d.mapBodies pass).toProgram

/-- The program of a script. -/
def compile (s : Script) : Except CompileError Program := s.compileWith id

end Script

namespace Program

/-- The program of a source text. -/
def ofSource (source : String) : Except CompileError Program := do
  (← Script.ofSource source).compile

/-- The stored program of a source text. -/
def bytesOfSource (source : String) : Except CompileError Bytes := do
  match (← ofSource source).toBytes with
  | .ok bytes => return bytes
  | .error e => throw (.format e)

end Program

end ScriptMachine
