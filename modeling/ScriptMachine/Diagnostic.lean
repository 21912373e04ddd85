import ScriptMachine.CompileError
import ScriptMachine.MachineError

/-!
# Diagnostics

A diagnostic tells a person or a tool what is wrong, and where. Every kind of
error has its diagnostic; a source that cannot be read has one for each of its
errors. How a diagnostic is written, for a terminal or as a document, is left to
the modules below this one.
-/

namespace ScriptMachine

/-- How bad it is. -/
inductive Severity where
  | error
  | warning
deriving DecidableEq, Inhabited

namespace Severity

/-- The severity in words. -/
def text : Severity → String
  | error => "error"
  | warning => "warning"

end Severity

/-- A place in the source, and what to say about it. -/
structure Label where
  span : Span
  message : String
  /-- Is this the place that the diagnostic is about? -/
  primary : Bool
deriving DecidableEq, Inhabited

/-- What is wrong. -/
structure Diagnostic where
  severity : Severity
  /-- The code by which tools know what is wrong. -/
  code : Option String
  message : String
  labels : List Label
  notes : List String
  suggestion : Option String
  /-- The text to which the labels belong. -/
  source : Option String
deriving DecidableEq, Inhabited

namespace Diagnostic

/-- An error without code and labels. -/
def error (message : String) : Diagnostic where
  severity := .error
  code := none
  message := message
  labels := []
  notes := []
  suggestion := none
  source := none

/-- A warning without code and labels. -/
def warning (message : String) : Diagnostic := { error message with severity := .warning }

/-- Adds a code. -/
def withCode (d : Diagnostic) (code : String) : Diagnostic := { d with code := some code }

/-- Adds the place that the diagnostic is about. -/
def withSpan (d : Diagnostic) (span : Span) (message : String) : Diagnostic :=
  { d with labels := d.labels ++ [⟨span, message, true⟩] }

/-- Adds another place. -/
def withSecondarySpan (d : Diagnostic) (span : Span) (message : String) : Diagnostic :=
  { d with labels := d.labels ++ [⟨span, message, false⟩] }

/-- Adds a note. -/
def withNote (d : Diagnostic) (note : String) : Diagnostic :=
  { d with notes := d.notes ++ [note] }

/-- Adds a suggestion. -/
def withSuggestion (d : Diagnostic) (s : String) : Diagnostic := { d with suggestion := some s }

/-- Adds the source. -/
def withSource (d : Diagnostic) (s : String) : Diagnostic := { d with source := some s }

/-- The diagnostic of an error of scanning. -/
def ofScanError (e : ScanError) : Diagnostic :=
  ((error ("unexpected token '" ++ e.snippet ++ "'")).withCode "TRN-L001"
    |>.withSpan ⟨e.span.start, e.span.start + max e.snippet.utf8ByteSize 1⟩ "here")
    |>.withSuggestion e.suggestion

/-- The diagnostic of an error of reading. -/
def ofParseError (e : ParseError) : Diagnostic :=
  ((error e.problem.message).withCode e.problem.code).withSpan e.span "here"

/-- The diagnostic of a stored program that cannot be loaded or saved. -/
def ofFormatError (e : FormatError) : Diagnostic := (error e.message).withCode "TRN-F001"

/-- The diagnostic of a fault. -/
def ofFault (f : Fault) : Diagnostic := (error f.message).withCode "TRN-R001"

/-- The diagnostic of a refusal of a machine. -/
def ofMachineError (e : MachineError) : Diagnostic := (error e.message).withCode "TRN-V001"

/-- The diagnostics of an error of compilation. -/
def ofCompileError : CompileError → List Diagnostic
  | .unreadable scan parse => scan.map ofScanError ++ parse.map ofParseError
  | e =>
    let d := (error e.message).withCode e.code
    let d := match e.function? with
      | some f => d.withNote ("in function '" ++ f ++ "'")
      | none => d
    [match e.span? with
      | some span => d.withSpan span "here"
      | none => d]

end Diagnostic

end ScriptMachine
