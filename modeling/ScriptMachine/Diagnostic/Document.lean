import ScriptMachine.Diagnostic
import ScriptMachine.Json
import ScriptMachine.Text.Lines

/-!
# Diagnostics as documents

A diagnostic can be written as a JSON document on one line, for tools. Fields
stand in alphabetical order; what a diagnostic does not have is left out, and the
lines and columns of labels are given only if the source is known.
-/

namespace ScriptMachine

namespace Label

/-- The label in a document. -/
def document (l : Label) (source : Option String) : Json :=
  let place := source.map fun s => Text.locate s l.span.start
  .object (
    (match place with
      | some p => [("col", Json.ofNat p.column)]
      | none => []) ++
    [("end", Json.ofNat l.span.stop)] ++
    (match place with
      | some p => [("line", Json.ofNat p.line)]
      | none => []) ++
    [("message", .string l.message), ("primary", .bool l.primary),
     ("start", Json.ofNat l.span.start)])

end Label

namespace Diagnostic

/-- A field with a text that may be missing. -/
def optionalField (name : String) : Option String → List (String × Json)
  | some s => [(name, .string s)]
  | none => []

/-- The diagnostic as a document. -/
def document (d : Diagnostic) : Json :=
  .object (
    optionalField "code" d.code ++
    [("labels", .array (d.labels.map (·.document d.source))),
     ("message", .string d.message),
     ("notes", .array (d.notes.map .string)),
     ("severity", .string d.severity.text)] ++
    optionalField "suggestion" d.suggestion)

/-- The document of a diagnostic on one line. -/
def documentLine (d : Diagnostic) : String := d.document.compact

end Diagnostic

end ScriptMachine
