import ScriptMachine.Diagnostic
import ScriptMachine.Text.Lines

/-!
# Diagnostics for a terminal

The first line names what is wrong. If the source is known, the line of the first
primary label follows, with carets below the place; then the messages of the
other places, the notes and the suggestion, one a line. Colours are a matter of
the terminal (`Style`); without them the text is the same.
-/

namespace ScriptMachine

/-- How parts of a diagnostic are set off. -/
structure Style where
  /-- Are escape sequences for colours written? -/
  coloured : Bool

namespace Style

/-- Text between an escape sequence and the one that ends it. -/
def escaped (s : Style) (sequence text : String) : String :=
  if s.coloured then "\x1b[" ++ sequence ++ "m" ++ text ++ "\x1b[0m" else text

/-- Bold text. -/
def bold (s : Style) : String → String := s.escaped "1"

/-- Bold red text. -/
def boldRed (s : Style) : String → String := s.escaped "1;31"

/-- Cyan text. -/
def cyan (s : Style) : String → String := s.escaped "36"

/-- Dim text. -/
def dim (s : Style) : String → String := s.escaped "2"

end Style

namespace Diagnostic

/-- `n` times the same character. -/
def repeated (n : Nat) (c : Char) : String := String.ofList (List.replicate n c)

/-- The first line. -/
def headline (d : Diagnostic) (style : Style) : String :=
  let kind := d.severity.text ++ match d.code with
    | some code => "[" ++ code ++ "]"
    | none => ""
  let kind := match d.severity with
    | .error => style.boldRed kind
    | .warning => style.bold (style.cyan kind)
  kind ++ ": " ++ style.bold d.message ++ "\n"

/-- The line of a label, with carets below its place. -/
def snippet (style : Style) (source : String) (l : Label) : String :=
  let place := Text.locate source l.span.start
  let number := toString place.line
  let margin := repeated number.length ' ' ++ " " ++ style.cyan "|"
  let carets := repeated (max (l.span.stop - l.span.start) 1) '^'
  let said := if l.message.isEmpty then "" else " " ++ style.boldRed l.message
  "  " ++ style.cyan "-->" ++ " " ++ number ++ ":" ++ toString place.column ++ "\n" ++
  margin ++ "\n" ++
  style.cyan number ++ " " ++ style.cyan "|" ++ " " ++ Text.lineText source place.line ++ "\n" ++
  margin ++ " " ++ repeated (place.column - 1) ' ' ++ style.boldRed carets ++ said ++ "\n" ++
  margin ++ "\n"

/-- A line below the source. -/
def footnote (style : Style) (text : String) : String :=
  "  " ++ style.dim "=" ++ " " ++ text ++ "\n"

/-- The diagnostic for a terminal. -/
def terminal (d : Diagnostic) (style : Style) : String :=
  let shown := match d.labels.find? (·.primary), d.source with
    | some l, some source => snippet style source l
    | _, _ => ""
  let others := d.labels.filter fun l => !l.primary && !l.message.isEmpty
  d.headline style ++ shown ++
    String.join (others.map fun l => footnote style l.message) ++
    String.join (d.notes.map fun n => footnote style ("note: " ++ n)) ++
    match d.suggestion with
    | some s => footnote style ("suggestion: " ++ s)
    | none => ""

end Diagnostic

end ScriptMachine
