/-!
# Lines of a text

Positions in a source text are byte offsets into its encoding. A reader wants
lines and columns, both counted from one: the line of an offset is one more than
the number of line feeds before it, and the column counts bytes from the start
of that line. Offsets past the end belong to the last line.

The text of a line is what stands between two line feeds, without the carriage
returns at its end.
-/

namespace ScriptMachine.Text

/-- A position as a reader counts it, from one. -/
structure Position where
  line : Nat
  column : Nat
deriving DecidableEq, Inhabited

/-- The offsets just behind the line feeds of `cs`, which starts at `offset`. -/
def startsAfter (offset : Nat) : List Char → List Nat
  | [] => []
  | c :: cs =>
    let next := offset + c.utf8Size
    if c = '\n' then next :: startsAfter next cs else startsAfter next cs

/-- The offsets at which the lines of `source` start. -/
def lineStarts (source : String) : List Nat := 0 :: startsAfter 0 source.toList

/-- The line and column of the byte at `offset`. -/
def locate (source : String) (offset : Nat) : Position :=
  let reached := (lineStarts source).takeWhile (· ≤ offset)
  ⟨reached.length, offset - reached.getLastD 0 + 1⟩

/-- The pieces of `cs` between its line feeds. -/
def splitLines : List Char → List (List Char)
  | [] => [[]]
  | c :: cs =>
    if c = '\n' then [] :: splitLines cs
    else match splitLines cs with
      | [] => [[c]]
      | l :: ls => (c :: l) :: ls

/-- A line without the carriage returns at its end. -/
def withoutReturns (cs : List Char) : List Char :=
  (cs.reverse.dropWhile (· == '\r')).reverse

/-- The text of line number `line`; empty if there is no such line. -/
def lineText (source : String) (line : Nat) : String :=
  match line with
  | 0 => ""
  | n + 1 => String.ofList (withoutReturns ((splitLines source.toList)[n]?.getD []))

end ScriptMachine.Text
