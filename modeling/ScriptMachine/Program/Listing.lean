import ScriptMachine.Program

/-!
# Listings

A listing shows a program to a reader: its strings, the names of its functions in
the order of their numbers, and the functions with their instructions.
-/

namespace ScriptMachine.Program

/-- Lines with their numbers, indented. -/
def numbered (indent : String) (lines : List String) : String :=
  String.join (lines.mapIdx fun i l => indent ++ toString i ++ ": " ++ l ++ "\n")

/-- A function behind its number. -/
def entryLines : FunctionEntry → String
  | .unset => "INVALID\n"
  | .imported file name => "Imported " ++ file ++ ":" ++ name ++ "\n"
  | .compiled body =>
    "Local" ++ String.join (body.code.toList.mapIdx fun i ins =>
      "\n    " ++ toString i ++ ": " ++ ins.text)

/-- The listing of a program. -/
def listing (p : Program) : String :=
  "String Table:\n" ++ numbered "  " p.strings.toList ++
  "\nFunction ID Table:\n" ++
    String.join (p.namesById.map fun (name, id) => "  " ++ toString id ++ ": " ++ name ++ "\n") ++
  "\nImplementation:\n" ++ numbered "  " (p.functions.toList.map entryLines)

end ScriptMachine.Program
