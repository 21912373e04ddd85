import ScriptMachine.Host
import ScriptMachine.Json.Read

/-!
# Settings of a machine

How many instructions a process may execute before the next one has its turn, how
deep calls may nest, and what a call of an unknown function of the host does.
Settings can be read from a JSON document: an object, in which every setting may
be missing and unknown fields are of no interest, or an array with the settings
in their order, from which the last ones may be missing.
-/

namespace ScriptMachine

/-- The settings of a machine. -/
structure Settings where
  /-- The instructions of a process in one turn. -/
  timeSlice : Nat := 60
  maxStackDepth : Nat := 256
  unbound : UnboundPolicy := .ignore
deriving DecidableEq, Inhabited

namespace Settings

/-- The settings that hold where nothing else is said. -/
def standard : Settings := {}

/-- A number of a document that is natural and has at most sixty-four bits. -/
def word? : Json → Option Nat
  | .number text =>
    if text.toList.all Char.isDigit then
      match text.toNat? with
      | some n => if n < UInt64.size then some n else none
      | none => none
    else none
  | _ => none

/-- A policy by its name. -/
def policyNamed? : String → Option UnboundPolicy
  | "ignore" => some .ignore
  | "push_unit" => some .pushUnit
  | "fault" => some .fault
  | _ => none

/-- A policy of a document: its name, alone or as the only field of an object. -/
def policy? : Json → Option UnboundPolicy
  | .string name => policyNamed? name
  | .object [(name, .null)] => policyNamed? name
  | _ => none

/-- Settings, some of which have not been given. -/
structure Partly where
  timeSlice : Option Nat := none
  maxStackDepth : Option Nat := none
  unbound : Option UnboundPolicy := none

namespace Partly

/-- Adds a field of a document. No setting may be given twice. -/
def addField? (s : Partly) (name : String) (v : Json) : Option Partly :=
  match name with
  | "time_slice" =>
    if s.timeSlice.isSome then none
    else (word? v).map fun n => { s with timeSlice := some n }
  | "max_stack_depth" =>
    if s.maxStackDepth.isSome then none
    else (word? v).map fun n => { s with maxStackDepth := some n }
  | "unbound_external" =>
    if s.unbound.isSome then none
    else (policy? v).map fun p => { s with unbound := some p }
  | _ => some s

/-- The settings, with the standard ones for those that have not been given. -/
def complete (s : Partly) : Settings where
  timeSlice := s.timeSlice.getD standard.timeSlice
  maxStackDepth := s.maxStackDepth.getD standard.maxStackDepth
  unbound := s.unbound.getD standard.unbound

end Partly

/-- The settings of a document. -/
def ofJson? : Json → Option Settings
  | .object fields =>
    (fields.foldlM (fun (s : Partly) (name, v) => s.addField? name v) {}).map Partly.complete
  | .array elements =>
    if elements.length ≤ 3 then
      ((["time_slice", "max_stack_depth", "unbound_external"].zip elements).foldlM
        (fun (s : Partly) (name, v) => s.addField? name v) {}).map Partly.complete
    else none
  | _ => none

/-- Reads settings from the text of a document. -/
def read? (text : String) : Option Settings := (Json.read? text).bind ofJson?

end Settings

end ScriptMachine
