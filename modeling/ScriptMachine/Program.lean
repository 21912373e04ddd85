import ScriptMachine.Instruction

/-!
# Programs

A program is what a process executes: a table of strings, a table of functions,
and the names under which functions can be found. A function is a body of
instructions, a reference to a function of another file, or a place of the table
that was never filled.

A body knows the number of local slots that its instructions address; that the
number fits the instructions is part of the type (`Body`).
-/

namespace ScriptMachine

/-- No function may have more local slots than this. -/
def maxLocals : Nat := 65536

/-- The number of local slots that instructions address: one more than the
    greatest slot they read or write. -/
def slotCount (code : List Instruction) : Nat :=
  code.foldl (fun n i => if i.opcode.isLocalAccess then max n (i.index + 1) else n) 0

/-- The instructions of a function. -/
structure Body where
  code : Array Instruction
  /-- The number of local slots that the instructions address. -/
  slots : Nat
  slots_eq : slots = slotCount code.toList
deriving DecidableEq

namespace Body

/-- The body with the given instructions. -/
def ofCode (code : Array Instruction) : Body := ⟨code, slotCount code.toList, rfl⟩

instance : Inhabited Body := ⟨ofCode #[]⟩

end Body

/-- An entry of the function table. -/
inductive FunctionEntry where
  /-- A place that was never filled. -/
  | unset
  | compiled (body : Body)
  /-- A function of another file. -/
  | imported (file name : String)
deriving DecidableEq, Inhabited

/-- A table of pairs, looked up by their first part. -/
abbrev Table (κ α : Type) := List (κ × α)

namespace Table

variable {κ α : Type} [DecidableEq κ]

/-- The value of a key. -/
def get? (t : Table κ α) (k : κ) : Option α :=
  match t with
  | [] => none
  | (k', a) :: rest => if k' = k then some a else get? rest k

/-- Gives a key a value: in the place of its old one, or at the end. -/
def insert (t : Table κ α) (k : κ) (a : α) : Table κ α :=
  match t with
  | [] => [(k, a)]
  | (k', a') :: rest => if k' = k then (k, a) :: rest else (k', a') :: insert rest k a

/-- Removes a key. -/
def erase (t : Table κ α) (k : κ) : Table κ α := t.filter fun (k', _) => k' ≠ k

end Table

/-- A program. -/
structure Program where
  strings : Array String
  functions : Array FunctionEntry
  /-- The functions by name. -/
  names : Table String Nat
deriving DecidableEq, Inhabited

namespace Program

/-- The program without strings and functions. -/
def empty : Program := ⟨#[], #[], []⟩

/-- The string with the given number. -/
def string? (p : Program) (id : Nat) : Option String := p.strings[id]?

/-- The function with the given number. -/
def function? (p : Program) (id : Nat) : Option FunctionEntry := p.functions[id]?

/-- The number of the function with the given name. -/
def functionId? (p : Program) (name : String) : Option Nat := p.names.get? name

/-- Sets an entry of an array, after filling the array up to it. -/
def setFilling {α : Type} (filler : α) (xs : Array α) (i : Nat) (a : α) : Array α :=
  (xs ++ Array.replicate (i + 1 - xs.size) filler).setIfInBounds i a

/-- Sets a string of the table. -/
def setString (p : Program) (id : Nat) (s : String) : Program :=
  { p with strings := setFilling "" p.strings id s }

/-- Sets a function of the table, and its name. -/
def setFunction (p : Program) (id : Nat) (name : String) (f : FunctionEntry) : Program :=
  { p with
    functions := setFilling .unset p.functions id f
    names := p.names.insert name id }

/-- The names in the order of the numbers that they stand for. -/
def namesById (p : Program) : Table String Nat :=
  p.names.mergeSort fun a b => a.2 ≤ b.2

/-- Do two programs have the same strings and functions, and the same functions
    under the same names? The order of the names does not matter. -/
def same (p q : Program) : Bool :=
  p.strings == q.strings && p.functions == q.functions && p.names.length == q.names.length &&
    p.names.all fun (name, id) => q.names.get? name == some id

end Program

end ScriptMachine
