import ScriptMachine.Draft.Generate

/-!
# Drafts of programs

A draft is a program in the making: the strings and functions met so far with
their numbers, the bodies of the functions that are finished, and the function
that is open, if any. Functions are registered before their bodies are made, so
that a body can call functions that come later.

A draft can be worked on instruction by instruction or function by function.
Whatever fails leaves the draft usable: in particular a function whose body could
not be completed stays open. `Draft.toProgram` gives the program made so far,
with a place in the function table for every registered function.
-/

namespace ScriptMachine

/-- The function whose body is being made. -/
structure OpenFunction where
  name : String
  id : Nat
  code : List Instruction
  slots : Slots

/-- A program in the making. -/
structure Draft where
  strings : Interner
  functions : Interner
  /-- The finished bodies, by the number of the function. -/
  bodies : Table Nat (List Instruction)
  current : Option OpenFunction

instance : Inhabited Draft := ⟨⟨.empty, .empty, [], none⟩⟩

namespace Draft

variable {α : Type}

/-- Nothing has been made yet. -/
def empty : Draft := ⟨.empty, .empty, [], none⟩

/-- The number of a string. -/
def string (d : Draft) (s : String) : Nat × Draft :=
  let (id, strings) := d.strings.intern s
  (id, { d with strings := strings })

/-- The number of a function. -/
def register (d : Draft) (name : String) : Nat × Draft :=
  let (id, functions) := d.functions.intern name
  (id, { d with functions := functions })

/-- The number of a registered function. -/
def functionId? (d : Draft) (name : String) : Option Nat := d.functions.id? name

/-! ## The open function -/

/-- Slot zero holds no variable. -/
def reservedSlots : Nat := 1

/-- Opens a registered function; its parameters take the first slots. -/
def openFunction (d : Draft) (name : String) (params : List String) : Except CompileError Draft :=
  match d.current with
  | some f => .error (.nestedFunction name f.name)
  | none =>
    match d.functionId? name with
    | none => .error (.unregisteredFunction name)
    | some id =>
      let slots := params.foldl (fun s p => (s.declare p).2) (.new reservedSlots)
      .ok { d with current := some ⟨name, id, [], slots⟩ }

/-- Can code only be left by returning? Its last instruction returns, and no jump
    leads behind it. -/
def endsWithReturn (code : List Instruction) : Bool :=
  (code.getLast?.any fun i => i.opcode == .ret) &&
    !code.any fun i => i.opcode.isJump && code.length ≤ i.index

/-- Code that returns the unit value where it would otherwise run off its end. -/
def completed (code : List Instruction) : List Instruction :=
  if endsWithReturn code then code else code ++ [.bare .pushUnit, .bare .ret]

/-- Closes the open function. -/
def closeFunction (d : Draft) : Except CompileError Draft :=
  match d.current with
  | none => .error .noOpenFunction
  | some f => .ok { d with current := none, bodies := d.bodies.insert f.id (completed f.code) }

/-- Changes the open function. -/
def updateCurrent (d : Draft) (f : OpenFunction → OpenFunction) : Except CompileError Draft :=
  match d.current with
  | none => .error .noOpenFunction
  | some c => .ok { d with current := some (f c) }

/-- Opens a block in the open function. -/
def enterBlock (d : Draft) : Except CompileError Draft :=
  d.updateCurrent fun f => { f with slots := f.slots.enterBlock }

/-- Closes a block in the open function. -/
def leaveBlock (d : Draft) : Except CompileError Draft :=
  d.updateCurrent fun f => { f with slots := f.slots.leaveBlock }

/-- The index of the next instruction of the open function. -/
def nextIndex (d : Draft) : Except CompileError Nat :=
  match d.current with
  | none => .error .noOpenFunction
  | some f => .ok f.code.length

/-- Appends an instruction to the open function. -/
def emit (d : Draft) (i : Instruction) : Except CompileError Draft :=
  d.updateCurrent fun f => { f with code := f.code ++ [i] }

/-- Replaces the payload of an instruction of the open function, if it exists. -/
def patch (d : Draft) (index target : Nat) : Except CompileError Draft :=
  d.updateCurrent fun f => { f with code := f.code.modify index (·.setData target) }

/-- Appends a piece of code to the open function. -/
def generate (d : Draft) (g : Gen α) : Draft × Except CompileError α :=
  match d.current with
  | none => (d, .error .noOpenFunction)
  | some f =>
    let piece := g ⟨f.name, d.functions⟩ f.code.length ⟨d.strings, f.slots⟩
    ({ d with
        strings := piece.state.strings
        current := some { f with code := f.code ++ piece.code, slots := piece.state.slots } },
      piece.result)

/-! ## Functions and scripts -/

/-- Makes the body of a registered function. -/
def function (d : Draft) (f : Function) : Draft × Except CompileError Unit :=
  match d.openFunction f.name f.params with
  | .error e => (d, .error e)
  | .ok opened =>
    match opened.generate (genStmts f.body) with
    | (d, .error e) => (d, .error e)
    | (d, .ok _) =>
      match d.closeFunction with
      | .error e => (d, .error e)
      | .ok d => (d, .ok ())

/-- Makes the bodies of registered functions. -/
def functionBodies (d : Draft) : List Function → Draft × Except CompileError Unit
  | [] => (d, .ok ())
  | f :: fs =>
    match d.function f with
    | (d, .error e) => (d, .error e)
    | (d, .ok _) => d.functionBodies fs

/-- Registers functions, which must have different names; `seen` holds the places
    of those that came before. -/
def registerAll (d : Draft) (seen : Table String Span) :
    List Function → Draft × Except CompileError Unit
  | [] => (d, .ok ())
  | f :: fs =>
    match seen.get? f.name with
    | some first => (d, .error (.duplicateFunction f.name f.span first))
    | none => (d.register f.name).2.registerAll (seen.insert f.name f.span) fs

/-- Makes all functions of a script. -/
def script (d : Draft) (s : Script) : Draft × Except CompileError Unit :=
  match d.registerAll [] s.functions with
  | (d, .error e) => (d, .error e)
  | (d, .ok _) => d.functionBodies s.functions

/-! ## The program -/

/-- Changes every finished body. -/
def mapBodies (d : Draft) (pass : List Instruction → List Instruction) : Draft :=
  { d with bodies := d.bodies.map fun (id, code) => (id, pass code) }

/-- The program made so far. A function without a finished body leaves its place
    unset. -/
def toProgram (d : Draft) : Program where
  strings := d.strings.texts
  functions := d.functions.texts.mapIdx fun id _ =>
    match d.bodies.get? id with
    | some code => .compiled (.ofCode code.toArray)
    | none => .unset
  names := d.functions.texts.toList.mapIdx fun id name => (name, id)

end Draft

end ScriptMachine
