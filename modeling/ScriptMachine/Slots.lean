import ScriptMachine.Program

/-!
# Local slots of a function

Every variable of a function has a slot of its own. Blocks nest, and a name
belongs to the innermost open block that binds it; a block that is closed takes
its names with it, but its slots are never given out again. So two variables
share a slot only if they are the same variable.
-/

namespace ScriptMachine

/-- The open blocks of a function, the innermost first, with the slots of their
    names, and the first slot that was never given out. -/
structure Slots where
  blocks : List (Table String Nat)
  next : Nat
deriving DecidableEq, Inhabited

namespace Slots

/-- One open block without names. -/
def new (first : Nat) : Slots := ⟨[[]], first⟩

/-- The number of open blocks. -/
def depth (s : Slots) : Nat := s.blocks.length

/-- Opens a block. -/
def enterBlock (s : Slots) : Slots := { s with blocks := [] :: s.blocks }

/-- Closes the innermost block; the outermost one stays open. -/
def leaveBlock (s : Slots) : Slots :=
  match s.blocks with
  | _ :: outer :: rest => { s with blocks := outer :: rest }
  | _ => s

/-- The slot of a name in the innermost block, which is given out if the block
    does not bind the name yet. -/
def declare (s : Slots) (name : String) : Nat × Slots :=
  match s.blocks with
  | [] => (s.next, ⟨[[(name, s.next)]], s.next + 1⟩)
  | block :: rest =>
    match block.get? name with
    | some slot => (slot, s)
    | none => (s.next, ⟨block.insert name s.next :: rest, s.next + 1⟩)

/-- The slot of a name in the innermost block that binds it. -/
def resolve (s : Slots) (name : String) : Option Nat :=
  s.blocks.findSome? (·.get? name)

/-- One more than the greatest slot given out. -/
def count (s : Slots) : Nat := s.next

end Slots

end ScriptMachine
