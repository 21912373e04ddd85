import ScriptMachine.Token

/-!
# Scripts

A script is a list of functions; the body of a function is a list of statements
over expressions. The trees here are wider than what can be written down: a
conditional may have any branches, in any order, although reading a source text
only builds conditionals that end in an *otherwise* branch. Which trees are
meaningful is decided when code is generated for them.

Functions remember their place in the source, for messages; two functions that
differ only there are the same function to a machine.
-/

namespace ScriptMachine

/-- The operators between two operands. -/
inductive BinaryOp where
  | add | subtract | multiply | divide
  | equals | notEquals | greaterThan | lessThan | greaterOrEqual | lessOrEqual
  | and | or
deriving DecidableEq, Inhabited

namespace BinaryOp

/-- Does the operator compute a number (or a text), never a truth value? -/
def isArithmetic : BinaryOp → Bool
  | add | subtract | multiply | divide => true
  | _ => false

end BinaryOp

/-- The constants of a script. -/
inductive Literal where
  | int (n : Int32)
  | float (x : Binary32)
  | bool (b : Bool)
  | text (s : String)
deriving DecidableEq, Inhabited

/-- Who is called: a function of the script, or one of the host. -/
inductive CallKind where
  | internal
  | external
deriving DecidableEq, Inhabited

/-- An expression. -/
inductive Expr where
  | literal (l : Literal)
  | ident (name : String)
  /-- A function as a value. -/
  | functionRef (name : String)
  | call (kind : CallKind) (name : String) (args : List Expr)
  | binary (op : BinaryOp) (left right : Expr)
  | not (operand : Expr)
  | negate (operand : Expr)
  | access (object : Expr) (field : String)
deriving Inhabited

/-- The condition of a branch. -/
inductive Guard where
  | when (condition : Expr)
  | otherwise
deriving Inhabited

namespace Guard

/-- Is this the guard that always holds? -/
def isOtherwise : Guard → Bool
  | when _ => false
  | otherwise => true

end Guard

mutual

/-- A statement. -/
inductive Stmt where
  | assign (name : String) (value : Expr)
  | loop (condition : Expr) (body : List Stmt)
  | choose (branches : List Branch)
  | call (kind : CallKind) (name : String) (args : List Expr)
  | give (value : Option Expr)

/-- A branch of a conditional. -/
inductive Branch where
  | mk (guard : Guard) (body : List Stmt)

end

instance : Inhabited Stmt := ⟨.give none⟩

instance : Inhabited Branch := ⟨.mk .otherwise []⟩

namespace Branch

/-- The condition of the branch. -/
def guard : Branch → Guard
  | mk g _ => g

/-- The statements of the branch. -/
def body : Branch → List Stmt
  | mk _ b => b

end Branch

/-- A function of a script. -/
structure Function where
  name : String
  params : List String
  body : List Stmt
  /-- Where the function stands in the source. -/
  span : Span := ⟨0, 0⟩
deriving Inhabited

/-- A script. -/
structure Script where
  functions : List Function
deriving Inhabited

end ScriptMachine
