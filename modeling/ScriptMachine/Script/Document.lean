import ScriptMachine.Json
import ScriptMachine.Script

/-!
# Scripts as documents

The tree of a script can be written as a JSON document, for tools that want to
look at it. A node with one part is an object with one field, named for the kind
of the node; a node without parts is a string; the fields stand in the order in
which the parts are declared. Places in the source are left out.
-/

namespace ScriptMachine

/-- The node of kind `kind` with the given part. -/
def node (kind : String) (part : Json) : Json := .object [(kind, part)]

namespace BinaryOp

/-- The operator in a document. -/
def document : BinaryOp → Json
  | add => .string "Add"
  | subtract => .string "Subtract"
  | multiply => .string "Multiply"
  | divide => .string "Divide"
  | equals => .string "Equals"
  | notEquals => .string "NotEquals"
  | greaterThan => .string "GreaterThan"
  | lessThan => .string "LessThan"
  | greaterOrEqual => .string "GreaterOrEqual"
  | lessOrEqual => .string "LessOrEqual"
  | and => .string "And"
  | or => .string "Or"

end BinaryOp

namespace Literal

/-- The constant in a document. -/
def document : Literal → Json
  | int n => node "Int" (.ofInt n.toInt)
  | float x => node "Float" (.ofBinary32 x)
  | bool b => node "Bool" (.bool b)
  | text s => node "Text" (.string s)

end Literal

namespace CallKind

/-- The kind of a call in a document. -/
def document : CallKind → Json
  | internal => .string "Internal"
  | external => .string "External"

end CallKind

/-- A call in a document. -/
def callDocument (kind : CallKind) (name : String) (args : List Json) : Json :=
  node "Call" (.object [("kind", kind.document), ("name", .string name), ("args", .array args)])

namespace Expr

mutual

/-- The expression in a document. -/
def document : Expr → Json
  | literal l => node "Literal" l.document
  | ident name => node "Ident" (.string name)
  | functionRef name => node "FunctionRef" (.string name)
  | call kind name args => callDocument kind name (documents args)
  | binary op left right =>
    node "Binary" (.object
      [("op", op.document), ("left", left.document), ("right", right.document)])
  | not operand => node "Not" operand.document
  | negate operand => node "Negate" operand.document
  | access object field =>
    node "Access" (.object [("object", object.document), ("field", .string field)])

/-- The expressions in a document. -/
def documents : List Expr → List Json
  | [] => []
  | e :: es => document e :: documents es

end

end Expr

namespace Guard

/-- The condition of a branch in a document. -/
def document : Guard → Json
  | when condition => node "When" condition.document
  | otherwise => .string "Else"

end Guard

mutual

/-- The statement in a document. -/
def Stmt.document : Stmt → Json
  | .assign name value =>
    node "Assign" (.object [("name", .string name), ("value", value.document)])
  | .loop condition body =>
    node "While" (.object
      [("condition", condition.document), ("body", .array (Stmt.documents body))])
  | .choose branches => node "If" (.object [("branches", .array (Branch.documents branches))])
  | .call kind name args => callDocument kind name (Expr.documents args)
  | .give none => node "Return" .null
  | .give (some value) => node "Return" value.document

/-- The statements in a document. -/
def Stmt.documents : List Stmt → List Json
  | [] => []
  | s :: ss => s.document :: Stmt.documents ss

/-- The branch in a document. -/
def Branch.document : Branch → Json
  | .mk guard body =>
    .object [("guard", guard.document), ("body", .array (Stmt.documents body))]

/-- The branches in a document. -/
def Branch.documents : List Branch → List Json
  | [] => []
  | b :: bs => b.document :: Branch.documents bs

end

/-- The function in a document. -/
def Function.document (f : Function) : Json :=
  .object [("name", .string f.name), ("params", .array (f.params.map .string)),
    ("body", .array (Stmt.documents f.body))]

/-- The script as a document. -/
def Script.document (s : Script) : Json :=
  .object [("functions", .array (s.functions.map Function.document))]

end ScriptMachine
