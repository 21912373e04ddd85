import ScriptMachine.Process
import ScriptMachine.Proofs.Table
import ScriptMachine.Script

/-!
# What scripts mean

A script has a meaning of its own, apart from any machine: this module evaluates
its trees. An expression has a value, a statement changes the variables of the
activation it is executed in or returns from it (`Flow`), and a function that is
invoked answers with a value (`Script.invoke`).

* Names live in scopes. A block opens a fresh scope each time it is executed;
  an assignment binds its name in the innermost scope, and does so *before* its
  right-hand side is evaluated.
* Evaluation is strict and goes from left to right; this includes both sides of
  `&&` and `||`. The name of a callee is a function of the script first and a
  variable second, and is looked at after the arguments.
* A function that comes to its end answers with the unit value.

Variables have numbers: those of the parameters are their positions, and every
further variable of the function takes the next one, in the order in which the
text introduces them (`Stmt.declarations`). The number of a variable matters twice.
It is what the fault names that a variable without a value raises; and the first
arguments of an activation are the places of the variables that have their numbers.
For the parameters this is what binding arguments means. A caller may however pass
more arguments than there are parameters, and the surplus is not dropped: it is
where the variables introduced next find, and keep, their values.

Loops and calls use up fuel, and a result is `unfinished` if there was too little
of it. Trees for which no code is generated may be `meaningless`; so are calls of
functions of the host.
-/

namespace ScriptMachine

/-! ## Results -/

/-- What evaluation comes to. -/
inductive Result (α : Type) where
  | done (a : α)
  | fault (f : Fault)
  /-- The fuel did not suffice. -/
  | unfinished
  /-- There is nothing that evaluation could come to. -/
  | meaningless
deriving DecidableEq

namespace Result

variable {α β : Type}

/-- Goes on with what evaluation has come to. -/
protected def bind (o : Result α) (f : α → Result β) : Result β :=
  match o with
  | done a => f a
  | fault e => fault e
  | unfinished => unfinished
  | meaningless => meaningless

instance : Monad Result where
  pure := done
  bind := Result.bind

/-- An operation on values that may be a fault. -/
def ofExcept : Except Fault α → Result α
  | .ok a => done a
  | .error f => fault f

/-- Something that must be there. -/
def ofOption : Option α → Result α
  | some a => done a
  | none => meaningless

end Result

/-! ## Activations -/

/-- A variable of a scope. -/
structure Variable where
  number : Nat
  value : Option Value
deriving DecidableEq

/-- An activation of a function: its scopes, the innermost first, and the places
    of its arguments. -/
structure Activation where
  scopes : List (Table String Variable)
  arguments : List Value
deriving DecidableEq

namespace Activation

/-- The activation of a function with the given parameters. -/
def enter (params : List String) (args : List Value) : Activation where
  scopes := [params.mapIdx fun i x => (x, ⟨i + 1, none⟩)]
  arguments := args

/-- Opens a scope. -/
def enterScope (a : Activation) : Activation := { a with scopes := [] :: a.scopes }

/-- Closes the innermost scope. -/
def leaveScope (a : Activation) : Activation := { a with scopes := a.scopes.tail }

/-- The names that the innermost scope binds. -/
def bound (a : Activation) : List String :=
  match a.scopes with
  | [] => []
  | scope :: _ => scope.keys

/-- The variable of a name, in the innermost scope that binds it. -/
def lookup (a : Activation) (x : String) : Option Variable := a.scopes.findSome? (·.get? x)

/-- The value of a variable: that of an argument, if the variable has its number. -/
def value? (a : Activation) (var : Variable) : Option Value :=
  a.arguments[var.number - 1]?.or var.value

/-- The value of a name. -/
def read (a : Activation) (x : String) : Result Value := do
  let var ← .ofOption (a.lookup x)
  match a.value? var with
  | some v => .done v
  | none => .fault (.noSuchLocal var.number)

/-- Binds a name in the innermost scope, to a variable that has no value yet,
    unless that scope binds it already. -/
def declare (a : Activation) (number : Nat) (x : String) : Activation :=
  match a.scopes with
  | [] => a
  | scope :: outer =>
    if x ∈ scope.keys then a
    else { a with scopes := (scope ++ [(x, ⟨number, none⟩)]) :: outer }

/-- Gives a name of the innermost scope a value. -/
def assign (a : Activation) (x : String) (v : Value) : Activation :=
  match a.scopes with
  | [] => a
  | scope :: outer =>
    match scope.get? x with
    | none => a
    | some var =>
      { scopes := scope.insert x { var with value := some v } :: outer
        arguments := a.arguments.set (var.number - 1) v }

end Activation

/-! ## The variables of a text -/

namespace Stmt

/-- The names that a scope binds after a statement. -/
def binds (bound : List String) : Stmt → List String
  | .assign x _ => if x ∈ bound then bound else bound ++ [x]
  | _ => bound

mutual

/-- The variables that a statement introduces into a scope that already binds some
    names and into the scopes inside, with what is first assigned to them. -/
def declarations (bound : List String) : Stmt → List (String × Expr)
  | .assign x e => if x ∈ bound then [] else [(x, e)]
  | .loop _ body => allDeclarations [] body
  | .choose branches => branchDeclarations branches
  | .call .. | .give _ => []

/-- The variables that statements introduce. -/
def allDeclarations (bound : List String) : List Stmt → List (String × Expr)
  | [] => []
  | s :: ss => s.declarations bound ++ allDeclarations (s.binds bound) ss

/-- The variables that branches introduce. -/
def branchDeclarations : List Branch → List (String × Expr)
  | [] => []
  | .mk _ body :: rest => allDeclarations [] body ++ branchDeclarations rest

end

end Stmt

/-! ## Expressions -/

/-- The value of a constant. -/
def Literal.value : Literal → Value
  | .int n => .int n
  | .float x => .float x
  | .bool b => .boolean b
  | .text s => .string s

/-- What an operator makes of two values. -/
def BinaryOp.apply : BinaryOp → Value → Value → Except Fault Value
  | .add => Value.add
  | .subtract => Value.sub
  | .multiply => Value.mul
  | .divide => Value.div
  | .equals => fun v w => .ok (v.equals w)
  | .notEquals => fun v w => (v.equals w).not
  | .greaterThan => Value.compare .gt
  | .lessThan => Value.compare .lt
  | .greaterOrEqual => Value.compare .gte
  | .lessOrEqual => Value.compare .lte
  | .and => Value.and
  | .or => Value.or

/-- The number of a function of the script: its position. -/
def Script.functionId? (s : Script) (name : String) : Option Nat :=
  (s.functions.map Function.name).idxOf? name

namespace Expr

/-- The value of a name that is called. -/
def callee (s : Script) (a : Activation) (name : String) : Result Value :=
  match s.functionId? name with
  | some id => .done (.functionRef id)
  | none => a.read name

/-- Calls a value; `call` answers for the functions of the script. -/
def apply (call : Nat → List Value → Result Value) (f : Value) (args : List Value) :
    Result Value :=
  match f with
  | .functionRef id => call id args
  | v => .fault (.unexpectedType .call .functionRef v.type)

mutual

/-- The value of an expression. -/
def eval (s : Script) (call : Nat → List Value → Result Value) (a : Activation) :
    Expr → Result Value
  | .literal l => .done l.value
  | .ident x => a.read x
  | .functionRef x => do return .functionRef (← .ofOption (s.functionId? x))
  | .call .internal x args => do
    let vs ← evalAll s call a args
    let f ← callee s a x
    apply call f vs
  | .call .external .. => .meaningless
  | .binary op left right => do
    let v ← eval s call a left
    let w ← eval s call a right
    .ofExcept (op.apply v w)
  | .not e => do
    let v ← eval s call a e
    .ofExcept v.not
  | .negate e => do
    let v ← eval s call a e
    .ofExcept (v.mul (.int (-1)))
  | .access .. => .meaningless

/-- The values of expressions. -/
def evalAll (s : Script) (call : Nat → List Value → Result Value) (a : Activation) :
    List Expr → Result (List Value)
  | [] => .done []
  | e :: es => do
    let v ← eval s call a e
    let vs ← evalAll s call a es
    return v :: vs

end

/-- The truth value that a value must be to decide a condition. -/
def truth : Value → Result Bool
  | .boolean b => .done b
  | v => .fault (.unexpectedType .jumpUnless .boolean v.type)

/-- The truth value of a condition. -/
def test (s : Script) (call : Nat → List Value → Result Value) (a : Activation) (c : Expr) :
    Result Bool := do
  truth (← c.eval s call a)

end Expr

/-! ## Statements and functions -/

/-- How the execution of statements ends. -/
inductive Flow where
  /-- The statements behind come next. -/
  | next (a : Activation)
  | returned (v : Value)
deriving DecidableEq

namespace Flow

/-- Executes something in a fresh scope. -/
def inScope (body : Activation → Result Flow) (a : Activation) : Result Flow := do
  match ← body a.enterScope with
  | next a' => .done (next a'.leaveScope)
  | returned v => .done (returned v)

/-- Executes something for as long as a test holds. -/
def whileTrue (test : Activation → Result Bool) (body : Activation → Result Flow) :
    (fuel : Nat) → Activation → Result Flow
  | 0, _ => .unfinished
  | fuel + 1, a => do
    if ← test a then
      match ← body a with
      | next a' => whileTrue test body fuel a'
      | returned v => .done (returned v)
    else
      .done (next a)

end Flow

namespace Stmt

mutual

/-- Executes a statement; the next variable that it introduces has the number
    `number`. -/
def exec (s : Script) (call : Nat → List Value → Result Value) (fuel : Nat) :
    Stmt → (number : Nat) → Activation → Result Flow
  | .assign x e, number, a => do
    let v ← e.eval s call (a.declare number x)
    .done (.next ((a.declare number x).assign x v))
  | .loop c body, number, a =>
    Flow.whileTrue (fun a => c.test s call a) (Flow.inScope (execAll s call fuel body number)) fuel a
  | .choose branches, number, a => execBranches s call fuel branches number a
  | .call kind x args, _, a => do
    let _ ← (Expr.call kind x args).eval s call a
    .done (.next a)
  | .give none, _, _ => .done (.returned .unit)
  | .give (some e), _, a => do
    let v ← e.eval s call a
    .done (.returned v)

/-- Executes statements, one after the other. -/
def execAll (s : Script) (call : Nat → List Value → Result Value) (fuel : Nat) :
    List Stmt → (number : Nat) → Activation → Result Flow
  | [], _, a => .done (.next a)
  | stmt :: stmts, number, a => do
    match ← exec s call fuel stmt number a with
    | .next a' => execAll s call fuel stmts (number + (stmt.declarations a.bound).length) a'
    | .returned v => .done (.returned v)

/-- Executes the first branch whose guard holds. The last one needs none. -/
def execBranches (s : Script) (call : Nat → List Value → Result Value) (fuel : Nat) :
    List Branch → (number : Nat) → Activation → Result Flow
  | [], _, _ => .meaningless
  | [.mk _ body], number, a => Flow.inScope (execAll s call fuel body number) a
  | .mk .otherwise _ :: _, _, _ => .meaningless
  | .mk (.when c) body :: rest, number, a => do
    if ← c.test s call a then
      Flow.inScope (execAll s call fuel body number) a
    else
      execBranches s call fuel rest (number + (allDeclarations [] body).length) a

end

end Stmt

/-- What the body of a function answers with. -/
def Function.answer (s : Script) (call : Nat → List Value → Result Value) (fuel : Nat)
    (f : Function) (args : List Value) : Result Value := do
  match ← Stmt.execAll s call fuel f.body (f.params.length + 1) (.enter f.params args) with
  | .next _ => .done .unit
  | .returned v => .done v

/-- What a function that is invoked answers with, if it is invoked from inside
    `depth` others; `take` says which of its arguments a function takes. -/
def Script.invokeWith (s : Script) (take : Function → List Value → List Value)
    (maxDepth fuel depth id : Nat) (args : List Value) : Result Value :=
  if depth = maxDepth then .fault (.stackOverflow maxDepth)
  else
    match s.functions[id]? with
    | none => .fault (.badFunctionId id)
    | some f =>
      match fuel with
      | 0 => .unfinished
      | fuel + 1 => f.answer s (s.invokeWith take maxDepth fuel (depth + 1)) fuel (take f args)

/-- What a function that is invoked answers with. It takes all of its arguments. -/
abbrev Script.invoke (s : Script) : (maxDepth fuel depth id : Nat) → List Value → Result Value :=
  s.invokeWith fun _ args => args

/-! ## Trees without calls of the host -/

namespace Expr

mutual

/-- Does evaluation never need a function of the host? -/
def hostFree : Expr → Bool
  | .literal _ | .ident _ | .functionRef _ => true
  | .call .internal _ args => allHostFree args
  | .call .external .. => false
  | .binary _ left right => left.hostFree && right.hostFree
  | .not e | .negate e | .access e _ => e.hostFree

/-- Do all of these never need one? -/
def allHostFree : List Expr → Bool
  | [] => true
  | e :: es => e.hostFree && allHostFree es

end

end Expr

namespace Stmt

mutual

/-- Does execution never need a function of the host? -/
def hostFree : Stmt → Bool
  | .assign _ e => e.hostFree
  | .loop c body => c.hostFree && allHostFree body
  | .choose branches => branchesHostFree branches
  | .call kind x args => (Expr.call kind x args).hostFree
  | .give none => true
  | .give (some e) => e.hostFree

/-- Do all of these never need one? -/
def allHostFree : List Stmt → Bool
  | [] => true
  | s :: ss => s.hostFree && allHostFree ss

/-- Do the branches never need one? -/
def branchesHostFree : List Branch → Bool
  | [] => true
  | .mk (.when c) body :: rest => c.hostFree && allHostFree body && branchesHostFree rest
  | .mk .otherwise body :: rest => allHostFree body && branchesHostFree rest

end

end Stmt

/-- Does the script contain no call of a function of the host? -/
def Script.hostFree (s : Script) : Bool := s.functions.all fun f => Stmt.allHostFree f.body

end ScriptMachine
