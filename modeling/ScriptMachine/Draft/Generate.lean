import ScriptMachine.CompileError
import ScriptMachine.Slots

/-!
# Generating code

Code for a function is generated along its tree, and every part of the tree gives
one consecutive piece of code. A *generator* (`Gen`) is told the index at which
its piece will start, so that jumps can be given their targets when the piece is
put together: a jump over a piece is written once the piece is known
(`Gen.jumpOver`, `Gen.branch`). What a generator keeps besides its code is small:
the strings collected so far and the slots of the function.

When there is no code for something, the piece ends there. The code generated so
far is kept, with jumps over unfinished pieces going to index zero, so that a
host that generates code step by step sees where the failure happened.

Expressions leave exactly one value on the stack of operands. So do calls that
stand as a statement; nothing removes that value before the function is left.
-/

namespace ScriptMachine

/-- Texts with consecutive numbers, in the order in which they were first met. -/
structure Interner where
  texts : Array String
deriving DecidableEq, Inhabited

namespace Interner

/-- No texts. -/
def empty : Interner := ⟨#[]⟩

/-- The number of a text that was met before. -/
def id? (i : Interner) (s : String) : Option Nat := i.texts.idxOf? s

/-- The number of a text, which is new if the text is. -/
def intern (i : Interner) (s : String) : Nat × Interner :=
  match i.id? s with
  | some id => (id, i)
  | none => (i.texts.size, ⟨i.texts.push s⟩)

end Interner

/-- What a generator knows. -/
structure GenContext where
  /-- The function for which code is generated. -/
  function : String
  /-- All functions of the script. -/
  functions : Interner

/-- What a generator keeps besides its code. -/
structure GenState where
  strings : Interner
  slots : Slots

/-- A piece of code, what is kept, and whether the piece is complete. -/
structure Generated (α : Type) where
  code : List Instruction
  state : GenState
  result : Except CompileError α

/-- Gives a piece of code that starts at a given index. -/
def Gen (α : Type) := GenContext → Nat → GenState → Generated α

namespace Gen

variable {α β : Type}

/-- The empty piece of code. -/
protected def pure (a : α) : Gen α := fun _ _ s => ⟨[], s, .ok a⟩

/-- One piece of code behind another one. -/
protected def bind (x : Gen α) (f : α → Gen β) : Gen β := fun ctx start s =>
  let first := x ctx start s
  match first.result with
  | .error e => ⟨first.code, first.state, .error e⟩
  | .ok a =>
    let second := f a ctx (start + first.code.length) first.state
    ⟨first.code ++ second.code, second.state, second.result⟩

instance : Monad Gen where
  pure := Gen.pure
  bind := Gen.bind

/-- One instruction. -/
def emit (i : Instruction) : Gen Unit := fun _ _ s => ⟨[i], s, .ok ()⟩

/-- The piece ends unfinished. -/
def fail (error : String → CompileError) : Gen α := fun ctx _ s =>
  ⟨[], s, .error (error ctx.function)⟩

/-- The index at which the next piece starts. -/
def here : Gen Nat := fun _ start s => ⟨[], s, .ok start⟩

/-- The number of a string of the program. -/
def string (text : String) : Gen Nat := fun _ _ s =>
  let (id, strings) := s.strings.intern text
  ⟨[], { s with strings := strings }, .ok id⟩

/-- The number of a function of the script. -/
def function? (name : String) : Gen (Option Nat) := fun ctx _ s =>
  ⟨[], s, .ok (ctx.functions.id? name)⟩

/-- The slot of a variable that is assigned to. -/
def declare (name : String) : Gen Nat := fun _ _ s =>
  let (slot, slots) := s.slots.declare name
  ⟨[], { s with slots := slots }, .ok slot⟩

/-- The slot of a variable that is read. -/
def resolve (name : String) : Gen Nat := fun ctx _ s =>
  match s.slots.resolve name with
  | some slot => ⟨[], s, .ok slot⟩
  | none => ⟨[], s, .error (.unresolvedIdentifier name ctx.function)⟩

/-- A change of the open blocks. -/
def updateSlots (f : Slots → Slots) : Gen Unit := fun _ _ s =>
  ⟨[], { s with slots := f s.slots }, .ok ()⟩

/-- A piece of code in a block of its own. -/
def inBlock (body : Gen Unit) : Gen Unit := do
  updateSlots Slots.enterBlock
  body
  updateSlots Slots.leaveBlock

/-- The index behind a piece that starts at `start`; zero if it is unfinished. -/
def endOf (start : Nat) (piece : Generated α) : Nat :=
  match piece.result with
  | .ok _ => start + piece.code.length
  | .error _ => 0

/-- A piece of code behind a jump that leads over it. -/
def jumpOver (opcode : Opcode) (body : Gen α) : Gen α := fun ctx start s =>
  let piece := body ctx (start + 1) s
  ⟨.ofNat opcode (endOf (start + 1) piece) :: piece.code, piece.state, piece.result⟩

/-- Code that takes a truth value and goes on with the first piece if it is true
    and with the second one otherwise; both end at the same place. -/
def branch (body rest : Gen Unit) : Gen Unit := fun ctx start s =>
  let first := body ctx (start + 1) s
  match first.result with
  | .error e => ⟨.ofNat .jumpUnless 0 :: first.code, first.state, .error e⟩
  | .ok _ =>
    let behind := start + 1 + first.code.length
    let second := jumpOver .jump rest ctx behind first.state
    ⟨.ofNat .jumpUnless (behind + 1) :: (first.code ++ second.code), second.state,
      second.result⟩

end Gen

open Gen

/-! ## Expressions -/

/-- The instruction of an operator. -/
def BinaryOp.opcode : BinaryOp → Opcode
  | .add => .add
  | .subtract => .sub
  | .multiply => .mul
  | .divide => .div
  | .equals | .notEquals => .eq
  | .greaterThan => .gt
  | .lessThan => .lt
  | .greaterOrEqual => .gte
  | .lessOrEqual => .lte
  | .and => .and
  | .or => .or

/-- Code for a constant. -/
def genLiteral : Literal → Gen Unit
  | .int n => emit (.ofInt .pushInt n.toInt)
  | .float x => emit (.ofFloat .pushFloat x)
  | .bool b => emit (.ofNat .pushBool b.toNat)
  | .text s => do emit (.ofNat .pushString (← string s))

/-- Code that calls a function whose arguments lie on the stack. A name is first a
    function of the script, and then a variable that holds one. -/
def genCallee (kind : CallKind) (name : String) (argCount : Nat) : Gen Unit := do
  match kind with
  | .internal =>
    match ← function? name with
    | some id => emit (.ofNat .pushFunction id)
    | none => emit (.ofNat .getLocal (← resolve name))
    emit (.ofNat .call argCount)
  | .external =>
    emit (.ofNat .pushString (← string name))
    emit (.ofNat .external argCount)

mutual

/-- Code that pushes the value of an expression. -/
def genExpr : Expr → Gen Unit
  | .literal l => genLiteral l
  | .ident name => do emit (.ofNat .getLocal (← resolve name))
  | .functionRef name => do
    match ← function? name with
    | some id => emit (.ofNat .pushFunction id)
    | none => fail (.unresolvedFunction name)
  | .call kind name args => do
    genExprs args
    genCallee kind name args.length
  | .binary op left right => do
    genExpr left
    genExpr right
    emit (.bare op.opcode)
    if op = .notEquals then emit (.bare .not)
  | .not operand => do
    genExpr operand
    emit (.bare .not)
  | .negate operand => do
    genExpr operand
    emit (.ofInt .pushInt (-1))
    emit (.bare .mul)
  | .access _ field => fail (.fieldAccess field)

/-- Code that pushes the values of expressions, from left to right. -/
def genExprs : List Expr → Gen Unit
  | [] => pure ()
  | e :: es => do
    genExpr e
    genExprs es

end

/-! ## Statements -/

/-- Why an expression can never be a truth value. -/
def conditionProblem : Expr → Option ConditionProblem
  | .literal (.int _) | .literal (.float _) => some .number
  | .literal (.text _) => some .text
  | .functionRef _ => some .functionRef
  | .binary op _ _ => if op.isArithmetic then some .arithmetic else none
  | .negate _ => some .negation
  | _ => none

/-- Code that pushes the value of a condition. -/
def genCondition (e : Expr) : Gen Unit :=
  match conditionProblem e with
  | some problem => fail (.malformedConditional problem)
  | none => genExpr e

/-- Code that pushes the condition of a branch. -/
def genGuard : Guard → Gen Unit
  | .when e => genCondition e
  | .otherwise => fail .otherwiseEvaluated

/-- What is wrong with the branches of a conditional as a whole. -/
def branchesProblem (branches : List Branch) : Option ConditionProblem :=
  match branches.getLast? with
  | none => some .noBranches
  | some last => if last.guard.isOtherwise then none else some .noOtherwise

mutual

/-- Code for a statement. A variable that is assigned to exists before the value
    is computed. -/
def genStmt : Stmt → Gen Unit
  | .assign name value => do
    let slot ← declare name
    genExpr value
    emit (.ofNat .setLocal slot)
  | .loop condition body => do
    let start ← here
    genCondition condition
    jumpOver .jumpUnless do
      inBlock (genStmts body)
      emit (.ofNat .jump start)
  | .choose branches =>
    match branchesProblem branches with
    | some problem => fail (.malformedConditional problem)
    | none => genBranches branches
  | .call kind name args => do
    genExprs args
    genCallee kind name args.length
  | .give value => do
    match value with
    | some e => genExpr e
    | none => emit (.bare .pushUnit)
    emit (.bare .ret)

/-- Code for statements, one after the other. -/
def genStmts : List Stmt → Gen Unit
  | [] => pure ()
  | s :: ss => do
    genStmt s
    genStmts ss

/-- Code for the branches of a conditional; the last one needs no condition. -/
def genBranches : List Branch → Gen Unit
  | [] => pure ()
  | [.mk _ body] => inBlock (genStmts body)
  | .mk guard body :: rest => do
    genGuard guard
    Gen.branch (inBlock (genStmts body)) (genBranches rest)

end

end ScriptMachine
