import ScriptMachine.Script.Cursor
import ScriptMachine.Token.Scan

/-!
# Reading scripts

The grammar of a script, from the whole to its atoms:

* a *script* is a sequence of functions; a function is
  `fn name(param, …) { statement* }`, all its parameters different;
* a *statement* is a conditional `if e {…} elsif e {…} … else {…}`, a loop
  `while e {…}`, `return;` or `return e;`, an assignment `name = e;`, or a call
  `name(e, …);` or `$name(e, …);`. A conditional without `else` gets an empty
  branch for it;
* an *expression* combines operands by operators that all associate to the left,
  on six levels (`levelOperator`), the loosest first;
* an *operand* is `!operand`, `-operand`, or an atom followed by any number of
  `.field`. A minus directly before a number makes it a negative constant, to
  which no field belongs;
* an *atom* is a constant, `@name`, a call, a name, or an expression in
  parentheses. The integer `2 ^ 31` is a constant only behind a minus.

Each of these is read by one function, which looks at no more than two tokens
before it decides how to go on. When a function cannot be read, its error is
recorded and reading resumes at the next `fn` (`Script.ofTokens`).
-/

namespace ScriptMachine

open Cursor

/-! ## Expressions -/

/-- The operators of each level, from the loosest, `0`, to the tightest, `5`. -/
def levelOperator : Nat → Symbol → Option BinaryOp
  | 0, .or => some .or
  | 1, .and => some .and
  | 2, .equal => some .equals
  | 2, .notEqual => some .notEquals
  | 3, .less => some .lessThan
  | 3, .greater => some .greaterThan
  | 3, .lessEqual => some .lessOrEqual
  | 3, .greaterEqual => some .greaterOrEqual
  | 4, .plus => some .add
  | 4, .minus => some .subtract
  | 5, .star => some .multiply
  | 5, .slash => some .divide
  | _, _ => none

/-- The operator of a level at the cursor. -/
def operatorAt (level : Nat) (c : Cursor) : Option BinaryOp :=
  match c.peek with
  | some (.symbol s) => levelOperator level s
  | _ => none

theorem remaining_advance_lt_of_operatorAt {level : Nat} {c : Cursor} {op : BinaryOp}
    (h : operatorAt level c = some op) : c.advance.remaining < c.remaining := by
  cases hp : c.peek with
  | none => simp [operatorAt, hp] at h
  | some t => exact remaining_advance_lt hp

/-- The fields behind an atom. -/
def readFields (object : Expr) (c : Cursor) : Except Failure (Read Expr (c.remaining + 1)) :=
  match h : c.peek with
  | some (.symbol .dot) => do
    have := remaining_advance_lt h
    let field ← c.advance.expectName
    have := field.progress
    let all ← readFields (.access object field.value) field.cursor
    return ⟨all.value, all.cursor, by have := all.progress; omega⟩
  | _ => return ⟨object, c, by omega⟩
termination_by c.remaining

mutual

/-- Reads an expression of the given level or a tighter one; what is tighter than
    all levels of operators is an operand. -/
def readLevel (level : Nat) (c : Cursor) : Reading Expr c :=
  if level < 6 then do
    let first ← readLevel (level + 1) c
    have := first.progress
    let all ← readChain level first.value first.cursor
    return ⟨all.value, all.cursor, by have := all.progress; omega⟩
  else
    readOperand c
termination_by 20 * c.remaining + 4 + (6 - level)

/-- Reads the operators of a level, each with its right operand, behind the left
    operand `left`. -/
def readChain (level : Nat) (left : Expr) (c : Cursor) :
    Except Failure (Read Expr (c.remaining + 1)) :=
  match h : operatorAt level c with
  | some op => do
    have := remaining_advance_lt_of_operatorAt h
    let right ← readLevel (level + 1) c.advance
    have := right.progress
    let all ← readChain level (.binary op left right.value) right.cursor
    return ⟨all.value, all.cursor, by have := all.progress; omega⟩
  | none => return ⟨left, c, by omega⟩
termination_by 20 * c.remaining + 3

/-- Reads an operand. -/
def readOperand (c : Cursor) : Reading Expr c :=
  match h : c.peek with
  | some (.symbol .bang) => do
    have := remaining_advance_lt h
    let operand ← readOperand c.advance
    return ⟨.not operand.value, operand.cursor, by have := operand.progress; omega⟩
  | some (.symbol .minus) =>
    have := remaining_advance_lt h
    match h' : c.advance.peek with
    | some (.int n) =>
      .ok ⟨.literal (.int (-Int32.ofNat n)), c.advance.advance,
        by have := remaining_advance_lt h'; omega⟩
    | some (.float x) =>
      .ok ⟨.literal (.float x.neg), c.advance.advance,
        by have := remaining_advance_lt h'; omega⟩
    | _ => do
      let operand ← readOperand c.advance
      return ⟨.negate operand.value, operand.cursor, by have := operand.progress; omega⟩
  | _ => do
    let atom ← readAtom c
    have := atom.progress
    let all ← readFields atom.value atom.cursor
    return ⟨all.value, all.cursor, by have := all.progress; omega⟩
termination_by 20 * c.remaining + 2

/-- Reads an atom. -/
def readAtom (c : Cursor) : Reading Expr c :=
  match h : c.peek with
  | some (.int n) =>
    if n < maxInteger then
      .ok ⟨.literal (.int (Int32.ofNat n)), c.advance, remaining_advance_lt h⟩
    else
      c.fail (.integerTooLarge n)
  | some (.float x) => .ok ⟨.literal (.float x), c.advance, remaining_advance_lt h⟩
  | some (.text s) => .ok ⟨.literal (.text s), c.advance, remaining_advance_lt h⟩
  | some (.keyword .yes) => .ok ⟨.literal (.bool true), c.advance, remaining_advance_lt h⟩
  | some (.keyword .no) => .ok ⟨.literal (.bool false), c.advance, remaining_advance_lt h⟩
  | some (.symbol .atSign) => do
    have := remaining_advance_lt h
    let name ← c.advance.expectName
    return ⟨.functionRef name.value, name.cursor, by have := name.progress; omega⟩
  | some (.symbol .leftParen) => do
    have := remaining_advance_lt h
    let inner ← readLevel 0 c.advance
    have := inner.progress
    let closing ← inner.cursor.expectSymbol .rightParen
    return ⟨inner.value, closing.cursor, by have := closing.progress; omega⟩
  | some (.symbol .dollar) => do
    have := remaining_advance_lt h
    let name ← c.advance.expectName
    have := name.progress
    let args ← readArgs name.cursor
    return ⟨.call .external name.value args.value, args.cursor,
      by have := args.progress; omega⟩
  | some (.ident name) =>
    have := remaining_advance_lt h
    if c.peekSecond = some (.symbol .leftParen) then do
      let args ← readArgs c.advance
      return ⟨.call .internal name args.value, args.cursor, by have := args.progress; omega⟩
    else
      .ok ⟨.ident name, c.advance, this⟩
  | got => c.fail (.notExpression got)
termination_by 20 * c.remaining + 1

/-- Reads arguments in parentheses. -/
def readArgs (c : Cursor) : Reading (List Expr) c := do
  let opening ← c.expectSymbol .leftParen
  have := opening.progress
  match h : opening.cursor.peek with
  | some (.symbol .rightParen) =>
    .ok ⟨[], opening.cursor.advance, by have := remaining_advance_lt h; omega⟩
  | _ =>
    let args ← readMoreArgs opening.cursor
    return ⟨args.value, args.cursor, by have := args.progress; omega⟩
termination_by 20 * c.remaining

/-- Reads at least one argument, and the closing parenthesis. -/
def readMoreArgs (c : Cursor) : Reading (List Expr) c := do
  let first ← readLevel 0 c
  have := first.progress
  match h : first.cursor.peek with
  | some (.symbol .rightParen) =>
    .ok ⟨[first.value], first.cursor.advance, by have := remaining_advance_lt h; omega⟩
  | _ =>
    let comma ← first.cursor.expectSymbol .comma
    have := comma.progress
    let others ← readMoreArgs comma.cursor
    return ⟨first.value :: others.value, others.cursor, by have := others.progress; omega⟩
termination_by 20 * c.remaining + 15

end

/-- Reads an expression. -/
def readExpr (c : Cursor) : Reading Expr c := readLevel 0 c

/-! ## Statements -/

mutual

/-- Reads a statement. -/
def readStmt (c : Cursor) : Reading Stmt c :=
  match h : c.peek with
  | some (.keyword .ifThen) => do
    have := remaining_advance_lt h
    let first ← readBranch c.advance
    have := first.progress
    let others ← readBranches first.cursor
    return ⟨.choose (first.value :: others.value), others.cursor,
      by have := others.progress; omega⟩
  | some (.keyword .loop) => do
    have := remaining_advance_lt h
    let condition ← readExpr c.advance
    have := condition.progress
    let body ← readBlock condition.cursor
    return ⟨.loop condition.value body.value, body.cursor, by have := body.progress; omega⟩
  | some (.keyword .give) =>
    have := remaining_advance_lt h
    match h' : c.advance.peek with
    | some (.symbol .semicolon) =>
      .ok ⟨.give none, c.advance.advance, by have := remaining_advance_lt h'; omega⟩
    | _ => do
      let value ← readExpr c.advance
      have := value.progress
      let closing ← value.cursor.expectSymbol .semicolon
      return ⟨.give (some value.value), closing.cursor, by have := closing.progress; omega⟩
  | some (.ident name) =>
    have := remaining_advance_lt h
    match h' : c.advance.peek with
    | some (.symbol .assign) => do
      have := remaining_advance_lt h'
      let value ← readExpr c.advance.advance
      have := value.progress
      let closing ← value.cursor.expectSymbol .semicolon
      return ⟨.assign name value.value, closing.cursor, by have := closing.progress; omega⟩
    | _ => do
      let args ← readArgs c.advance
      have := args.progress
      let closing ← args.cursor.expectSymbol .semicolon
      return ⟨.call .internal name args.value, closing.cursor,
        by have := closing.progress; omega⟩
  | some (.symbol .dollar) => do
    have := remaining_advance_lt h
    let name ← c.advance.expectName
    have := name.progress
    let args ← readArgs name.cursor
    have := args.progress
    let closing ← args.cursor.expectSymbol .semicolon
    return ⟨.call .external name.value args.value, closing.cursor,
      by have := closing.progress; omega⟩
  | got => c.fail (.notStatement got)
termination_by 4 * c.remaining

/-- Reads a condition and the block that it guards. -/
def readBranch (c : Cursor) : Reading Branch c := do
  let condition ← readExpr c
  have := condition.progress
  let body ← readBlock condition.cursor
  return ⟨.mk (.when condition.value) body.value, body.cursor,
    by have := body.progress; omega⟩
termination_by 4 * c.remaining + 2

/-- Reads the further branches of a conditional, and supplies a last one if there
    is none. -/
def readBranches (c : Cursor) : Except Failure (Read (List Branch) (c.remaining + 1)) :=
  match h : c.peek with
  | some (.keyword .elseIf) => do
    have ahead := remaining_advance_lt h
    let first ← readBranch c.advance
    have shorter := Nat.lt_trans first.progress ahead
    let others ← readBranches first.cursor
    return ⟨first.value :: others.value, others.cursor,
      Nat.lt_succ_of_lt (Nat.lt_of_lt_of_le others.progress shorter)⟩
  | some (.keyword .otherwise) => do
    have ahead := remaining_advance_lt h
    let body ← readBlock c.advance
    return ⟨[.mk .otherwise body.value], body.cursor,
      Nat.lt_succ_of_lt (Nat.lt_trans body.progress ahead)⟩
  | _ => return ⟨[.mk .otherwise []], c, Nat.lt_succ_self _⟩
termination_by 4 * c.remaining + 3

/-- Reads statements in braces. -/
def readBlock (c : Cursor) : Reading (List Stmt) c := do
  let opening ← c.expectSymbol .leftBrace
  have := opening.progress
  let body ← readStmts opening.cursor
  return ⟨body.value, body.cursor, by have := body.progress; omega⟩
termination_by 4 * c.remaining + 1

/-- Reads statements up to the closing brace, and takes the brace. -/
def readStmts (c : Cursor) : Reading (List Stmt) c :=
  match h : c.peek with
  | some (.symbol .rightBrace) => .ok ⟨[], c.advance, remaining_advance_lt h⟩
  | none => c.fail .unclosedBlock
  | some _ => do
    let first ← readStmt c
    have := first.progress
    let others ← readStmts first.cursor
    return ⟨first.value :: others.value, others.cursor, by have := others.progress; omega⟩
termination_by 4 * c.remaining + 1

end

/-! ## Functions -/

/-- Reads at least one more parameter of `function` behind `before`, and the
    closing parenthesis. -/
def readMoreParams (function : String) (before : List String) (c : Cursor) :
    Reading (List String) c := do
  let param ← c.expectName
  have := param.progress
  if param.value ∈ before then
    .error ⟨⟨.duplicateParam param.value function, c.position, c.span⟩, param.cursor⟩
  else
    let params := before ++ [param.value]
    match h : param.cursor.peek with
    | some (.symbol .rightParen) =>
      .ok ⟨params, param.cursor.advance, by have := remaining_advance_lt h; omega⟩
    | _ =>
      let comma ← param.cursor.expectSymbol .comma
      have := comma.progress
      let all ← readMoreParams function params comma.cursor
      return ⟨all.value, all.cursor, by have := all.progress; omega⟩
termination_by c.remaining

/-- Reads the parameters of `function` behind the opening parenthesis. -/
def readParams (function : String) (c : Cursor) : Reading (List String) c :=
  match h : c.peek with
  | some (.symbol .rightParen) => .ok ⟨[], c.advance, remaining_advance_lt h⟩
  | _ => readMoreParams function [] c

/-- Reads a function. -/
def readFunction (c : Cursor) : Reading Function c :=
  match h : c.peek with
  | some (.keyword .function) => do
    have := remaining_advance_lt h
    let name ← c.advance.expectName
    have := name.progress
    let opening ← name.cursor.expectSymbol .leftParen
    have := opening.progress
    let params ← readParams name.value opening.cursor
    have := params.progress
    let body ← readBlock params.cursor
    have := body.progress
    return ⟨⟨name.value, params.value, body.value, c.span.merge body.cursor.previous⟩,
      body.cursor, by omega⟩
  | got => c.fail (.notFunction got)

/-! ## Scripts -/

/-- What reading tokens gives: the functions that could be read, and the errors
    of the others. -/
structure Parsed where
  script : Script
  errors : List ParseError
deriving Inhabited

/-- Skips tokens up to the next `fn`. -/
def skipToFunction (c : Cursor) : Cursor :=
  match h : c.peek with
  | some (.keyword .function) => c
  | some _ =>
    have := remaining_advance_lt h
    skipToFunction c.advance
  | none => c
termination_by c.remaining

theorem remaining_skipToFunction_le (c : Cursor) :
    (skipToFunction c).remaining ≤ c.remaining := by
  fun_induction skipToFunction c with
  | case1 => exact Nat.le_refl _
  | case2 c t _ h hlt ih => omega
  | case3 => exact Nat.le_refl _

/-- Where reading resumes after a failure at `stopped` of a function that started
    at `start`: at the next `fn` behind the first token of that function. -/
def resume (start stopped : Cursor) : Cursor :=
  skipToFunction (if stopped.position = start.position then start.advance else stopped)

/-- No more errors than this are reported. -/
def maxErrors : Nat := 20

/-- Reads functions until the tokens or the allowed errors are used up. A failure
    resumes at a cursor with fewer tokens left. -/
def readFunctions (allowed : Nat) (c : Cursor) : Parsed :=
  match c.peek, allowed with
  | none, _ | _, 0 => ⟨⟨[]⟩, []⟩
  | some _, allowed + 1 =>
    match readFunction c with
    | .ok f =>
      have := f.progress
      let rest := readFunctions (allowed + 1) f.cursor
      ⟨⟨f.value :: rest.script.functions⟩, rest.errors⟩
    | .error failure =>
      let rest := readFunctions allowed (resume c failure.cursor)
      ⟨rest.script, failure.error :: rest.errors⟩
termination_by (allowed, c.remaining)

namespace Script

/-- Reads a script from its tokens. -/
def ofTokens (tokens : List (Token × Span)) : Parsed := readFunctions maxErrors (start tokens)

end Script

end ScriptMachine
