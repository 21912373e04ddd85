import ScriptMachine.Script

/-!
# Reading tokens

A script is read from its tokens from left to right. A *cursor* holds the tokens
that are left, with what messages need of those already taken. Reading something
either fails, with the error and the cursor at which reading stopped
(`Failure`), or gives what was read and a cursor with strictly fewer tokens left
(`Read`); that every success takes a token is part of the result, so that
whatever reads repeatedly comes to an end.
-/

namespace ScriptMachine

/-- Why tokens are not a script. Where a token is missing, `none` stands for the
    end of the tokens. -/
inductive ParseProblem where
  | notFunction (got : Option Token)
  | notToken (expected : Token) (got : Option Token)
  | notName (got : Option Token)
  | duplicateParam (param function : String)
  | unclosedBlock
  | notStatement (got : Option Token)
  | notExpression (got : Option Token)
  | integerTooLarge (n : Nat)
deriving DecidableEq, Inhabited

namespace ParseProblem

/-- What was found instead of what was expected. -/
def found : Option Token → String
  | some t => t.describe
  | none => "EOF"

/-- The code by which tools know the problem. -/
def code : ParseProblem → String
  | notFunction (some _) => "TRN-P001"
  | notFunction none => "TRN-P002"
  | notToken _ (some _) => "TRN-P003"
  | notToken _ none => "TRN-P004"
  | notName (some _) => "TRN-P005"
  | notName none => "TRN-P006"
  | duplicateParam _ _ => "TRN-P007"
  | unclosedBlock => "TRN-P008"
  | notStatement (some _) => "TRN-P009"
  | notStatement none => "TRN-P010"
  | notExpression (some _) => "TRN-P011"
  | notExpression none => "TRN-P012"
  | integerTooLarge _ => "TRN-P013"

/-- A hint for a branch that has lost its conditional. -/
def hint : Option Token → String
  | some (.keyword .elseIf) | some (.keyword .otherwise) =>
    "\n  hint: `elsif`/`else` must follow the closing brace of an `if` block"
  | _ => ""

/-- The problem in words. -/
def message : ParseProblem → String
  | notFunction got => "expected `fn`, got " ++ found got
  | notToken expected got => "expected " ++ expected.describe ++ ", got " ++ found got
  | notName got => "expected identifier, got " ++ found got
  | duplicateParam param function =>
    "duplicate parameter `" ++ param ++ "` in `" ++ function ++ "`"
  | unclosedBlock => "unclosed block, got EOF"
  | notStatement got => "expected statement, got " ++ found got ++ hint got
  | notExpression got => "expected expression, got " ++ found got
  | integerTooLarge n =>
    "integer literal " ++ toString n ++ " does not fit in 32 bits unless negated"

end ParseProblem

/-- A problem and its place. -/
structure ParseError where
  problem : ParseProblem
  /-- The number of tokens before the problem. -/
  position : Nat
  /-- The place of the problem in the source. -/
  span : Span
deriving DecidableEq, Inhabited

namespace ParseError

/-- The message of the error. -/
def message (e : ParseError) : String :=
  "Parse error at token " ++ toString e.position ++ ": " ++ e.problem.message

end ParseError

/-- A place between two tokens. -/
structure Cursor where
  /-- The number of tokens taken. -/
  position : Nat
  /-- The span of the last token taken; empty at the start. -/
  previous : Span
  /-- The tokens that are left. -/
  rest : List (Token × Span)
deriving DecidableEq, Inhabited

namespace Cursor

/-- The cursor before the first of `tokens`. -/
def start (tokens : List (Token × Span)) : Cursor := ⟨0, ⟨0, 0⟩, tokens⟩

/-- The number of tokens that are left. -/
def remaining (c : Cursor) : Nat := c.rest.length

/-- The next token. -/
def peek (c : Cursor) : Option Token := c.rest.head?.map Prod.fst

/-- The token after the next one. -/
def peekSecond (c : Cursor) : Option Token := c.rest.tail.head?.map Prod.fst

/-- The span of the next token; the end of the last one if none is left. -/
def span (c : Cursor) : Span :=
  match c.rest with
  | (_, s) :: _ => s
  | [] => ⟨c.previous.stop, c.previous.stop⟩

/-- The cursor behind the next token. -/
def advance (c : Cursor) : Cursor :=
  match c.rest with
  | (_, s) :: rest => ⟨c.position + 1, s, rest⟩
  | [] => c

theorem remaining_advance_lt {c : Cursor} {t : Token} (h : c.peek = some t) :
    c.advance.remaining < c.remaining := by
  cases hr : c.rest with
  | nil => simp [peek, hr] at h
  | cons x xs => simp [remaining, advance, hr]

/-- The error that `problem` stands at the cursor. -/
def error (c : Cursor) (problem : ParseProblem) : ParseError := ⟨problem, c.position, c.span⟩

end Cursor

/-- Why and where reading stopped. -/
structure Failure where
  error : ParseError
  cursor : Cursor
deriving DecidableEq, Inhabited

/-- What was read, and a cursor with less than `limit` tokens left. -/
structure Read (α : Type) (limit : Nat) where
  value : α
  cursor : Cursor
  progress : cursor.remaining < limit

/-- The outcome of reading something at a cursor. -/
abbrev Reading (α : Type) (c : Cursor) := Except Failure (Read α c.remaining)

namespace Cursor

/-- Reading stops at the cursor. -/
def fail {α : Type} (c : Cursor) (problem : ParseProblem) : Except Failure α :=
  .error ⟨c.error problem, c⟩

/-- Takes the given token. -/
def expect (expected : Token) (c : Cursor) : Reading Unit c :=
  match h : c.peek with
  | some t =>
    if t = expected then .ok ⟨(), c.advance, remaining_advance_lt h⟩
    else c.fail (.notToken expected (some t))
  | none => c.fail (.notToken expected none)

/-- Takes the given symbol. -/
def expectSymbol (s : Symbol) (c : Cursor) : Reading Unit c := c.expect (.symbol s)

/-- Takes a name. -/
def expectName (c : Cursor) : Reading String c :=
  match h : c.peek with
  | some (.ident name) => .ok ⟨name, c.advance, remaining_advance_lt h⟩
  | got => c.fail (.notName got)

end Cursor

end ScriptMachine
