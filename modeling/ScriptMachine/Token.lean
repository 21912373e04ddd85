import ScriptMachine.Text.Shown

/-!
# Tokens

A script is read as a sequence of tokens, each with the span of bytes it takes
in the source. Keywords and symbols are fixed words of the language
(`Keyword.spelling`, `Symbol.spelling`); names, texts and the two kinds of
numbers carry what was written. Messages about tokens use their descriptions
(`Token.describe`), not their spelling.
-/

namespace ScriptMachine

/-- A range of bytes of the source: from `start` up to, but without, `stop`. -/
structure Span where
  start : Nat
  stop : Nat
deriving DecidableEq, Inhabited

namespace Span

/-- The least span that covers two spans. -/
def merge (a b : Span) : Span := ⟨min a.start b.start, max a.stop b.stop⟩

end Span

/-- The words that cannot be names. -/
inductive Keyword where
  | function | give | ifThen | elseIf | otherwise | loop | yes | no
deriving DecidableEq, Inhabited

namespace Keyword

/-- All keywords. -/
def all : List Keyword := [function, give, ifThen, elseIf, otherwise, loop, yes, no]

/-- The keyword as it is written in a script. -/
def spelling : Keyword → String
  | function => "fn"
  | give => "return"
  | ifThen => "if"
  | elseIf => "elsif"
  | otherwise => "else"
  | loop => "while"
  | yes => "true"
  | no => "false"

/-- The keyword in a message. -/
def describe : Keyword → String
  | function => "Fn"
  | give => "Return"
  | ifThen => "If"
  | elseIf => "Elsif"
  | otherwise => "Else"
  | loop => "While"
  | yes => "True"
  | no => "False"

end Keyword

/-- Punctuation and operators. -/
inductive Symbol where
  | leftParen | rightParen | leftBrace | rightBrace | comma | semicolon | dot | atSign | dollar
  | assign | equal | notEqual | less | greater | lessEqual | greaterEqual | and | or | bang
  | plus | minus | star | slash
deriving DecidableEq, Inhabited

namespace Symbol

/-- All symbols, those of two characters first. -/
def all : List Symbol :=
  [equal, notEqual, lessEqual, greaterEqual, and, or, leftParen, rightParen, leftBrace,
   rightBrace, comma, semicolon, dot, atSign, dollar, assign, less, greater, bang, plus, minus,
   star, slash]

/-- The symbol as it is written in a script. -/
def spelling : Symbol → String
  | leftParen => "("
  | rightParen => ")"
  | leftBrace => "\x7b"
  | rightBrace => "\x7d"
  | comma => ","
  | semicolon => ";"
  | dot => "."
  | atSign => "@"
  | dollar => "$"
  | assign => "="
  | equal => "=="
  | notEqual => "!="
  | less => "<"
  | greater => ">"
  | lessEqual => "<="
  | greaterEqual => ">="
  | and => "&&"
  | or => "||"
  | bang => "!"
  | plus => "+"
  | minus => "-"
  | star => "*"
  | slash => "/"

/-- The symbol in a message. -/
def describe : Symbol → String
  | leftParen => "LParen"
  | rightParen => "RParen"
  | leftBrace => "LBrace"
  | rightBrace => "RBrace"
  | comma => "Comma"
  | semicolon => "Semi"
  | dot => "Dot"
  | atSign => "At"
  | dollar => "Dollar"
  | assign => "Assign"
  | equal => "Eq"
  | notEqual => "NotEq"
  | less => "Less"
  | greater => "Greater"
  | lessEqual => "LessEq"
  | greaterEqual => "GreaterEq"
  | and => "AndAnd"
  | or => "OrOr"
  | bang => "Bang"
  | plus => "Plus"
  | minus => "Minus"
  | star => "Star"
  | slash => "Slash"

end Symbol

/-- A token of a script. -/
inductive Token where
  | keyword (k : Keyword)
  | symbol (s : Symbol)
  /-- A number with a fraction. -/
  | float (x : Binary32)
  /-- A number without a fraction; it has no sign of its own. -/
  | int (n : Nat)
  /-- The characters between two double quotes. -/
  | text (s : String)
  | ident (name : String)
deriving DecidableEq, Inhabited

namespace Token

/-- The token in a message. -/
def describe : Token → String
  | keyword k => k.describe
  | symbol s => s.describe
  | float x => "Float(" ++ Text.shown x ++ ")"
  | int n => "Int(" ++ toString n ++ ")"
  | text s => "Text(" ++ Text.quoted s ++ ")"
  | ident name => "Ident(" ++ Text.quoted name ++ ")"

end Token

end ScriptMachine
