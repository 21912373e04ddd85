import ScriptMachine.Proofs.Spelling
import ScriptMachine.Script

/-!
# Scripts as they are written

A script is written as a sequence of tokens, and these as a text (`Script.tokens`,
`Script.render`). Within an expression, everything that is made by an operator and every
negative constant stands in parentheses (`Expr.needsParens`), so no operator can get hold of
more or less than its operands; parentheses that are not needed may be added at will (`extra`).
A minus directly before a number would be part of the number: what is negated stands in
parentheses whatever it is.

Not every script can be written. Names have to be names, parameters have to differ, a text
cannot hold the double quote that ends it, and a conditional has conditions for all its
branches but the last (`Script.isWritable`). Numbers with a fraction are left out.

* `Script.tokens_spellable`: the tokens of such a script have spellings.
-/

namespace ScriptMachine

/-- The symbol of an operator. -/
def BinaryOp.symbol : BinaryOp → Symbol
  | add => .plus
  | subtract => .minus
  | multiply => .star
  | divide => .slash
  | equals => .equal
  | notEquals => .notEqual
  | greaterThan => .greater
  | lessThan => .less
  | greaterOrEqual => .greaterEqual
  | lessOrEqual => .lessEqual
  | and => .and
  | or => .or

/-- What stands before the name in a call. -/
def CallKind.marks : CallKind → List Token
  | internal => []
  | external => [.symbol .dollar]

/-- Tokens in parentheses. -/
def inParens (ts : List Token) : List Token :=
  .symbol .leftParen :: (ts ++ [.symbol .rightParen])

/-- Tokens in braces. -/
def inBraces (ts : List Token) : List Token :=
  .symbol .leftBrace :: (ts ++ [.symbol .rightBrace])

/-! ## Expressions -/

namespace Literal

/-- The tokens of a constant. -/
def tokens : Literal → List Token
  | int n => if n < 0 then [.symbol .minus, .int n.toInt.natAbs] else [.int n.toInt.natAbs]
  | float x => [.float x]
  | bool b => [.keyword (if b then .yes else .no)]
  | text s => [.text s]

/-- Can the constant be written? -/
def isWritable : Literal → Bool
  | float _ => false
  | text s => s.toList.all (· != '"')
  | _ => true

end Literal

namespace Expr

/-- Is the expression made by an operator, or a negative constant? -/
def needsParens : Expr → Bool
  | literal (.int n) => n < 0
  | binary _ _ _ | not _ | negate _ | access _ _ => true
  | _ => false

/-- The tokens `ts` of an expression that is a part of another one. -/
def asPart (extra : Expr → Bool) (e : Expr) (ts : List Token) : List Token :=
  if e.needsParens || extra e then inParens ts else ts

mutual

/-- The tokens of an expression, with parentheses around the parts that need them and around
    those that `extra` holds of. -/
def tokens (extra : Expr → Bool) : Expr → List Token
  | literal l => l.tokens
  | ident name => [.ident name]
  | functionRef name => [.symbol .atSign, .ident name]
  | call kind name args => kind.marks ++ .ident name :: inParens (argTokens extra args)
  | binary op left right =>
    left.asPart extra (left.tokens extra) ++
      .symbol op.symbol :: right.asPart extra (right.tokens extra)
  | not operand => .symbol .bang :: operand.asPart extra (operand.tokens extra)
  | negate operand => .symbol .minus :: inParens (operand.tokens extra)
  | access object field => object.asPart extra (object.tokens extra) ++ [.symbol .dot, .ident field]

/-- The tokens of arguments. -/
def argTokens (extra : Expr → Bool) : List Expr → List Token
  | [] => []
  | [e] => e.asPart extra (e.tokens extra)
  | e :: es => e.asPart extra (e.tokens extra) ++ .symbol .comma :: argTokens extra es

end

example : String.ofList (spell (tokens (fun _ => false) (.binary .subtract (.literal (.int (-1)))
    (.negate (.literal (.int 1)))))) = "(-1)-(-(1))" := by decide

mutual

/-- Can the expression be written? -/
def isWritable : Expr → Bool
  | literal l => l.isWritable
  | ident name | functionRef name => isName name
  | call _ name args => isName name && allWritable args
  | binary _ left right => left.isWritable && right.isWritable
  | not operand | negate operand => operand.isWritable
  | access object field => object.isWritable && isName field

/-- Can the expressions be written? -/
def allWritable : List Expr → Bool
  | [] => true
  | e :: es => e.isWritable && allWritable es

end

end Expr

/-! ## Statements -/

namespace Stmt

mutual

/-- The tokens of a statement. -/
def tokens (extra : Expr → Bool) : Stmt → List Token
  | assign name value =>
    .ident name :: .symbol .assign :: (value.tokens extra ++ [.symbol .semicolon])
  | loop condition body =>
    .keyword .loop :: (condition.tokens extra ++ inBraces (allTokens extra body))
  | choose branches => branchTokens extra .ifThen branches
  | call kind name args =>
    kind.marks ++ .ident name :: (inParens (Expr.argTokens extra args) ++ [.symbol .semicolon])
  | give none => [.keyword .give, .symbol .semicolon]
  | give (some value) => .keyword .give :: (value.tokens extra ++ [.symbol .semicolon])

/-- The tokens of statements. -/
def allTokens (extra : Expr → Bool) : List Stmt → List Token
  | [] => []
  | s :: ss => s.tokens extra ++ allTokens extra ss

/-- The tokens of branches; a condition stands behind `word` in the first one. -/
def branchTokens (extra : Expr → Bool) (word : Keyword) : List Branch → List Token
  | [] => []
  | .mk (.when condition) body :: rest =>
    .keyword word :: (condition.tokens extra ++ inBraces (allTokens extra body) ++
      branchTokens extra .elseIf rest)
  | .mk .otherwise body :: rest =>
    .keyword .otherwise :: (inBraces (allTokens extra body) ++ branchTokens extra .elseIf rest)

end

mutual

/-- Can the statement be written? -/
def isWritable : Stmt → Bool
  | assign name value => isName name && value.isWritable
  | loop condition body => condition.isWritable && allWritable body
  | choose branches => branchesWritable true branches
  | call _ name args => isName name && Expr.allWritable args
  | give none => true
  | give (some value) => value.isWritable

/-- Can the statements be written? -/
def allWritable : List Stmt → Bool
  | [] => true
  | s :: ss => s.isWritable && allWritable ss

/-- Can these branches, with which a conditional starts or goes on, be written? All but the
    last have a condition, and there is one that has. -/
def branchesWritable (first : Bool) : List Branch → Bool
  | [] => false
  | .mk (.when condition) body :: rest =>
    condition.isWritable && allWritable body && branchesWritable false rest
  | .mk .otherwise body :: rest => !first && allWritable body && rest.isEmpty

end

end Stmt

/-! ## Scripts -/

namespace Function

/-- The tokens of parameters. -/
def paramTokens : List String → List Token
  | [] => []
  | [name] => [.ident name]
  | name :: names => .ident name :: .symbol .comma :: paramTokens names

/-- The tokens of a function. -/
def tokens (extra : Expr → Bool) (f : Function) : List Token :=
  .keyword .function :: .ident f.name ::
    (inParens (paramTokens f.params) ++ inBraces (Stmt.allTokens extra f.body))

/-- Can the function be written? -/
def isWritable (f : Function) : Bool :=
  isName f.name && f.params.all isName && decide f.params.Nodup && Stmt.allWritable f.body

/-- The function, without its place in a source. -/
def unplaced (f : Function) : Function := { f with span := ⟨0, 0⟩ }

end Function

namespace Script

/-- The tokens of a script. -/
def tokens (extra : Expr → Bool) (s : Script) : List Token :=
  s.functions.flatMap (Function.tokens extra)

/-- The text of a script. -/
def render (extra : Expr → Bool) (s : Script) : String := String.ofList (spell (s.tokens extra))

/-- Can the script be written? -/
def isWritable (s : Script) : Bool := s.functions.all Function.isWritable

/-- The script, without the places of its functions. -/
def unplaced (s : Script) : Script := ⟨s.functions.map Function.unplaced⟩

end Script

/-! ## Spellings of the tokens -/

/-- All the tokens have spellings. -/
def Spellable (ts : List Token) : Prop := ∀ t ∈ ts, t.isSpellable = true

section Spellable

variable {t : Token} {ts ts' : List Token}

@[simp] theorem spellable_nil : Spellable [] := fun _ ht => absurd ht List.not_mem_nil

@[simp] theorem spellable_cons : Spellable (t :: ts) ↔ t.isSpellable = true ∧ Spellable ts :=
  List.forall_mem_cons

@[simp] theorem spellable_append : Spellable (ts ++ ts') ↔ Spellable ts ∧ Spellable ts' :=
  List.forall_mem_append

@[simp] theorem isSpellable_symbol (s : Symbol) : Token.isSpellable (.symbol s) = true := rfl

@[simp] theorem isSpellable_keyword (k : Keyword) : Token.isSpellable (.keyword k) = true := rfl

@[simp] theorem isSpellable_ident {name : String} :
    Token.isSpellable (.ident name) = isName name := rfl

@[simp] theorem spellable_inParens : Spellable (inParens ts) ↔ Spellable ts := by simp [inParens]

@[simp] theorem spellable_inBraces : Spellable (inBraces ts) ↔ Spellable ts := by simp [inBraces]

@[simp] theorem spellable_marks (kind : CallKind) : Spellable kind.marks := by
  cases kind <;> simp [CallKind.marks]

end Spellable

theorem Literal.tokens_spellable {l : Literal} (h : l.isWritable = true) : Spellable l.tokens := by
  cases l with
  | int n =>
    have hn : n.toInt.natAbs ≤ maxInteger := by
      have := n.le_toInt
      have := n.toInt_lt
      simp only [maxInteger]
      omega
    have hint : Token.isSpellable (.int n.toInt.natAbs) = true := decide_eq_true hn
    rw [tokens]
    split <;> simp [hint]
  | float x => exact nomatch h
  | bool b => simp [tokens]
  | text s => exact spellable_cons.2 ⟨h, spellable_nil⟩

namespace Expr

variable {extra : Expr → Bool}

theorem asPart_spellable {e : Expr} {ts : List Token} (h : Spellable ts) :
    Spellable (e.asPart extra ts) := by
  rw [asPart]
  split
  · exact spellable_inParens.2 h
  · exact h

mutual

theorem tokens_spellable : (e : Expr) → e.isWritable = true → Spellable (e.tokens extra)
  | literal l, h => l.tokens_spellable h
  | ident name, h => by simpa [tokens, isWritable] using h
  | functionRef name, h => by simpa [tokens, isWritable] using h
  | call kind name args, h => by
    obtain ⟨hname, hargs⟩ := Bool.and_eq_true_iff.1 h
    simpa [tokens] using ⟨hname, argTokens_spellable args hargs⟩
  | binary op left right, h => by
    obtain ⟨hleft, hright⟩ := Bool.and_eq_true_iff.1 h
    simpa [tokens] using ⟨asPart_spellable (left.tokens_spellable hleft),
      asPart_spellable (right.tokens_spellable hright)⟩
  | not operand, h => by
    simpa [tokens] using asPart_spellable (operand.tokens_spellable h)
  | negate operand, h => by simpa [tokens] using operand.tokens_spellable h
  | access object field, h => by
    obtain ⟨hobject, hfield⟩ := Bool.and_eq_true_iff.1 h
    simpa [tokens] using ⟨asPart_spellable (object.tokens_spellable hobject), hfield⟩

theorem argTokens_spellable : (es : List Expr) → allWritable es = true → Spellable (argTokens extra es)
  | [], _ => spellable_nil
  | [e], h => asPart_spellable (e.tokens_spellable (Bool.and_eq_true_iff.1 h).1)
  | e :: e' :: es, h => by
    obtain ⟨he, hes⟩ := Bool.and_eq_true_iff.1 h
    simpa [argTokens] using
      ⟨asPart_spellable (e.tokens_spellable he), argTokens_spellable (e' :: es) hes⟩

end

end Expr

namespace Stmt

variable {extra : Expr → Bool}

mutual

theorem tokens_spellable : (s : Stmt) → s.isWritable = true → Spellable (s.tokens extra)
  | assign name value, h => by
    obtain ⟨hname, hvalue⟩ := Bool.and_eq_true_iff.1 h
    simpa [tokens] using ⟨hname, value.tokens_spellable hvalue⟩
  | loop condition body, h => by
    obtain ⟨hcondition, hbody⟩ := Bool.and_eq_true_iff.1 h
    simpa [tokens] using ⟨condition.tokens_spellable hcondition, allTokens_spellable body hbody⟩
  | choose branches, h => branchTokens_spellable _ _ branches h
  | call kind name args, h => by
    obtain ⟨hname, hargs⟩ := Bool.and_eq_true_iff.1 h
    simpa [tokens] using ⟨hname, Expr.argTokens_spellable args hargs⟩
  | give none, _ => by simp [tokens]
  | give (some value), h => by simpa [tokens] using value.tokens_spellable h

theorem allTokens_spellable : (ss : List Stmt) → allWritable ss = true → Spellable (allTokens extra ss)
  | [], _ => spellable_nil
  | s :: ss, h => by
    obtain ⟨hs, hss⟩ := Bool.and_eq_true_iff.1 h
    exact spellable_append.2 ⟨s.tokens_spellable hs, allTokens_spellable ss hss⟩

theorem branchTokens_spellable (word : Keyword) (first : Bool) :
    (branches : List Branch) → branchesWritable first branches = true →
      Spellable (branchTokens extra word branches)
  | [], _ => spellable_nil
  | .mk (.when condition) body :: rest, h => by
    simp only [branchesWritable, Bool.and_eq_true] at h
    simpa [branchTokens] using ⟨condition.tokens_spellable h.1.1, allTokens_spellable body h.1.2,
      branchTokens_spellable .elseIf false rest h.2⟩
  | .mk .otherwise body :: rest, h => by
    simp only [branchesWritable, Bool.and_eq_true, List.isEmpty_iff] at h
    obtain ⟨⟨-, hbody⟩, rfl⟩ := h
    simpa [branchTokens] using allTokens_spellable body hbody

end

end Stmt

theorem Function.paramTokens_spellable {names : List String} (h : ∀ name ∈ names, isName name = true) :
    Spellable (paramTokens names) := by
  fun_induction paramTokens names with
  | case1 => exact spellable_nil
  | case2 name => simpa using h
  | case3 name names _ ih =>
    obtain ⟨hname, hnames⟩ := List.forall_mem_cons.1 h
    simpa using ⟨hname, ih hnames⟩

theorem Function.tokens_spellable {extra : Expr → Bool} {f : Function} (h : f.isWritable = true) :
    Spellable (f.tokens extra) := by
  simp only [isWritable, Bool.and_eq_true, List.all_eq_true] at h
  obtain ⟨⟨⟨hname, hparams⟩, -⟩, hbody⟩ := h
  simpa [tokens] using ⟨hname, paramTokens_spellable hparams, Stmt.allTokens_spellable f.body hbody⟩

/-- The tokens of a script that can be written have spellings. -/
theorem Script.tokens_spellable {extra : Expr → Bool} {s : Script} (h : s.isWritable = true) :
    Spellable (s.tokens extra) := by
  intro t ht
  obtain ⟨f, hf, ht⟩ := List.mem_flatMap.1 ht
  exact f.tokens_spellable (List.all_eq_true.1 h f hf) t ht

end ScriptMachine
