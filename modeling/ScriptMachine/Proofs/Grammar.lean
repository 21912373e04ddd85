import ScriptMachine.Proofs.Rereading

/-!
# The grammar of scripts

Which token lists are scripts, and of which trees, said without a reader. Every phrase of the
language has a relation between its tokens and its tree:

```
script    := function*
function  := 'fn' NAME '(' [NAME (',' NAME)*] ')' block
block     := '{' statement* '}'
statement := 'if' expr block ('elsif' expr block)* ['else' block]
           | 'while' expr block | 'return' [expr] ';' | NAME '=' expr ';' | call ';'
call      := NAME '(' args ')' | '$' NAME '(' args ')'
args      := [expr (',' expr)*]
expr      := or             or  := and ('||' and)*       and := eq ('&&' eq)*
eq        := cmp (('==' | '!=') cmp)*
cmp       := add (('<' | '>' | '<=' | '>=') add)*
add       := mul (('+' | '-') mul)*
mul       := unary (('*' | '/') unary)*
unary     := ('!' | '-') unary | atom ('.' NAME)*
atom      := INT | FLOAT | TEXT | 'true' | 'false' | '@' NAME | NAME | call | '(' expr ')'
```

The six levels between `or` and `mul` are one relation, `IsLevel`, with the number of the level
(`BinaryOp.level`); operators of one level associate to the left, which is what `IsChain` says
with its left operand. Three conditions are not part of these rules:

* the parameters of a function differ (`IsFunction`);
* an integer that does not fit into 32 bits with a sign, `2 ^ 31`, is only written behind a minus
  (`IsAtom.int`, `IsUnary.negativeInt`);
* a minus directly before a number makes a constant of both, to which no field belongs
  (`IsUnary.negate` does not apply to it, and `IsUnary.negativeInt` leaves no room for fields).

A conditional without `else` has an empty branch for it (`IsBranches.missing`).
-/

namespace ScriptMachine.Grammar

/-! ## Expressions -/

/-- Do the tokens start with a number? -/
def startsWithNumber : List Token → Bool
  | .int _ :: _ | .float _ :: _ => true
  | _ => false

/-- `('.' NAME)*`, behind an expression. -/
inductive IsFields : (object : Expr) → List Token → Expr → Prop where
  | nil {object : Expr} : IsFields object [] object
  | cons {object e : Expr} {field : String} {ts : List Token}
      (h : IsFields (.access object field) ts e) :
      IsFields object (.symbol .dot :: .ident field :: ts) e

mutual

/-- `next (op next)*`, where `op` are the operators of the level and `next` is the level behind
    it; behind the last level comes `unary`. -/
inductive IsLevel : (level : Nat) → List Token → Expr → Prop where
  | unary {ts : List Token} {e : Expr} (h : IsUnary ts e) : IsLevel 6 ts e
  | chain {level : Nat} {ts ts' : List Token} {first e : Expr} (hlevel : level < 6)
      (h : IsLevel (level + 1) ts first) (hs : IsChain level first ts' e) :
      IsLevel level (ts ++ ts') e

/-- `(op next)*`, behind the operand `left`. -/
inductive IsChain : (level : Nat) → (left : Expr) → List Token → Expr → Prop where
  | nil {level : Nat} {left : Expr} : IsChain level left [] left
  | cons {op : BinaryOp} {ts ts' : List Token} {left right e : Expr}
      (h : IsLevel (op.level + 1) ts right)
      (hs : IsChain op.level (.binary op left right) ts' e) :
      IsChain op.level left (.symbol op.symbol :: (ts ++ ts')) e

/-- `unary` -/
inductive IsUnary : List Token → Expr → Prop where
  | not {ts : List Token} {e : Expr} (h : IsUnary ts e) : IsUnary (.symbol .bang :: ts) (.not e)
  | negate {ts : List Token} {e : Expr} (hts : startsWithNumber ts = false) (h : IsUnary ts e) :
      IsUnary (.symbol .minus :: ts) (.negate e)
  | negativeInt {n : Nat} : IsUnary [.symbol .minus, .int n] (.literal (.int (-Int32.ofNat n)))
  | negativeFloat {x : Binary32} : IsUnary [.symbol .minus, .float x] (.literal (.float x.neg))
  | fields {ts ts' : List Token} {atom e : Expr} (h : IsAtom ts atom) (hs : IsFields atom ts' e) :
      IsUnary (ts ++ ts') e

/-- `atom` -/
inductive IsAtom : List Token → Expr → Prop where
  | int {n : Nat} (hn : n < maxInteger) : IsAtom [.int n] (.literal (.int (Int32.ofNat n)))
  | float {x : Binary32} : IsAtom [.float x] (.literal (.float x))
  | text {s : String} : IsAtom [.text s] (.literal (.text s))
  | yes : IsAtom [.keyword .yes] (.literal (.bool true))
  | no : IsAtom [.keyword .no] (.literal (.bool false))
  | functionRef {name : String} : IsAtom [.symbol .atSign, .ident name] (.functionRef name)
  | ident {name : String} : IsAtom [.ident name] (.ident name)
  | call {kind : CallKind} {name : String} {ts : List Token} {args : List Expr}
      (h : IsCall kind name ts args) : IsAtom ts (.call kind name args)
  | parens {ts : List Token} {e : Expr} (h : IsLevel 0 ts e) : IsAtom (inParens ts) e

/-- `call` -/
inductive IsCall : CallKind → String → List Token → List Expr → Prop where
  | mk {kind : CallKind} {name : String} {ts : List Token} {args : List Expr}
      (h : IsArgs ts args) : IsCall kind name (kind.marks ++ .ident name :: inParens ts) args

/-- `args` -/
inductive IsArgs : List Token → List Expr → Prop where
  | none : IsArgs [] []
  | some {ts : List Token} {es : List Expr} (h : IsMoreArgs ts es) : IsArgs ts es

/-- `expr (',' expr)*` -/
inductive IsMoreArgs : List Token → List Expr → Prop where
  | one {ts : List Token} {e : Expr} (h : IsLevel 0 ts e) : IsMoreArgs ts [e]
  | cons {ts ts' : List Token} {e : Expr} {es : List Expr} (h : IsLevel 0 ts e)
      (hs : IsMoreArgs ts' es) : IsMoreArgs (ts ++ .symbol .comma :: ts') (e :: es)

end

/-- `expr` -/
abbrev IsExpr : List Token → Expr → Prop := IsLevel 0

/-! ## Statements -/

mutual

/-- `statement` -/
inductive IsStmt : List Token → Stmt → Prop where
  | choose {cond block tail : List Token} {c : Expr} {body : List Stmt} {others : List Branch}
      (hc : IsExpr cond c) (hbody : IsStmts block body) (hothers : IsBranches tail others) :
      IsStmt (.keyword .ifThen :: (cond ++ (inBraces block ++ tail)))
        (.choose (.mk (.when c) body :: others))
  | loop {cond block : List Token} {c : Expr} {body : List Stmt} (hc : IsExpr cond c)
      (hbody : IsStmts block body) :
      IsStmt (.keyword .loop :: (cond ++ inBraces block)) (.loop c body)
  | giveUnit : IsStmt [.keyword .give, .symbol .semicolon] (.give none)
  | give {ts : List Token} {e : Expr} (h : IsExpr ts e) :
      IsStmt (.keyword .give :: (ts ++ [.symbol .semicolon])) (.give (some e))
  | assign {name : String} {ts : List Token} {e : Expr} (h : IsExpr ts e) :
      IsStmt (.ident name :: .symbol .assign :: (ts ++ [.symbol .semicolon])) (.assign name e)
  | call {kind : CallKind} {name : String} {ts : List Token} {args : List Expr}
      (h : IsCall kind name ts args) :
      IsStmt (ts ++ [.symbol .semicolon]) (.call kind name args)

/-- `statement*` -/
inductive IsStmts : List Token → List Stmt → Prop where
  | nil : IsStmts [] []
  | cons {ts ts' : List Token} {s : Stmt} {ss : List Stmt} (h : IsStmt ts s)
      (hs : IsStmts ts' ss) : IsStmts (ts ++ ts') (s :: ss)

/-- `('elsif' expr block)* ['else' block]` -/
inductive IsBranches : List Token → List Branch → Prop where
  | elseIf {cond block tail : List Token} {c : Expr} {body : List Stmt} {others : List Branch}
      (hc : IsExpr cond c) (hbody : IsStmts block body) (hothers : IsBranches tail others) :
      IsBranches (.keyword .elseIf :: (cond ++ (inBraces block ++ tail)))
        (.mk (.when c) body :: others)
  | otherwise {block : List Token} {body : List Stmt} (hbody : IsStmts block body) :
      IsBranches (.keyword .otherwise :: inBraces block) [.mk .otherwise body]
  | missing : IsBranches [] [.mk .otherwise []]

end

/-! ## Scripts -/

/-- `function`, without its place in a source. -/
inductive IsFunction : List Token → Function → Prop where
  | mk {name : String} {params : List String} {block : List Token} {body : List Stmt}
      (hparams : params.Nodup) (hbody : IsStmts block body) :
      IsFunction (.keyword .function :: .ident name ::
        (inParens (Function.paramTokens params) ++ inBraces block)) { name, params, body }

/-- `function*` -/
inductive IsScript : List Token → Script → Prop where
  | nil : IsScript [] ⟨[]⟩
  | cons {ts ts' : List Token} {f : Function} {fs : List Function} (h : IsFunction ts f)
      (hs : IsScript ts' ⟨fs⟩) : IsScript (ts ++ ts') ⟨f :: fs⟩

end ScriptMachine.Grammar
