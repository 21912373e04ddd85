import ScriptMachine.Compile
import ScriptMachine.Proofs.Written

/-!
# Reading back what was written

The text of a script is read back as the script. Reading proceeds from cursor to cursor, so
what a reader makes of written tokens is stated for every cursor before them: it gives the tree
they were written for, and leaves what stands behind them (`Gives`).

What stands behind an expression matters: a parenthesis would make a call of a name, a dot
would add a field, an operator a further operand. Tokens at which an expression of some level
has to stop (`Stops`) do none of this. An expression is written by itself or as a part of
another one, and both are read back (`Expr.Reads`): by itself up to any token that ends
expressions, as a part up to anything but a parenthesis. From here the readers follow the
trees, first over expressions (`Expr.reads_tokens`), then over statements (`Stmt.readStmt_tokens`).

* `readFunction_tokens`: the tokens of a function are read as the function, apart from its place.
* `Script.ofSource_render`: the text of a script is read as the script, apart from the places
  of its functions.
-/

namespace ScriptMachine

open Cursor

variable {α β : Type} {n m : Nat} {c : Cursor} {t : Token} {ts rest : List Token}

/-- The tokens that are left, without their places. -/
def Cursor.ahead (c : Cursor) : List Token := c.rest.map Prod.fst

/-- A cursor before a token, with the token in view. -/
theorem Cursor.eq_of_ahead (h : c.ahead = t :: ts) :
    ∃ position previous span tokens,
      c = ⟨position, previous, (t, span) :: tokens⟩ ∧ tokens.map Prod.fst = ts := by
  obtain ⟨position, previous, tokens⟩ := c
  obtain ⟨⟨t, span⟩, tokens, rfl, rfl, rfl⟩ := List.map_eq_cons_iff.1 h
  exact ⟨position, previous, span, tokens, rfl, rfl⟩

theorem Cursor.ahead_advance (h : c.ahead = t :: ts) : c.advance.ahead = ts := by
  obtain ⟨_, _, _, _, rfl, rfl⟩ := eq_of_ahead h
  rfl

theorem Cursor.peek_eq_head (c : Cursor) : c.peek = c.ahead.head? := by
  rw [peek, ahead, List.head?_map]

theorem Cursor.peekSecond_eq_head (c : Cursor) : c.peekSecond = c.ahead.tail.head? := by
  rw [peekSecond, ahead, ← List.map_tail, List.head?_map]

/-! ## Readers one behind the other -/

/-- Reading succeeds: it gives `a`, and leaves the tokens `rest`. -/
def Gives (r : Except Failure (Read α n)) (a : α) (rest : List Token) : Prop :=
  ∃ cursor progress, r = .ok ⟨a, cursor, progress⟩ ∧ cursor.ahead = rest

namespace Gives

/-- Reading on behind what was read. -/
theorem bind {r : Except Failure (Read α n)} {f : Read α n → Except Failure (Read β m)} {a : α}
    {b : β} (h : Gives r a ts)
    (h' : ∀ cursor progress, cursor.ahead = ts → Gives (f ⟨a, cursor, progress⟩) b rest) :
    Gives (r >>= f) b rest := by
  obtain ⟨cursor, progress, rfl, hahead⟩ := h
  exact h' cursor progress hahead

/-- Reading on, when something of the result is known only in the end. -/
theorem bind_exists {ι : Type} {r : Except Failure (Read α n)}
    {f : Read α n → Except Failure (Read β m)} {a : α} {b : ι → β} (h : Gives r a ts)
    (h' : ∀ cursor progress, cursor.ahead = ts → ∃ i, Gives (f ⟨a, cursor, progress⟩) (b i) rest) :
    ∃ i, Gives (r >>= f) (b i) rest := by
  obtain ⟨cursor, progress, rfl, hahead⟩ := h
  exact h' cursor progress hahead

theorem pure {a : α} {cursor : Cursor} {progress : cursor.remaining < n}
    (h : cursor.ahead = rest) : Gives (Pure.pure ⟨a, cursor, progress⟩) a rest :=
  ⟨cursor, progress, rfl, h⟩

/-- What succeeds in two steps succeeds in the first. -/
theorem of_bind {r : Except Failure (Read α n)} {f : Read α n → Except Failure (Read β m)} {b : β}
    (h : Gives (r >>= f) b rest) : ∃ a ts, Gives r a ts := by
  obtain ⟨cursor, progress, h, -⟩ := h
  cases hr : r with
  | error e => rw [hr] at h; exact nomatch h
  | ok read => exact ⟨read.value, read.cursor.ahead, read.cursor, read.progress, rfl, rfl⟩

end Gives

theorem gives_expectSymbol {s : Symbol} (h : c.ahead = .symbol s :: rest) :
    Gives (c.expectSymbol s) () rest := by
  obtain ⟨_, _, _, _, rfl, rfl⟩ := eq_of_ahead h
  exact ⟨_, _, if_pos rfl, rfl⟩

theorem gives_expectName {name : String} (h : c.ahead = .ident name :: rest) :
    Gives c.expectName name rest := by
  obtain ⟨_, _, _, _, rfl, rfl⟩ := eq_of_ahead h
  exact ⟨_, _, rfl, rfl⟩

/-! ## Levels -/

/-- The level of an operator. -/
def BinaryOp.level : BinaryOp → Nat
  | or => 0
  | and => 1
  | equals | notEquals => 2
  | greaterThan | lessThan | greaterOrEqual | lessOrEqual => 3
  | add | subtract => 4
  | multiply | divide => 5

theorem BinaryOp.level_lt (op : BinaryOp) : op.level < 6 := by cases op <;> decide

theorem levelOperator_level (op : BinaryOp) : levelOperator op.level op.symbol = some op := by
  cases op <;> rfl

/-- The symbol of an operator is one on its own level only. -/
theorem levelOperator_of_ne {op : BinaryOp} {level : Nat} (h : level ≠ op.level) :
    levelOperator level op.symbol = none := by
  rw [levelOperator.eq_def]
  split <;> cases op <;> first | rfl | contradiction

/-- The symbols that end an expression: none of them goes on with it or starts one. -/
def Symbol.endsExpr : Symbol → Bool
  | semicolon | comma | leftBrace | rightParen => true
  | _ => false

/-- An expression of the level stops before the tokens: they start with no operator of this or
    a tighter level, and with nothing that would become part of an operand. -/
def Stops (level : Nat) (ts : List Token) : Prop :=
  ∀ s, ts.head? = some (.symbol s) →
    s ≠ .leftParen ∧ s ≠ .dot ∧ ∀ k, level ≤ k → levelOperator k s = none

theorem stops_of_endsExpr {level : Nat} {s : Symbol} (hs : s.endsExpr = true) :
    Stops level (.symbol s :: ts) := by
  rintro _ ⟨⟩
  cases s with
  | semicolon | comma | leftBrace | rightParen =>
    refine ⟨by decide, by decide, fun k _ => ?_⟩
    rw [levelOperator.eq_def]
    split <;> first | rfl | contradiction
  | _ => exact nomatch hs

theorem stops_operator (op : BinaryOp) : Stops (op.level + 1) (.symbol op.symbol :: ts) := by
  rintro _ ⟨⟩
  refine ⟨by cases op <;> decide, by cases op <;> decide, fun k hk => ?_⟩
  exact levelOperator_of_ne (Nat.ne_of_gt hk)

namespace Stops

variable {level : Nat} (h : Stops level ts)
include h

theorem mono {level' : Nat} (hle : level ≤ level') : Stops level' ts := by
  intro s hs
  obtain ⟨hparen, hdot, hop⟩ := h s hs
  exact ⟨hparen, hdot, fun k hk => hop k (Nat.le_trans hle hk)⟩

theorem not_leftParen : ts.head? ≠ some (.symbol .leftParen) := fun hs => (h _ hs).1 rfl

theorem readFields_eq (e : Expr) (hc : c.ahead = ts) : Gives (readFields e c) e ts := by
  rw [readFields]
  split
  · next hpeek =>
    rw [peek_eq_head, hc] at hpeek
    exact absurd rfl (h _ hpeek).2.1
  · exact .pure hc

theorem readChain_eq (e : Expr) (hc : c.ahead = ts) : Gives (readChain level e c) e ts := by
  have hnone : operatorAt level c = none := by
    rw [operatorAt, peek_eq_head, hc]
    split
    · next s hs => exact (h s hs).2.2 level (Nat.le_refl level)
    · rfl
  rw [readChain]
  split
  · next hop => rw [hnone] at hop; exact nomatch hop
  · exact .pure hc

end Stops

/-! ## Operands -/

/-- The symbols that an atom can start with. -/
def Symbol.startsAtom : Symbol → Bool
  | leftParen | atSign | dollar => true
  | _ => false

theorem startsAtom_of_readAtom {a : Expr} {s : Symbol} (h : Gives (readAtom c) a rest)
    (hs : c.peek = some (.symbol s)) : s.startsAtom = true := by
  rw [peek_eq_head] at hs
  obtain ⟨ts, hts⟩ := List.head?_eq_some_iff.1 hs
  obtain ⟨_, _, _, _, rfl, rfl⟩ := eq_of_ahead hts
  obtain ⟨_, _, h, -⟩ := h
  rw [readAtom] at h
  cases s with
  | leftParen | atSign | dollar => rfl
  | _ => exact nomatch h

/-- An atom and the fields behind it are an operand. -/
theorem readOperand_of_readAtom {a e : Expr} (h : Gives (readAtom c) a ts)
    (h' : ∀ c : Cursor, c.ahead = ts → Gives (readFields a c) e rest) :
    Gives (readOperand c) e rest := by
  rw [readOperand]
  -- What starts with a bang or a minus is no atom.
  split
  · next hpeek => exact absurd (startsAtom_of_readAtom h hpeek) Bool.false_ne_true
  · next hpeek => exact absurd (startsAtom_of_readAtom h hpeek) Bool.false_ne_true
  · exact h.bind fun cursor _ hcursor => (h' cursor hcursor).bind fun _ _ hrest => .pure hrest

/-- An expression of a level is one of every looser level, if it stops there. -/
theorem readLevel_looser {e : Expr} {level level' : Nat} (hle : level ≤ level') (hlevel : level' ≤ 6)
    (h : Gives (readLevel level' c) e rest) (hrest : Stops level rest) :
    Gives (readLevel level c) e rest := by
  induction hle with
  | refl => exact h
  | @step k hk ih =>
    refine ih (Nat.le_of_lt hlevel) ?_
    rw [readLevel, if_pos (Nat.lt_of_succ_le hlevel)]
    refine h.bind fun cursor _ hcursor => ?_
    exact ((hrest.mono hk).readChain_eq e hcursor).bind fun _ _ hrest => .pure hrest

theorem readLevel_of_readOperand {e : Expr} {level : Nat} (hlevel : level ≤ 6)
    (h : Gives (readOperand c) e rest) (hrest : Stops level rest) :
    Gives (readLevel level c) e rest := by
  refine readLevel_looser hlevel (Nat.le_refl 6) ?_ hrest
  rw [readLevel, if_neg (Nat.lt_irrefl 6)]
  exact h

/-- An expression starts with an operand. -/
theorem readOperand_of_readLevel {level : Nat} {e : Expr} {rest : List Token}
    (h : Gives (readLevel level c) e rest) : ∃ a ts, Gives (readOperand c) a ts := by
  rw [readLevel] at h
  split at h
  · obtain ⟨a, ts, h⟩ := h.of_bind
    exact readOperand_of_readLevel h
  · exact ⟨e, rest, h⟩
termination_by 6 - level

/-- No expression starts with a symbol that ends one. -/
theorem peek_of_readExpr {e : Expr} {s : Symbol} (h : Gives (readExpr c) e rest)
    (hs : s.endsExpr = true) : c.peek ≠ some (.symbol s) := by
  intro hpeek
  obtain ⟨a, ts, h⟩ := readOperand_of_readLevel h
  obtain ⟨ts', hts⟩ := List.head?_eq_some_iff.1 (c.peek_eq_head ▸ hpeek)
  obtain ⟨_, _, _, _, rfl, rfl⟩ := eq_of_ahead hts
  rw [readOperand] at h
  cases s with
  | semicolon | comma | leftBrace | rightParen =>
    obtain ⟨a, ts, h⟩ := h.of_bind
    exact nomatch startsAtom_of_readAtom h hpeek
  | _ => exact nomatch hs

/-! ## Expressions -/

/-- An expression in parentheses is an atom. -/
theorem readAtom_inParens {e : Expr} (h : c.ahead = inParens ts ++ rest)
    (he : ∀ c : Cursor, c.ahead = ts ++ .symbol .rightParen :: rest →
      Gives (readExpr c) e (.symbol .rightParen :: rest)) : Gives (readAtom c) e rest := by
  rw [inParens, List.cons_append, List.append_assoc] at h
  obtain ⟨_, _, _, _, rfl, hahead⟩ := eq_of_ahead h
  rw [readAtom]
  refine .bind (he _ hahead) fun _ _ hclosing => ?_
  exact (gives_expectSymbol hclosing).bind fun _ _ hrest => .pure hrest

/-- A name is one, unless a parenthesis makes a call of it. -/
theorem readAtom_ident {name : String} (hc : c.ahead = .ident name :: rest)
    (hrest : rest.head? ≠ some (.symbol .leftParen)) : Gives (readAtom c) (.ident name) rest := by
  have hsecond : c.peekSecond ≠ some (.symbol .leftParen) := by
    rw [peekSecond_eq_head, hc]
    exact hrest
  obtain ⟨_, _, _, _, rfl, rfl⟩ := eq_of_ahead hc
  rw [readAtom]
  change Gives (if peekSecond _ = _ then _ else _) _ _
  rw [if_neg hsecond]
  exact .pure rfl

theorem readAtom_functionRef {name : String} (hc : c.ahead = .symbol .atSign :: .ident name :: rest) :
    Gives (readAtom c) (.functionRef name) rest := by
  obtain ⟨_, _, _, _, rfl, hahead⟩ := eq_of_ahead hc
  rw [readAtom]
  exact .bind (gives_expectName hahead) fun _ _ hrest => .pure hrest

/-- The name of what is called, and the arguments behind it. -/
theorem readAtom_call {kind : CallKind} {name : String} {args : List Expr}
    (hc : c.ahead = kind.marks ++ .ident name :: (inParens ts ++ rest))
    (h : ∀ c : Cursor, c.ahead = inParens ts ++ rest → Gives (readArgs c) args rest) :
    Gives (readAtom c) (.call kind name args) rest := by
  cases kind with
  | internal =>
    have hsecond : c.peekSecond = some (.symbol .leftParen) := by rw [peekSecond_eq_head, hc]; rfl
    obtain ⟨_, _, _, _, rfl, hahead⟩ := eq_of_ahead hc
    rw [readAtom]
    change Gives (if peekSecond _ = _ then _ else _) _ _
    rw [if_pos hsecond]
    exact .bind (h _ hahead) fun _ _ hrest => .pure hrest
  | external =>
    obtain ⟨_, _, _, _, rfl, hahead⟩ := eq_of_ahead hc
    rw [readAtom]
    refine .bind (gives_expectName hahead) fun cursor _ hcursor => ?_
    exact (h cursor hcursor).bind fun _ _ hrest => .pure hrest

/-- An operator with its right operand, and what goes on behind them. -/
theorem readChain_operator {op : BinaryOp} {left right e : Expr} {ts' : List Token}
    (hc : c.ahead = .symbol op.symbol :: ts)
    (hright : ∀ c : Cursor, c.ahead = ts → Gives (readLevel (op.level + 1) c) right ts')
    (hchain : ∀ c : Cursor, c.ahead = ts' →
      Gives (readChain op.level (.binary op left right) c) e rest) :
    Gives (readChain op.level left c) e rest := by
  have hop : operatorAt op.level c = some op := by
    rw [operatorAt, peek_eq_head, hc]
    exact levelOperator_level op
  rw [readChain]
  split
  · next op' hop' =>
    obtain rfl : op = op' := Option.some.inj (hop.symm.trans hop')
    refine .bind (hright c.advance (ahead_advance hc)) fun cursor _ hcursor => ?_
    exact .bind (hchain cursor hcursor) fun _ _ hrest => .pure hrest
  · next hop' => exact nomatch hop.symm.trans hop'

/-- The last argument, and the closing parenthesis. -/
theorem readMoreArgs_one {e : Expr} (h : Gives (readExpr c) e (.symbol .rightParen :: rest)) :
    Gives (readMoreArgs c) [e] rest := by
  rw [readMoreArgs]
  refine .bind h fun cursor _ hcursor => ?_
  obtain ⟨_, _, _, _, rfl, rfl⟩ := eq_of_ahead hcursor
  exact .pure rfl

/-- An argument before others. -/
theorem readMoreArgs_cons {e : Expr} {es : List Expr}
    (h : Gives (readExpr c) e (.symbol .comma :: ts))
    (hs : ∀ c : Cursor, c.ahead = ts → Gives (readMoreArgs c) es rest) :
    Gives (readMoreArgs c) (e :: es) rest := by
  rw [readMoreArgs]
  refine .bind h fun cursor _ hcursor => ?_
  obtain ⟨_, _, _, _, rfl, hahead⟩ := eq_of_ahead hcursor
  refine .bind (gives_expectSymbol hcursor) fun cursor _ hcomma => ?_
  exact .bind (hs cursor hcomma) fun _ _ hrest => .pure hrest

theorem readArgs_none (hc : c.ahead = inParens [] ++ rest) : Gives (readArgs c) [] rest := by
  rw [readArgs]
  refine .bind (gives_expectSymbol hc) fun cursor _ hcursor => ?_
  obtain ⟨_, _, _, _, rfl, rfl⟩ := eq_of_ahead hcursor
  exact .pure rfl

theorem readArgs_some {es : List Expr} (hc : c.ahead = inParens ts ++ rest)
    (h : ∀ c : Cursor, c.ahead = ts ++ .symbol .rightParen :: rest →
      Gives (readMoreArgs c) es rest) : Gives (readArgs c) es rest := by
  rw [inParens, List.cons_append, List.append_assoc] at hc
  rw [readArgs]
  refine .bind (gives_expectSymbol hc) fun cursor _ hcursor => ?_
  have hargs := h cursor hcursor
  -- No argument starts with the parenthesis that would end them.
  have hne : cursor.peek ≠ some (.symbol .rightParen) := by
    rw [readMoreArgs] at hargs
    obtain ⟨_, _, hfirst⟩ := hargs.of_bind
    exact peek_of_readExpr hfirst rfl
  dsimp only
  split
  · next hpeek => exact absurd hpeek hne
  · exact hargs.bind fun _ _ hrest => .pure hrest

namespace Expr

/-- The tokens of an expression are read as the expression. -/
structure Reads (extra : Expr → Bool) (e : Expr) : Prop where
  /-- By itself: up to where an expression stops. -/
  alone : ∀ {c : Cursor} {rest : List Token}, c.ahead = e.tokens extra ++ rest → Stops 0 rest →
    Gives (readExpr c) e rest
  /-- As a part of another one: up to anything that does not make a call of a name. -/
  part : ∀ {c : Cursor} {rest : List Token}, c.ahead = e.asPart extra (e.tokens extra) ++ rest →
    rest.head? ≠ some (.symbol .leftParen) → Gives (readAtom c) e rest

namespace Reads

variable {extra : Expr → Bool} {e : Expr}

/-- In parentheses everything is an atom. -/
theorem part_of_alone
    (halone : ∀ {c : Cursor} {rest : List Token}, c.ahead = e.tokens extra ++ rest → Stops 0 rest →
      Gives (readExpr c) e rest)
    (hatom : ∀ {c : Cursor} {rest : List Token}, e.needsParens = false →
      c.ahead = e.tokens extra ++ rest → rest.head? ≠ some (.symbol .leftParen) →
      Gives (readAtom c) e rest) : Reads extra e := by
  refine ⟨halone, fun hc hrest => ?_⟩
  rw [asPart] at hc
  split at hc
  · exact readAtom_inParens hc fun c hahead => halone hahead (stops_of_endsExpr rfl)
  · next hparens =>
    rw [Bool.not_eq_true, Bool.or_eq_false_iff] at hparens
    exact hatom hparens.1 hc hrest

/-- An expression whose tokens are an atom. -/
theorem of_atom (h : ∀ {c : Cursor} {rest : List Token}, c.ahead = e.tokens extra ++ rest →
      rest.head? ≠ some (.symbol .leftParen) → Gives (readAtom c) e rest) : Reads extra e := by
  refine part_of_alone (fun hc hrest => ?_) fun _ => h
  exact readLevel_of_readOperand (Nat.zero_le 6) (readOperand_of_readAtom (h hc hrest.not_leftParen)
    fun c hahead => hrest.readFields_eq e hahead) hrest

/-- An expression whose tokens are an operand. -/
theorem of_operand (hparens : e.needsParens = true)
    (h : ∀ {c : Cursor} {rest : List Token}, c.ahead = e.tokens extra ++ rest → Stops 0 rest →
      Gives (readOperand c) e rest) : Reads extra e := by
  refine part_of_alone (fun hc hrest => ?_) fun hparens' => ?_
  · exact readLevel_of_readOperand (Nat.zero_le 6) (h hc hrest) hrest
  · rw [hparens] at hparens'
    exact nomatch hparens'

/-- A part is an operand. -/
theorem operand (he : Reads extra e) {level : Nat}
    (hc : c.ahead = e.asPart extra (e.tokens extra) ++ rest) (hrest : Stops level rest) :
    Gives (readOperand c) e rest :=
  readOperand_of_readAtom (he.part hc hrest.not_leftParen) fun _ hahead =>
    hrest.readFields_eq e hahead

/-- A part is an expression of every level. -/
theorem level (he : Reads extra e) {level : Nat} (hlevel : level ≤ 6)
    (hc : c.ahead = e.asPart extra (e.tokens extra) ++ rest) (hrest : Stops level rest) :
    Gives (readLevel level c) e rest :=
  readLevel_of_readOperand hlevel (he.operand hc hrest) hrest

end Reads

/-! ### Arguments -/

section Arguments

variable {extra : Expr → Bool}

/-- At least one argument, and the closing parenthesis. -/
theorem readMoreArgs_tokens : (es : List Expr) → es ≠ [] → (∀ e ∈ es, e.Reads extra) →
    {c : Cursor} → {rest : List Token} →
    c.ahead = argTokens extra es ++ .symbol .rightParen :: rest → Gives (readMoreArgs c) es rest
  | [], hne, _, _, _, _ => absurd rfl hne
  | [e], _, hes, c, rest, hc => by
    rw [argTokens] at hc
    exact readMoreArgs_one
      ((hes e List.mem_cons_self).level (Nat.zero_le 6) hc (stops_of_endsExpr rfl))
  | e :: e' :: es, _, hes, c, rest, hc => by
    obtain ⟨he, hes⟩ := List.forall_mem_cons.1 hes
    rw [argTokens.eq_3 extra e (e' :: es) nofun, List.append_assoc] at hc
    exact readMoreArgs_cons (he.level (Nat.zero_le 6) hc (stops_of_endsExpr rfl)) fun _ =>
      readMoreArgs_tokens (e' :: es) (List.cons_ne_nil e' es) hes

/-- Arguments in parentheses. -/
theorem readArgs_tokens {es : List Expr} (hes : ∀ e ∈ es, e.Reads extra)
    (hc : c.ahead = inParens (argTokens extra es) ++ rest) : Gives (readArgs c) es rest := by
  cases es with
  | nil => exact readArgs_none hc
  | cons e es =>
    exact readArgs_some hc fun _ => readMoreArgs_tokens (e :: es) (List.cons_ne_nil e es) hes

end Arguments

/-! ### Every expression -/

section Every

variable {extra : Expr → Bool}

theorem int32_ofNat_natAbs {n : Int32} (hn : ¬n < 0) : Int32.ofNat n.toInt.natAbs = n := by
  rw [Int32.lt_iff_toInt_lt, Int32.toInt_zero] at hn
  rw [← Int32.ofInt_eq_ofNat, Int.natAbs_of_nonneg (Int.not_lt.1 hn), Int32.ofInt_toInt]

theorem int32_neg_ofNat_natAbs {n : Int32} (hn : n < 0) : -Int32.ofNat n.toInt.natAbs = n := by
  rw [Int32.lt_iff_toInt_lt, Int32.toInt_zero] at hn
  rw [← Int32.ofInt_eq_ofNat, ← Int32.ofInt_neg, Int.ofNat_natAbs_of_nonpos (Int.le_of_lt hn),
    Int.neg_neg, Int32.ofInt_toInt]

theorem reads_int (n : Int32) : (literal (.int n)).Reads extra := by
  by_cases hn : n < 0
  · -- The minus becomes part of the constant.
    refine .of_operand (decide_eq_true hn) fun {c rest} hc _ => ?_
    rw [tokens, Literal.tokens, if_pos hn] at hc
    have hread : Gives (readOperand c) (literal (.int (-Int32.ofNat n.toInt.natAbs))) rest := by
      obtain ⟨_, _, _, _, rfl, hahead⟩ := eq_of_ahead hc
      obtain ⟨⟨_, _⟩, _, rfl, rfl, rfl⟩ := List.map_eq_cons_iff.1 hahead
      rw [readOperand]
      exact .pure rfl
    rwa [int32_neg_ofNat_natAbs hn] at hread
  · refine .of_atom fun {c rest} hc _ => ?_
    have hmax : n.toInt.natAbs < maxInteger := by
      have := n.toInt_lt
      rw [Int32.lt_iff_toInt_lt, Int32.toInt_zero] at hn
      simp only [maxInteger]
      omega
    rw [tokens, Literal.tokens, if_neg hn] at hc
    obtain ⟨_, _, _, _, rfl, rfl⟩ := eq_of_ahead hc
    rw [readAtom]
    change Gives (if n.toInt.natAbs < maxInteger then _ else _) _ _
    rw [if_pos hmax, int32_ofNat_natAbs hn]
    exact .pure rfl

theorem reads_literal {l : Literal} (h : l.isWritable = true) : (literal l).Reads extra := by
  cases l with
  | int n => exact reads_int n
  | float x => exact nomatch h
  | bool b =>
    refine .of_atom fun {c rest} hc _ => ?_
    obtain ⟨_, _, _, _, rfl, rfl⟩ := eq_of_ahead hc
    rw [readAtom]
    cases b <;> exact .pure rfl
  | text s =>
    refine .of_atom fun {c rest} hc _ => ?_
    obtain ⟨_, _, _, _, rfl, rfl⟩ := eq_of_ahead hc
    rw [readAtom]
    exact .pure rfl

theorem reads_ident {name : String} : (ident name).Reads extra :=
  .of_atom readAtom_ident

theorem reads_functionRef {name : String} : (functionRef name).Reads extra :=
  .of_atom fun hc _ => readAtom_functionRef hc

theorem reads_call {kind : CallKind} {name : String} {args : List Expr}
    (hargs : ∀ e ∈ args, e.Reads extra) : (call kind name args).Reads extra := by
  refine .of_atom fun {c rest} hc _ => ?_
  rw [tokens, List.append_assoc] at hc
  exact readAtom_call hc fun _ => readArgs_tokens hargs

theorem reads_binary {op : BinaryOp} {left right : Expr} (hleft : left.Reads extra)
    (hright : right.Reads extra) : (binary op left right).Reads extra := by
  refine .part_of_alone (fun {c rest} hc hrest => ?_) nofun
  rw [tokens, List.append_assoc] at hc
  refine readLevel_looser (Nat.zero_le op.level) (Nat.le_of_lt op.level_lt) ?_ hrest
  rw [readLevel, if_pos op.level_lt]
  refine .bind (hleft.level op.level_lt hc (stops_operator op)) fun cursor _ hcursor => ?_
  have hstops : ∀ level, Stops level rest := fun level => hrest.mono (Nat.zero_le level)
  have hchain : Gives (readChain op.level left cursor) (binary op left right) rest :=
    readChain_operator hcursor (fun _ hahead => hright.level op.level_lt hahead (hstops _))
      fun _ hend => (hstops _).readChain_eq _ hend
  exact hchain.bind fun _ _ hrest => .pure hrest

theorem reads_not {operand : Expr} (h : operand.Reads extra) : (not operand).Reads extra := by
  refine .of_operand rfl fun {c rest} hc hrest => ?_
  rw [tokens] at hc
  obtain ⟨_, _, _, _, rfl, hahead⟩ := eq_of_ahead hc
  rw [readOperand]
  exact .bind (h.operand hahead hrest) fun _ _ hrest => .pure hrest

theorem reads_negate {operand : Expr} (h : operand.Reads extra) : (negate operand).Reads extra := by
  refine .of_operand rfl fun {c rest} hc hrest => ?_
  rw [tokens] at hc
  have hoperand : Gives (readOperand c.advance) operand rest :=
    readOperand_of_readAtom
      (readAtom_inParens (ahead_advance hc) fun _ hahead => h.alone hahead (stops_of_endsExpr rfl))
      fun _ hahead => hrest.readFields_eq operand hahead
  -- What is negated starts with a parenthesis, and so with no number.
  obtain ⟨_, _, _, _, rfl, hahead⟩ := eq_of_ahead hc
  obtain ⟨⟨_, _⟩, _, rfl, rfl, -⟩ := List.map_eq_cons_iff.1 hahead
  rw [readOperand]
  exact hoperand.bind fun _ _ hrest => .pure hrest

theorem reads_access {object : Expr} {field : String} (h : object.Reads extra) :
    (access object field).Reads extra := by
  refine .of_operand rfl fun {c rest} hc hrest => ?_
  rw [tokens, List.append_assoc] at hc
  refine readOperand_of_readAtom (h.part hc nofun) fun c hdot => ?_
  obtain ⟨_, _, _, _, rfl, hahead⟩ := eq_of_ahead hdot
  rw [readFields]
  refine .bind (gives_expectName hahead) fun cursor _ hcursor => ?_
  exact .bind (hrest.readFields_eq _ hcursor) fun _ _ hrest => .pure hrest

mutual

/-- Every expression that can be written is read back. -/
theorem reads_tokens : (e : Expr) → e.isWritable = true → e.Reads extra
  | literal _, h => reads_literal h
  | ident _, _ => reads_ident
  | functionRef _, _ => reads_functionRef
  | call _ _ args, h => reads_call (reads_argTokens args (Bool.and_eq_true_iff.1 h).2)
  | binary _ left right, h =>
    reads_binary (left.reads_tokens (Bool.and_eq_true_iff.1 h).1)
      (right.reads_tokens (Bool.and_eq_true_iff.1 h).2)
  | not operand, h => reads_not (operand.reads_tokens h)
  | negate operand, h => reads_negate (operand.reads_tokens h)
  | access object _, h => reads_access (object.reads_tokens (Bool.and_eq_true_iff.1 h).1)

theorem reads_argTokens : (es : List Expr) → allWritable es = true → ∀ e ∈ es, e.Reads extra
  | [], _ => fun _ he => absurd he List.not_mem_nil
  | e :: es, h => by
    obtain ⟨he, hes⟩ := Bool.and_eq_true_iff.1 h
    exact List.forall_mem_cons.2 ⟨e.reads_tokens he, reads_argTokens es hes⟩

end

end Every

end Expr

/-! ## Statements -/

namespace Stmt

variable {extra : Expr → Bool}

/-- Statements in braces. -/
theorem readBlock_inBraces {ss : List Stmt} (hc : c.ahead = inBraces ts ++ rest)
    (h : ∀ c : Cursor, c.ahead = ts ++ .symbol .rightBrace :: rest → Gives (readStmts c) ss rest) :
    Gives (readBlock c) ss rest := by
  rw [inBraces, List.cons_append, List.append_assoc] at hc
  rw [readBlock]
  refine .bind (gives_expectSymbol hc) fun cursor _ hcursor => ?_
  exact .bind (h cursor hcursor) fun _ _ hrest => .pure hrest

/-- A condition and a block. -/
theorem readBranch_when {condition : Expr} {ss : List Stmt}
    (hcondition : Gives (readExpr c) condition (inBraces ts ++ rest))
    (h : ∀ c : Cursor, c.ahead = ts ++ .symbol .rightBrace :: rest → Gives (readStmts c) ss rest) :
    Gives (readBranch c) (.mk (.when condition) ss) rest := by
  rw [readBranch]
  refine .bind hcondition fun _ _ hbody => ?_
  exact .bind (readBlock_inBraces hbody h) fun _ _ hrest => .pure hrest

theorem readBranch_tokens {condition : Expr} {ss : List Stmt}
    (hcondition : condition.isWritable = true)
    (hc : c.ahead = condition.tokens extra ++ (inBraces ts ++ rest))
    (h : ∀ c : Cursor, c.ahead = ts ++ .symbol .rightBrace :: rest → Gives (readStmts c) ss rest) :
    Gives (readBranch c) (.mk (.when condition) ss) rest :=
  readBranch_when ((condition.reads_tokens hcondition).alone hc (stops_of_endsExpr rfl)) h

/-- No statement starts with a brace that closes a block. -/
theorem peek_of_readStmt {s : Stmt} (h : Gives (readStmt c) s rest) :
    c.peek ≠ some (.symbol .rightBrace) ∧ c.peek ≠ none := by
  obtain ⟨_, _, h, -⟩ := h
  obtain ⟨position, previous, tokens⟩ := c
  rw [readStmt] at h
  cases tokens with
  | nil => exact nomatch h
  | cons first tokens =>
    obtain ⟨t, span⟩ := first
    refine ⟨fun hpeek => ?_, nofun⟩
    obtain rfl : t = .symbol .rightBrace := Option.some.inj hpeek
    exact nomatch h

theorem readStmt_assign {name : String} {value : Expr}
    (hc : c.ahead = .ident name :: .symbol .assign :: ts)
    (h : ∀ c : Cursor, c.ahead = ts → Gives (readExpr c) value (.symbol .semicolon :: rest)) :
    Gives (readStmt c) (assign name value) rest := by
  obtain ⟨_, _, _, _, rfl, hahead⟩ := eq_of_ahead hc
  obtain ⟨⟨_, _⟩, _, rfl, rfl, hvalue⟩ := List.map_eq_cons_iff.1 hahead
  rw [readStmt]
  refine .bind (h _ hvalue) fun _ _ hclosing => ?_
  exact .bind (gives_expectSymbol hclosing) fun _ _ hrest => .pure hrest

theorem readStmt_loop {condition : Expr} {body : List Stmt} {block : List Token}
    (hc : c.ahead = .keyword .loop :: ts)
    (h : ∀ c : Cursor, c.ahead = ts → Gives (readExpr c) condition (inBraces block ++ rest))
    (hbody : ∀ c : Cursor, c.ahead = block ++ .symbol .rightBrace :: rest →
      Gives (readStmts c) body rest) :
    Gives (readStmt c) (loop condition body) rest := by
  obtain ⟨_, _, _, _, rfl, hahead⟩ := eq_of_ahead hc
  rw [readStmt]
  refine .bind (h _ hahead) fun _ _ hblock => ?_
  exact .bind (readBlock_inBraces hblock hbody) fun _ _ hrest => .pure hrest

theorem readStmt_choose {first : Branch} {others : List Branch} {ts' : List Token}
    (hc : c.ahead = .keyword .ifThen :: ts)
    (h : ∀ c : Cursor, c.ahead = ts → Gives (readBranch c) first ts')
    (hothers : ∀ c : Cursor, c.ahead = ts' → Gives (readBranches c) others rest) :
    Gives (readStmt c) (choose (first :: others)) rest := by
  obtain ⟨_, _, _, _, rfl, hahead⟩ := eq_of_ahead hc
  rw [readStmt]
  refine .bind (h _ hahead) fun cursor _ hcursor => ?_
  exact .bind (hothers cursor hcursor) fun _ _ hrest => .pure hrest

theorem readStmt_call {kind : CallKind} {name : String} {args : List Expr}
    (hc : c.ahead = kind.marks ++ .ident name :: (inParens ts ++ .symbol .semicolon :: rest))
    (h : ∀ {c : Cursor} {rest : List Token}, c.ahead = inParens ts ++ rest →
      Gives (readArgs c) args rest) :
    Gives (readStmt c) (call kind name args) rest := by
  cases kind with
  | internal =>
    have hread := h (ahead_advance hc)
    -- What follows the name is a parenthesis, not the sign of an assignment.
    obtain ⟨_, _, _, _, rfl, hahead⟩ := eq_of_ahead hc
    obtain ⟨⟨_, _⟩, _, rfl, rfl, -⟩ := List.map_eq_cons_iff.1 hahead
    rw [readStmt]
    refine hread.bind fun _ _ hclosing => ?_
    exact .bind (gives_expectSymbol hclosing) fun _ _ hrest => .pure hrest
  | external =>
    obtain ⟨_, _, _, _, rfl, hahead⟩ := eq_of_ahead hc
    rw [readStmt]
    refine .bind (gives_expectName hahead) fun _ _ hopening => ?_
    refine .bind (h hopening) fun _ _ hclosing => ?_
    exact .bind (gives_expectSymbol hclosing) fun _ _ hrest => .pure hrest

theorem readStmt_giveUnit (hc : c.ahead = .keyword .give :: .symbol .semicolon :: rest) :
    Gives (readStmt c) (give none) rest := by
  obtain ⟨_, _, _, _, rfl, hahead⟩ := eq_of_ahead hc
  obtain ⟨⟨_, _⟩, _, rfl, rfl, rfl⟩ := List.map_eq_cons_iff.1 hahead
  rw [readStmt]
  exact .pure rfl

theorem readStmt_give {value : Expr} (hc : c.ahead = .keyword .give :: ts)
    (h : ∀ c : Cursor, c.ahead = ts → Gives (readExpr c) value (.symbol .semicolon :: rest)) :
    Gives (readStmt c) (give (some value)) rest := by
  have hread := h _ (ahead_advance hc)
  have hne : c.advance.peek ≠ some (.symbol .semicolon) := peek_of_readExpr hread rfl
  obtain ⟨_, _, _, _, rfl, hahead⟩ := eq_of_ahead hc
  rw [readStmt]
  dsimp only [peek, List.head?_cons, Option.map_some]
  split
  · next hpeek => exact absurd hpeek hne
  · refine hread.bind fun _ _ hclosing => ?_
    exact .bind (gives_expectSymbol hclosing) fun _ _ hrest => .pure hrest

theorem readStmts_nil (hc : c.ahead = .symbol .rightBrace :: rest) :
    Gives (readStmts c) [] rest := by
  obtain ⟨_, _, _, _, rfl, rfl⟩ := eq_of_ahead hc
  rw [readStmts]
  exact .pure rfl

theorem readStmts_cons {s : Stmt} {ss : List Stmt} (h : Gives (readStmt c) s ts)
    (hs : ∀ c : Cursor, c.ahead = ts → Gives (readStmts c) ss rest) :
    Gives (readStmts c) (s :: ss) rest := by
  obtain ⟨hbrace, hnone⟩ := peek_of_readStmt h
  rw [readStmts]
  split
  · next hpeek => exact absurd hpeek hbrace
  · next hpeek => exact absurd hpeek hnone
  · refine h.bind fun cursor _ hcursor => ?_
    exact .bind (hs cursor hcursor) fun _ _ hrest => .pure hrest

theorem readBranches_elseIf {first : Branch} {others : List Branch} {ts' : List Token}
    (hc : c.ahead = .keyword .elseIf :: ts)
    (h : ∀ c : Cursor, c.ahead = ts → Gives (readBranch c) first ts')
    (hothers : ∀ c : Cursor, c.ahead = ts' → Gives (readBranches c) others rest) :
    Gives (readBranches c) (first :: others) rest := by
  obtain ⟨_, _, _, _, rfl, hahead⟩ := eq_of_ahead hc
  rw [readBranches]
  refine .bind (h _ hahead) fun cursor _ hcursor => ?_
  exact .bind (hothers cursor hcursor) fun _ _ hrest => .pure hrest

theorem readBranches_otherwise {body : List Stmt}
    (hc : c.ahead = .keyword .otherwise :: (inBraces ts ++ rest))
    (h : ∀ c : Cursor, c.ahead = ts ++ .symbol .rightBrace :: rest → Gives (readStmts c) body rest) :
    Gives (readBranches c) [.mk .otherwise body] rest := by
  obtain ⟨_, _, _, _, rfl, hahead⟩ := eq_of_ahead hc
  rw [readBranches]
  exact .bind (readBlock_inBraces hahead h) fun _ _ hrest => .pure hrest

mutual

/-- Every statement that can be written is read back. -/
theorem readStmt_tokens : (s : Stmt) → s.isWritable = true → {c : Cursor} → {rest : List Token} →
    c.ahead = s.tokens extra ++ rest → Gives (readStmt c) s rest
  | assign name value, h, c, rest, hc => by
    obtain ⟨-, hvalue⟩ := Bool.and_eq_true_iff.1 h
    rw [tokens, List.cons_append, List.cons_append, List.append_assoc] at hc
    exact readStmt_assign hc fun _ hahead =>
      (value.reads_tokens hvalue).alone hahead (stops_of_endsExpr rfl)
  | loop condition body, h, c, rest, hc => by
    obtain ⟨hcondition, hbody⟩ := Bool.and_eq_true_iff.1 h
    rw [tokens, List.cons_append, List.append_assoc] at hc
    refine readStmt_loop hc (fun _ hahead => ?_) fun _ => readStmts_tokens body hbody
    exact (condition.reads_tokens hcondition).alone hahead (stops_of_endsExpr rfl)
  | choose [], h, _, _, _ => nomatch h
  | choose (.mk (.when condition) body :: others), h, c, rest, hc => by
    simp only [isWritable, branchesWritable, Bool.and_eq_true] at h
    rw [tokens, branchTokens, List.cons_append, List.append_assoc, List.append_assoc] at hc
    refine readStmt_choose hc (fun _ hahead => ?_) fun _ => readBranches_tokens others h.2
    exact readBranch_tokens h.1.1 hahead fun _ => readStmts_tokens body h.1.2
  | choose (.mk .otherwise body :: others), h, _, _, _ => nomatch h
  | call kind name args, h, c, rest, hc => by
    obtain ⟨-, hargs⟩ := Bool.and_eq_true_iff.1 h
    rw [tokens, List.append_assoc, List.cons_append, List.append_assoc] at hc
    exact readStmt_call hc (Expr.readArgs_tokens (Expr.reads_argTokens args hargs))
  | give none, _, c, rest, hc => readStmt_giveUnit hc
  | give (some value), h, c, rest, hc => by
    rw [tokens, List.cons_append, List.append_assoc] at hc
    exact readStmt_give hc fun _ hahead =>
      (value.reads_tokens h).alone hahead (stops_of_endsExpr rfl)

/-- Statements up to the closing brace. -/
theorem readStmts_tokens : (ss : List Stmt) → allWritable ss = true → {c : Cursor} →
    {rest : List Token} → c.ahead = allTokens extra ss ++ .symbol .rightBrace :: rest →
    Gives (readStmts c) ss rest
  | [], _, c, rest, hc => readStmts_nil hc
  | s :: ss, h, c, rest, hc => by
    obtain ⟨hs, hss⟩ := Bool.and_eq_true_iff.1 h
    rw [allTokens, List.append_assoc] at hc
    exact readStmts_cons (readStmt_tokens s hs hc) fun _ => readStmts_tokens ss hss

/-- The further branches of a conditional. -/
theorem readBranches_tokens : (branches : List Branch) → branchesWritable false branches = true →
    {c : Cursor} → {rest : List Token} → c.ahead = branchTokens extra .elseIf branches ++ rest →
    Gives (readBranches c) branches rest
  | [], h, _, _, _ => nomatch h
  | .mk (.when condition) body :: others, h, c, rest, hc => by
    simp only [branchesWritable, Bool.and_eq_true] at h
    rw [branchTokens, List.cons_append, List.append_assoc, List.append_assoc] at hc
    refine readBranches_elseIf hc (fun _ hahead => ?_) fun _ => readBranches_tokens others h.2
    exact readBranch_tokens h.1.1 hahead fun _ => readStmts_tokens body h.1.2
  | .mk .otherwise body :: others, h, c, rest, hc => by
    simp only [branchesWritable, Bool.and_eq_true, List.isEmpty_iff] at h
    obtain ⟨⟨-, hbody⟩, rfl⟩ := h
    rw [branchTokens, branchTokens, List.append_nil] at hc
    exact readBranches_otherwise hc fun _ => readStmts_tokens body hbody

end

end Stmt

/-! ## Functions -/

/-- Parameters behind those in `before`, and the closing parenthesis. -/
theorem readMoreParams_tokens (function : String) : (names before : List String) → names ≠ [] →
    (before ++ names).Nodup → {c : Cursor} → {rest : List Token} →
    c.ahead = Function.paramTokens names ++ .symbol .rightParen :: rest →
    Gives (readMoreParams function before c) (before ++ names) rest
  | [], _, hne, _, _, _, _ => absurd rfl hne
  | [name], before, _, hnodup, c, rest, hc => by
    have hnew : name ∉ before := fun hmem =>
      (List.nodup_append.1 hnodup).2.2 name hmem name List.mem_cons_self rfl
    rw [readMoreParams]
    refine .bind (gives_expectName hc) fun cursor _ hcursor => ?_
    obtain ⟨_, _, _, _, rfl, rfl⟩ := eq_of_ahead hcursor
    dsimp only
    rw [if_neg hnew]
    exact .pure rfl
  | name :: name' :: names, before, _, hnodup, c, rest, hc => by
    have hnew : name ∉ before := fun hmem =>
      (List.nodup_append.1 hnodup).2.2 name hmem name List.mem_cons_self rfl
    rw [List.append_cons] at hnodup ⊢
    rw [readMoreParams]
    refine .bind (gives_expectName hc) fun cursor _ hcursor => ?_
    obtain ⟨_, _, _, _, rfl, hahead⟩ := eq_of_ahead hcursor
    dsimp only
    rw [if_neg hnew]
    refine .bind (gives_expectSymbol hcursor) fun cursor _ hcomma => ?_
    exact .bind (readMoreParams_tokens function (name' :: names) (before ++ [name])
      (List.cons_ne_nil name' names) hnodup hcomma) fun _ _ hrest => .pure hrest

theorem readParams_tokens (function : String) {names : List String} (hnodup : names.Nodup)
    (hc : c.ahead = Function.paramTokens names ++ .symbol .rightParen :: rest) :
    Gives (readParams function c) names rest := by
  cases names with
  | nil =>
    obtain ⟨_, _, _, _, rfl, rfl⟩ := eq_of_ahead hc
    exact .pure rfl
  | cons name names =>
    have hparams := readMoreParams_tokens function (name :: names) [] nofun hnodup hc
    have hpeek : c.peek = some (.ident name) := by
      rw [peek_eq_head, hc]
      cases names <;> rfl
    rw [readParams]
    split
    · next hparen => cases hpeek.symm.trans hparen
    · exact hparams

/-- A function, whatever its place. -/
theorem readFunction_inBraces {f : Function} (hnodup : f.params.Nodup)
    (hc : c.ahead = .keyword .function :: .ident f.name ::
      (inParens (Function.paramTokens f.params) ++ (inBraces ts ++ rest)))
    (h : ∀ c : Cursor, c.ahead = ts ++ .symbol .rightBrace :: rest →
      Gives (readStmts c) f.body rest) :
    ∃ span, Gives (readFunction c) { f with span } rest := by
  rw [inParens] at hc
  simp only [List.cons_append, List.append_assoc, List.nil_append] at hc
  obtain ⟨_, _, _, _, rfl, hahead⟩ := eq_of_ahead hc
  rw [readFunction]
  refine Gives.bind_exists (gives_expectName hahead) fun _ _ hopening => ?_
  refine Gives.bind_exists (gives_expectSymbol hopening) fun _ _ hparams => ?_
  refine Gives.bind_exists (readParams_tokens f.name hnodup hparams) fun _ _ hblock => ?_
  refine Gives.bind_exists (Stmt.readBlock_inBraces hblock h) fun _ _ hrest => ?_
  exact ⟨_, .pure hrest⟩

/-- Every function that can be written is read back, apart from its place. -/
theorem readFunction_tokens {extra : Expr → Bool} {f : Function} (h : f.isWritable = true)
    (hc : c.ahead = f.tokens extra ++ rest) :
    ∃ span, Gives (readFunction c) { f with span } rest := by
  simp only [Function.isWritable, Bool.and_eq_true, decide_eq_true_eq] at h
  obtain ⟨⟨-, hnodup⟩, hbody⟩ := h
  rw [Function.tokens, List.cons_append, List.cons_append, List.append_assoc] at hc
  exact readFunction_inBraces hnodup hc fun _ => Stmt.readStmts_tokens f.body hbody

theorem readFunctions_nil {allowed : Nat} (hc : c.ahead = []) :
    readFunctions (allowed + 1) c = ⟨⟨[]⟩, []⟩ := by
  have hpeek : c.peek = none := by rw [peek_eq_head, hc]; rfl
  rw [readFunctions.eq_def, hpeek]

theorem readFunctions_cons {allowed : Nat} {f : Read Function c.remaining}
    (h : readFunction c = .ok f) :
    readFunctions (allowed + 1) c =
      ⟨⟨f.value :: (readFunctions (allowed + 1) f.cursor).script.functions⟩,
        (readFunctions (allowed + 1) f.cursor).errors⟩ := by
  rw [readFunctions.eq_def]
  cases hpeek : c.peek with
  | none =>
    -- Where nothing is left, no function is read.
    rw [readFunction.eq_def] at h
    split at h
    · next hfunction => cases hpeek.symm.trans hfunction
    · exact nomatch h
  | some t =>
    dsimp only
    rw [h]

theorem readFunctions_tokens {extra : Expr → Bool} (allowed : Nat) : (fs : List Function) →
    (∀ f ∈ fs, f.isWritable = true) → {c : Cursor} →
    c.ahead = fs.flatMap (Function.tokens extra) →
    (readFunctions (allowed + 1) c).errors = [] ∧
      (readFunctions (allowed + 1) c).script.unplaced = Script.unplaced ⟨fs⟩
  | [], _, c, hc => by
    rw [readFunctions_nil hc]
    exact ⟨rfl, rfl⟩
  | f :: fs, hfs, c, hc => by
    obtain ⟨hf, hfs⟩ := List.forall_mem_cons.1 hfs
    obtain ⟨span, cursor, progress, hread, hahead⟩ := readFunction_tokens hf hc
    obtain ⟨herrors, hscript⟩ := readFunctions_tokens allowed fs hfs hahead
    rw [readFunctions_cons hread]
    refine ⟨herrors, ?_⟩
    exact congrArg (fun rest => Script.mk (f.unplaced :: rest.functions)) hscript

/-! ## Scripts -/

namespace Script

variable {extra : Expr → Bool} {s : Script}

/-- The text of a script is read as the script. -/
theorem exists_ofSource_render (hs : s.isWritable = true) :
    ∃ read, ofSource (s.render extra) = .ok read ∧ read.unplaced = s.unplaced := by
  have hspellable : Spellable (s.tokens extra) := tokens_spellable hs
  obtain ⟨hfound, hscanned⟩ := scan_spell hspellable
  have hahead : (start (scan (s.render extra)).tokens).ahead = s.tokens extra := hfound
  obtain ⟨hparsed, hscript⟩ :=
    readFunctions_tokens (maxErrors - 1) s.functions (List.all_eq_true.1 hs) hahead
  refine ⟨_, ?_, hscript⟩
  rw [ofSource]
  exact if_pos ⟨by rw [render, hscanned]; rfl, List.isEmpty_iff.2 hparsed⟩

/-- Writing and reading: the text of a script, with every part of an expression that an operator
    makes and every negative constant in parentheses (and any further ones), is read without an
    error, and as this script but for the places of its functions. -/
theorem ofSource_render (extra : Expr → Bool) {s : Script} (hs : s.isWritable = true) :
    (ofSource (s.render extra)).map unplaced = .ok s.unplaced := by
  obtain ⟨read, hread, heq⟩ := exists_ofSource_render hs
  rw [hread, ← heq]
  rfl

/-- A script with what is easily read as something else: the least integer, a negated constant
    beside a negative one, fields of a number, names that start like keywords, a text that
    looks like a comment. -/
def knotted : Script :=
  ⟨[{ name := "f", params := ["a", "elsewhere"], body := [
      .assign "least" (.literal (.int (-2147483648))),
      .assign "x" (.binary .subtract (.literal (.int (-1))) (.negate (.literal (.int 1)))),
      .assign "y" (.access (.access (.literal (.int 5)) "e") "elsif1"),
      .choose [
        .mk (.when (.binary .lessThan (.not (.ident "x")) (.negate (.negate (.ident "a")))))
          [.loop (.literal (.bool true)) [.call .external "print" [.literal (.text "// no \\")]]],
        .mk (.when (.functionRef "f")) [.give none],
        .mk .otherwise []],
      .give (some (.call .internal "f" [.call .external "g" [],
        .binary .divide (.ident "x") (.access (.literal (.int (-7))) "y")]))] },
    { name := "g", params := [], body := [] }]⟩

theorem ofSource_render_knotted :
    knotted.isWritable = true ∧
      (ofSource (knotted.render fun _ => false)).map unplaced = .ok knotted :=
  ⟨by decide, ofSource_render (fun _ => false) (by decide)⟩

end Script

end ScriptMachine
