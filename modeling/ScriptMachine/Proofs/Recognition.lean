import ScriptMachine.Proofs.Derived

/-!
# Reading accepts the grammar

What is read without an error derives from the grammar, and together with the converse the
readers accept exactly the grammar. Whatever a reader succeeds with, it has taken tokens that
are a phrase for what it gives (`Takes`): no token is passed over, and none is looked at twice
in different ways. The proofs follow the readers, with their measures; the left operand with
which `readChain` goes on is the left operand of the chain.

A derivation determines the tree: two trees of one list of tokens are both the one that is read.

* `takes_readLevel`, `takes_readStmt`: what is read is a phrase.
* `Script.ofTokens_recognizes`: tokens are read without an error if and only if they are a
  script, and then the tree is that of the derivation.
-/

namespace ScriptMachine

namespace Grammar

open Cursor

variable {α β : Type} {n : Nat} {c : Cursor}

/-! ## Taking tokens -/

theorem read_of_bind {x : Except Failure α} {f : α → Except Failure β} {b : β}
    (h : (x >>= f) = .ok b) : ∃ a, x = .ok a ∧ f a = .ok b := by
  cases x with
  | error e => cases h
  | ok a => exact ⟨a, rfl, h⟩

theorem ahead_of_peek {t : Token} (h : c.peek = some t) : c.ahead = t :: c.advance.ahead := by
  rw [peek_eq_head] at h
  obtain ⟨ts, hts⟩ := List.head?_eq_some_iff.1 h
  rw [ahead_advance hts, hts]

theorem ahead_of_expectSymbol {s : Symbol} {read : Read Unit c.remaining}
    (h : c.expectSymbol s = .ok read) : c.ahead = .symbol s :: read.cursor.ahead := by
  rw [expectSymbol, expect] at h
  split at h
  · next t hpeek =>
    split at h
    · next ht =>
      obtain rfl := Except.ok.inj h
      rw [← ht]
      exact ahead_of_peek hpeek
    · cases h
  · cases h

theorem ahead_of_expectName {read : Read String c.remaining} (h : c.expectName = .ok read) :
    c.ahead = .ident read.value :: read.cursor.ahead := by
  rw [expectName] at h
  split at h
  · next name hpeek =>
    obtain rfl := Except.ok.inj h
    exact ahead_of_peek hpeek
  · cases h

/-- What was read at a cursor was taken from tokens that are a phrase for it. -/
def Takes (Phrase : List Token → α → Prop) (c : Cursor) (read : Read α n) : Prop :=
  ∃ ts, c.ahead = ts ++ read.cursor.ahead ∧ Phrase ts read.value

/-! ## Expressions -/

theorem takes_readFields {object : Expr} {c : Cursor} {read : Read Expr (c.remaining + 1)}
    (h : readFields object c = .ok read) : Takes (IsFields object) c read := by
  rw [readFields] at h
  split at h
  · next hpeek =>
    obtain ⟨field, hfield, h⟩ := read_of_bind h
    obtain ⟨all, hall, h⟩ := read_of_bind h
    obtain rfl := Except.ok.inj h
    have := remaining_advance_lt hpeek
    have := field.progress
    obtain ⟨ts, hts, hall⟩ := takes_readFields hall
    refine ⟨.symbol .dot :: .ident field.value :: ts, ?_, .cons hall⟩
    rw [ahead_of_peek hpeek, ahead_of_expectName hfield, hts]
    rfl
  · obtain rfl := Except.ok.inj h
    exact ⟨[], rfl, .nil⟩
termination_by c.remaining

theorem levelOperator_eq_some {level : Nat} {s : Symbol} {op : BinaryOp}
    (h : levelOperator level s = some op) : level = op.level ∧ s = op.symbol := by
  rw [levelOperator.eq_def] at h
  split at h <;> cases h <;> exact ⟨rfl, rfl⟩

theorem ahead_of_operatorAt {level : Nat} {op : BinaryOp} (h : operatorAt level c = some op) :
    level = op.level ∧ c.ahead = .symbol op.symbol :: c.advance.ahead := by
  rw [operatorAt] at h
  split at h
  · next s hs =>
    obtain ⟨hlevel, rfl⟩ := levelOperator_eq_some h
    exact ⟨hlevel, ahead_of_peek hs⟩
  · cases h

mutual

theorem takes_readLevel {level : Nat} {c : Cursor} {read : Read Expr c.remaining}
    (hlevel : level ≤ 6) (h : readLevel level c = .ok read) : Takes (IsLevel level) c read := by
  rw [readLevel] at h
  split at h
  · next hlt =>
    obtain ⟨first, hfirst, h⟩ := read_of_bind h
    obtain ⟨all, hall, h⟩ := read_of_bind h
    obtain rfl := Except.ok.inj h
    have := first.progress
    obtain ⟨ts, hts, hfirst⟩ := takes_readLevel hlt hfirst
    obtain ⟨ts', hts', hall⟩ := takes_readChain hlt hall
    exact ⟨ts ++ ts', by rw [hts, hts', List.append_assoc], .chain hlt hfirst hall⟩
  · next hge =>
    obtain rfl : level = 6 := by omega
    obtain ⟨ts, hts, h⟩ := takes_readOperand h
    exact ⟨ts, hts, .unary h⟩
termination_by 20 * c.remaining + 4 + (6 - level)

theorem takes_readChain {level : Nat} {left : Expr} {c : Cursor}
    {read : Read Expr (c.remaining + 1)} (hlevel : level < 6)
    (h : readChain level left c = .ok read) : Takes (IsChain level left) c read := by
  rw [readChain] at h
  split at h
  · next op hop =>
    obtain ⟨right, hright, h⟩ := read_of_bind h
    obtain ⟨all, hall, h⟩ := read_of_bind h
    obtain rfl := Except.ok.inj h
    have := remaining_advance_lt_of_operatorAt hop
    have := right.progress
    obtain ⟨rfl, hc⟩ := ahead_of_operatorAt hop
    obtain ⟨ts, hts, hright⟩ := takes_readLevel hlevel hright
    obtain ⟨ts', hts', hall⟩ := takes_readChain hlevel hall
    refine ⟨.symbol op.symbol :: (ts ++ ts'), ?_, .cons hright hall⟩
    rw [hc, hts, hts', List.cons_append, List.append_assoc]
  · obtain rfl := Except.ok.inj h
    exact ⟨[], rfl, .nil⟩
termination_by 20 * c.remaining + 3

theorem takes_readOperand {c : Cursor} {read : Read Expr c.remaining}
    (h : readOperand c = .ok read) : Takes IsUnary c read := by
  rw [readOperand] at h
  split at h
  · next hpeek =>
    obtain ⟨operand, hoperand, h⟩ := read_of_bind h
    obtain rfl := Except.ok.inj h
    have := remaining_advance_lt hpeek
    obtain ⟨ts, hts, hoperand⟩ := takes_readOperand hoperand
    exact ⟨.symbol .bang :: ts, by rw [ahead_of_peek hpeek, hts]; rfl, .not hoperand⟩
  · next hpeek =>
    have := remaining_advance_lt hpeek
    have hc := ahead_of_peek hpeek
    dsimp only at h
    split at h
    · next hnumber =>
      obtain rfl := Except.ok.inj h
      exact ⟨[_, _], by rw [hc, ahead_of_peek hnumber]; rfl, .negativeInt⟩
    · next hnumber =>
      obtain rfl := Except.ok.inj h
      exact ⟨[_, _], by rw [hc, ahead_of_peek hnumber]; rfl, .negativeFloat⟩
    · next hint hfloat =>
      obtain ⟨operand, hoperand, h⟩ := read_of_bind h
      obtain rfl := Except.ok.inj h
      obtain ⟨ts, hts, hoperand⟩ := takes_readOperand hoperand
      refine ⟨.symbol .minus :: ts, by rw [hc, hts]; rfl, .negate ?_ hoperand⟩
      rw [peek_eq_head, hts] at hint hfloat
      unfold startsWithNumber
      split
      · next n ts => exact absurd rfl (hint n)
      · next x ts => exact absurd rfl (hfloat x)
      · rfl
  · obtain ⟨atom, hatom, h⟩ := read_of_bind h
    obtain ⟨all, hall, h⟩ := read_of_bind h
    obtain rfl := Except.ok.inj h
    obtain ⟨ts, hts, hatom⟩ := takes_readAtom hatom
    obtain ⟨ts', hts', hall⟩ := takes_readFields hall
    exact ⟨ts ++ ts', by rw [hts, hts', List.append_assoc], .fields hatom hall⟩
termination_by 20 * c.remaining + 2

theorem takes_readAtom {c : Cursor} {read : Read Expr c.remaining}
    (h : readAtom c = .ok read) : Takes IsAtom c read := by
  rw [readAtom] at h
  split at h
  · next n hpeek =>
    split at h
    · next hn =>
      obtain rfl := Except.ok.inj h
      exact ⟨[.int n], ahead_of_peek hpeek, .int hn⟩
    · cases h
  · next hpeek =>
    obtain rfl := Except.ok.inj h
    exact ⟨[_], ahead_of_peek hpeek, .float⟩
  · next hpeek =>
    obtain rfl := Except.ok.inj h
    exact ⟨[_], ahead_of_peek hpeek, .text⟩
  · next hpeek =>
    obtain rfl := Except.ok.inj h
    exact ⟨[_], ahead_of_peek hpeek, .yes⟩
  · next hpeek =>
    obtain rfl := Except.ok.inj h
    exact ⟨[_], ahead_of_peek hpeek, .no⟩
  · next hpeek =>
    obtain ⟨name, hname, h⟩ := read_of_bind h
    obtain rfl := Except.ok.inj h
    refine ⟨[_, _], ?_, .functionRef⟩
    rw [ahead_of_peek hpeek, ahead_of_expectName hname]
    rfl
  · next hpeek =>
    obtain ⟨inner, hinner, h⟩ := read_of_bind h
    obtain ⟨closing, hclosing, h⟩ := read_of_bind h
    obtain rfl := Except.ok.inj h
    have := remaining_advance_lt hpeek
    obtain ⟨ts, hts, hinner⟩ := takes_readLevel (Nat.zero_le 6) hinner
    refine ⟨inParens ts, ?_, .parens hinner⟩
    rw [ahead_of_peek hpeek, hts, ahead_of_expectSymbol hclosing]
    simp [inParens]
  · next hpeek =>
    obtain ⟨name, hname, h⟩ := read_of_bind h
    obtain ⟨args, hargs, h⟩ := read_of_bind h
    obtain rfl := Except.ok.inj h
    have := remaining_advance_lt hpeek
    have := name.progress
    obtain ⟨ts, hts, hargs⟩ := takes_readArgs hargs
    refine ⟨_, ?_, .call (@IsCall.mk .external _ _ _ hargs)⟩
    rw [ahead_of_peek hpeek, ahead_of_expectName hname, hts]
    rfl
  · next name hpeek =>
    have := remaining_advance_lt hpeek
    dsimp only at h
    split at h
    · obtain ⟨args, hargs, h⟩ := read_of_bind h
      obtain rfl := Except.ok.inj h
      obtain ⟨ts, hts, hargs⟩ := takes_readArgs hargs
      refine ⟨_, ?_, .call (@IsCall.mk .internal _ _ _ hargs)⟩
      rw [ahead_of_peek hpeek, hts]
      rfl
    · obtain rfl := Except.ok.inj h
      exact ⟨[.ident name], ahead_of_peek hpeek, .ident⟩
  · cases h
termination_by 20 * c.remaining + 1

theorem takes_readArgs {c : Cursor} {read : Read (List Expr) c.remaining}
    (h : readArgs c = .ok read) :
    ∃ ts, c.ahead = inParens ts ++ read.cursor.ahead ∧ IsArgs ts read.value := by
  rw [readArgs] at h
  obtain ⟨opening, hopening, h⟩ := read_of_bind h
  have := opening.progress
  dsimp only at h
  split at h
  · next hpeek =>
    obtain rfl := Except.ok.inj h
    refine ⟨[], ?_, .none⟩
    rw [ahead_of_expectSymbol hopening, ahead_of_peek hpeek]
    rfl
  · obtain ⟨args, hargs, h⟩ := read_of_bind h
    obtain rfl := Except.ok.inj h
    obtain ⟨ts, hts, hargs⟩ := takes_readMoreArgs hargs
    refine ⟨ts, ?_, .some hargs⟩
    rw [ahead_of_expectSymbol hopening, hts]
    simp [inParens]
termination_by 20 * c.remaining

theorem takes_readMoreArgs {c : Cursor} {read : Read (List Expr) c.remaining}
    (h : readMoreArgs c = .ok read) :
    ∃ ts, c.ahead = ts ++ .symbol .rightParen :: read.cursor.ahead ∧ IsMoreArgs ts read.value := by
  rw [readMoreArgs] at h
  obtain ⟨first, hfirst, h⟩ := read_of_bind h
  have := first.progress
  obtain ⟨ts, hts, hfirst⟩ := takes_readLevel (Nat.zero_le 6) hfirst
  dsimp only at h
  split at h
  · next hpeek =>
    obtain rfl := Except.ok.inj h
    exact ⟨ts, by rw [hts, ahead_of_peek hpeek], .one hfirst⟩
  · obtain ⟨comma, hcomma, h⟩ := read_of_bind h
    obtain ⟨others, hothers, h⟩ := read_of_bind h
    obtain rfl := Except.ok.inj h
    have := comma.progress
    obtain ⟨ts', hts', hothers⟩ := takes_readMoreArgs hothers
    refine ⟨ts ++ .symbol .comma :: ts', ?_, .cons hfirst hothers⟩
    rw [hts, ahead_of_expectSymbol hcomma, hts', List.append_assoc]
    rfl
termination_by 20 * c.remaining + 15

end

/-! ## Statements -/

mutual

theorem takes_readStmt {c : Cursor} {read : Read Stmt c.remaining} (h : readStmt c = .ok read) :
    Takes IsStmt c read := by
  rw [readStmt] at h
  split at h
  · next hpeek =>
    obtain ⟨first, hfirst, h⟩ := read_of_bind h
    obtain ⟨others, hothers, h⟩ := read_of_bind h
    obtain rfl := Except.ok.inj h
    have := remaining_advance_lt hpeek
    have := first.progress
    obtain ⟨cond, block, condition, body, hc, hvalue, hcond, hbody⟩ := takes_readBranch hfirst
    obtain ⟨tail, htail, hothers⟩ := takes_readBranches hothers
    refine ⟨.keyword .ifThen :: (cond ++ (inBraces block ++ tail)), ?_, ?_⟩
    · rw [ahead_of_peek hpeek, hc, htail]
      simp only [List.cons_append, List.append_assoc]
    · rw [hvalue]
      exact .choose hcond hbody hothers
  · next hpeek =>
    obtain ⟨condition, hcond, h⟩ := read_of_bind h
    obtain ⟨body, hbody, h⟩ := read_of_bind h
    obtain rfl := Except.ok.inj h
    have := remaining_advance_lt hpeek
    have := condition.progress
    obtain ⟨cond, hc, hcond⟩ := takes_readLevel (Nat.zero_le 6) hcond
    obtain ⟨block, hblock, hbody⟩ := takes_readBlock hbody
    refine ⟨.keyword .loop :: (cond ++ inBraces block), ?_, .loop hcond hbody⟩
    rw [ahead_of_peek hpeek, hc, hblock, List.cons_append, List.append_assoc]
  · next hpeek =>
    dsimp only at h
    split at h
    · next hclosing =>
      obtain rfl := Except.ok.inj h
      refine ⟨[.keyword .give, .symbol .semicolon], ?_, .giveUnit⟩
      rw [ahead_of_peek hpeek, ahead_of_peek hclosing]
      rfl
    · obtain ⟨value, hvalue, h⟩ := read_of_bind h
      obtain ⟨closing, hclosing, h⟩ := read_of_bind h
      obtain rfl := Except.ok.inj h
      obtain ⟨ts, hc, hvalue⟩ := takes_readLevel (Nat.zero_le 6) hvalue
      refine ⟨.keyword .give :: (ts ++ [.symbol .semicolon]), ?_, .give hvalue⟩
      rw [ahead_of_peek hpeek, hc, ahead_of_expectSymbol hclosing]
      simp
  · next name hpeek =>
    dsimp only at h
    split at h
    · next hassign =>
      obtain ⟨value, hvalue, h⟩ := read_of_bind h
      obtain ⟨closing, hclosing, h⟩ := read_of_bind h
      obtain rfl := Except.ok.inj h
      obtain ⟨ts, hc, hvalue⟩ := takes_readLevel (Nat.zero_le 6) hvalue
      refine ⟨.ident name :: .symbol .assign :: (ts ++ [.symbol .semicolon]), ?_, .assign hvalue⟩
      rw [ahead_of_peek hpeek, ahead_of_peek hassign, hc, ahead_of_expectSymbol hclosing]
      simp
    · obtain ⟨args, hargs, h⟩ := read_of_bind h
      obtain ⟨closing, hclosing, h⟩ := read_of_bind h
      obtain rfl := Except.ok.inj h
      obtain ⟨ts, hc, hargs⟩ := takes_readArgs hargs
      refine ⟨_, ?_, .call (@IsCall.mk .internal _ _ _ hargs)⟩
      rw [ahead_of_peek hpeek, hc, ahead_of_expectSymbol hclosing]
      simp [CallKind.marks]
  · next hpeek =>
    obtain ⟨name, hname, h⟩ := read_of_bind h
    obtain ⟨args, hargs, h⟩ := read_of_bind h
    obtain ⟨closing, hclosing, h⟩ := read_of_bind h
    obtain rfl := Except.ok.inj h
    obtain ⟨ts, hc, hargs⟩ := takes_readArgs hargs
    refine ⟨_, ?_, .call (@IsCall.mk .external _ _ _ hargs)⟩
    rw [ahead_of_peek hpeek, ahead_of_expectName hname, hc, ahead_of_expectSymbol hclosing]
    simp [CallKind.marks]
  · cases h
termination_by 4 * c.remaining

/-- A condition and the block that it guards. -/
theorem takes_readBranch {c : Cursor} {read : Read Branch c.remaining}
    (h : readBranch c = .ok read) :
    ∃ cond block condition body, c.ahead = cond ++ (inBraces block ++ read.cursor.ahead) ∧
      read.value = .mk (.when condition) body ∧ IsExpr cond condition ∧ IsStmts block body := by
  rw [readBranch] at h
  obtain ⟨condition, hcond, h⟩ := read_of_bind h
  obtain ⟨body, hbody, h⟩ := read_of_bind h
  obtain rfl := Except.ok.inj h
  have := condition.progress
  obtain ⟨cond, hc, hcond⟩ := takes_readLevel (Nat.zero_le 6) hcond
  obtain ⟨block, hblock, hbody⟩ := takes_readBlock hbody
  exact ⟨cond, block, _, _, by rw [hc, hblock], rfl, hcond, hbody⟩
termination_by 4 * c.remaining + 2

theorem takes_readBranches {c : Cursor} {read : Read (List Branch) (c.remaining + 1)}
    (h : readBranches c = .ok read) : Takes IsBranches c read := by
  rw [readBranches] at h
  split at h
  · next hpeek =>
    obtain ⟨first, hfirst, h⟩ := read_of_bind h
    obtain ⟨others, hothers, h⟩ := read_of_bind h
    obtain rfl := Except.ok.inj h
    have := remaining_advance_lt hpeek
    have := first.progress
    obtain ⟨cond, block, condition, body, hc, hvalue, hcond, hbody⟩ := takes_readBranch hfirst
    obtain ⟨tail, htail, hothers⟩ := takes_readBranches hothers
    refine ⟨.keyword .elseIf :: (cond ++ (inBraces block ++ tail)), ?_, ?_⟩
    · rw [ahead_of_peek hpeek, hc, htail]
      simp only [List.cons_append, List.append_assoc]
    · rw [hvalue]
      exact .elseIf hcond hbody hothers
  · next hpeek =>
    obtain ⟨body, hbody, h⟩ := read_of_bind h
    obtain rfl := Except.ok.inj h
    have := remaining_advance_lt hpeek
    obtain ⟨block, hblock, hbody⟩ := takes_readBlock hbody
    exact ⟨.keyword .otherwise :: inBraces block, by rw [ahead_of_peek hpeek, hblock]; rfl,
      .otherwise hbody⟩
  · obtain rfl := Except.ok.inj h
    exact ⟨[], rfl, .missing⟩
termination_by 4 * c.remaining + 3

theorem takes_readBlock {c : Cursor} {read : Read (List Stmt) c.remaining}
    (h : readBlock c = .ok read) :
    ∃ ts, c.ahead = inBraces ts ++ read.cursor.ahead ∧ IsStmts ts read.value := by
  rw [readBlock] at h
  obtain ⟨opening, hopening, h⟩ := read_of_bind h
  obtain ⟨body, hbody, h⟩ := read_of_bind h
  obtain rfl := Except.ok.inj h
  have := opening.progress
  obtain ⟨ts, hts, hbody⟩ := takes_readStmts hbody
  refine ⟨ts, ?_, hbody⟩
  rw [ahead_of_expectSymbol hopening, hts]
  simp [inBraces]
termination_by 4 * c.remaining + 1

theorem takes_readStmts {c : Cursor} {read : Read (List Stmt) c.remaining}
    (h : readStmts c = .ok read) :
    ∃ ts, c.ahead = ts ++ .symbol .rightBrace :: read.cursor.ahead ∧ IsStmts ts read.value := by
  rw [readStmts] at h
  split at h
  · next hpeek =>
    obtain rfl := Except.ok.inj h
    exact ⟨[], ahead_of_peek hpeek, .nil⟩
  · cases h
  · obtain ⟨first, hfirst, h⟩ := read_of_bind h
    obtain ⟨others, hothers, h⟩ := read_of_bind h
    obtain rfl := Except.ok.inj h
    have := first.progress
    obtain ⟨ts, hts, hfirst⟩ := takes_readStmt hfirst
    obtain ⟨ts', hts', hothers⟩ := takes_readStmts hothers
    exact ⟨ts ++ ts', by rw [hts, hts', List.append_assoc], .cons hfirst hothers⟩
termination_by 4 * c.remaining + 1

end

/-! ## Scripts -/

/-- Parameters behind those in `before`: they are new, and differ from each other. -/
theorem takes_readMoreParams {function : String} {before : List String} {c : Cursor}
    {read : Read (List String) c.remaining} (h : readMoreParams function before c = .ok read)
    (hbefore : before.Nodup) :
    ∃ names, c.ahead = Function.paramTokens names ++ .symbol .rightParen :: read.cursor.ahead ∧
      read.value = before ++ names ∧ (before ++ names).Nodup ∧ names ≠ [] := by
  rw [readMoreParams] at h
  obtain ⟨param, hparam, h⟩ := read_of_bind h
  have := param.progress
  dsimp only at h
  split at h
  · cases h
  next hnew =>
  have hnodup : (before ++ [param.value]).Nodup := by
    rw [List.nodup_append]
    refine ⟨hbefore, List.pairwise_singleton _ param.value, fun x hx y hy => ?_⟩
    rintro rfl
    exact hnew (List.mem_singleton.1 hy ▸ hx)
  split at h
  · next hpeek =>
    obtain rfl := Except.ok.inj h
    refine ⟨[param.value], ?_, rfl, hnodup, List.cons_ne_nil _ _⟩
    rw [ahead_of_expectName hparam, ahead_of_peek hpeek]
    rfl
  · obtain ⟨comma, hcomma, h⟩ := read_of_bind h
    obtain ⟨all, hall, h⟩ := read_of_bind h
    obtain rfl := Except.ok.inj h
    have := comma.progress
    obtain ⟨names, hnames, hvalue, hall, hne⟩ := takes_readMoreParams hall hnodup
    refine ⟨param.value :: names, ?_, ?_, ?_, List.cons_ne_nil _ _⟩
    · rw [ahead_of_expectName hparam, ahead_of_expectSymbol hcomma, hnames]
      obtain ⟨name, names, rfl⟩ := List.exists_cons_of_ne_nil hne
      rfl
    · rw [hvalue, List.append_assoc]
      rfl
    · rw [List.append_assoc] at hall
      exact hall
termination_by c.remaining

theorem takes_readParams {function : String} {read : Read (List String) c.remaining}
    (h : readParams function c = .ok read) :
    c.ahead = Function.paramTokens read.value ++ .symbol .rightParen :: read.cursor.ahead ∧
      read.value.Nodup := by
  rw [readParams] at h
  split at h
  · next hpeek =>
    obtain rfl := Except.ok.inj h
    exact ⟨ahead_of_peek hpeek, List.nodup_nil⟩
  · obtain ⟨names, hnames, hvalue, hnodup, -⟩ := takes_readMoreParams h List.nodup_nil
    rw [hvalue]
    exact ⟨hnames, hnodup⟩

theorem takes_readFunction {read : Read Function c.remaining} (h : readFunction c = .ok read) :
    Takes (fun ts f => IsFunction ts f.unplaced) c read := by
  rw [readFunction] at h
  split at h
  · next hpeek =>
    obtain ⟨name, hname, h⟩ := read_of_bind h
    obtain ⟨opening, hopening, h⟩ := read_of_bind h
    obtain ⟨params, hparams, h⟩ := read_of_bind h
    obtain ⟨body, hbody, h⟩ := read_of_bind h
    obtain rfl := Except.ok.inj h
    obtain ⟨hclosing, hnodup⟩ := takes_readParams hparams
    obtain ⟨block, hblock, hbody⟩ := takes_readBlock hbody
    refine ⟨_, ?_, .mk hnodup hbody⟩
    rw [ahead_of_peek hpeek, ahead_of_expectName hname, ahead_of_expectSymbol hopening, hclosing,
      hblock]
    simp [inParens]
  · cases h

/-- Functions that are read without an error. -/
theorem isScript_of_readFunctions {allowed : Nat} {c : Cursor}
    (h : (readFunctions (allowed + 1) c).errors = []) :
    IsScript c.ahead (readFunctions (allowed + 1) c).script.unplaced := by
  rw [readFunctions.eq_def] at h ⊢
  cases hpeek : c.peek with
  | none =>
    rw [peek_eq_head, List.head?_eq_none_iff] at hpeek
    rw [hpeek]
    exact .nil
  | some t =>
    rw [hpeek] at h
    dsimp only at h ⊢
    cases hread : readFunction c with
    | error failure =>
      rw [hread] at h
      cases h
    | ok read =>
      rw [hread] at h
      have := read.progress
      obtain ⟨ts, hts, hf⟩ := takes_readFunction hread
      rw [hts]
      exact .cons hf (isScript_of_readFunctions h)
termination_by c.remaining

end Grammar

namespace Script

/-- Reading recognizes the grammar: any list of tokens is read without an error if and only if
    it derives from the grammar, and the only tree that it is derived for is the one that is
    read (in which functions also have their places). -/
theorem ofTokens_recognizes (tokens : List (Token × Span)) :
    ((ofTokens tokens).errors = [] ↔ ∃ s, Grammar.IsScript (tokens.map Prod.fst) s) ∧
      ∀ s, Grammar.IsScript (tokens.map Prod.fst) s ↔
        (ofTokens tokens).errors = [] ∧ s = (ofTokens tokens).script.unplaced := by
  have hsound : (ofTokens tokens).errors = [] →
      Grammar.IsScript (tokens.map Prod.fst) (ofTokens tokens).script.unplaced :=
    Grammar.isScript_of_readFunctions
  have hcomplete : ∀ {s}, Grammar.IsScript (tokens.map Prod.fst) s →
      (ofTokens tokens).errors = [] ∧ (ofTokens tokens).script.unplaced = s :=
    fun h => h.reads rfl (maxErrors - 1)
  refine ⟨⟨fun herrors => ⟨_, hsound herrors⟩, fun ⟨s, h⟩ => (hcomplete h).1⟩, fun s => ⟨?_, ?_⟩⟩
  · intro h
    obtain ⟨herrors, hscript⟩ := hcomplete h
    exact ⟨herrors, hscript.symm⟩
  · rintro ⟨herrors, rfl⟩
    exact hsound herrors

end Script

end ScriptMachine
