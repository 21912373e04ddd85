import ScriptMachine.Proofs.Grammar

/-!
# What derives is read

The readers follow the grammar, so that tokens that derive from it are read as the tree of the
derivation. A reader decides by one or two tokens how to go on, and a derivation does not tell
what stands behind its tokens; what may stand there is therefore a condition on the rest:

* an expression of a level has to stop there (`Stops`): in a derivation an operator follows only
  what is tighter than it (`IsChain.stops`);
* a conditional must not go on there (`EndsBranches`), which a statement or a closing brace
  guarantees (`IsStmts.endsBranches`).

* `IsLevel.reads`, `IsStmt.reads`: derived expressions and statements are read.
* `IsScript.reads`: derived scripts are read without an error.
-/

namespace ScriptMachine.Grammar

open Cursor

variable {c : Cursor} {ts rest : List Token}

/-! ## Expressions -/

theorem length_ahead (c : Cursor) : c.ahead.length = c.remaining := List.length_map Prod.fst

/-- Whatever is read has at least one token. -/
theorem ne_nil_of_gives {α : Type} {r : Reading α c} {a : α} (h : Gives r a rest)
    (hc : c.ahead = ts ++ rest) : ts ≠ [] := by
  obtain ⟨cursor, progress, -, rfl⟩ := h
  rintro rfl
  rw [← length_ahead, ← length_ahead, hc] at progress
  exact Nat.lt_irrefl _ progress

theorem IsFields.reads {object e : Expr} (h : IsFields object ts e) (hc : c.ahead = ts ++ rest)
    (hrest : Stops 6 rest) : Gives (readFields object c) e rest := by
  induction h generalizing c with
  | nil => exact hrest.readFields_eq _ hc
  | cons h ih =>
    obtain ⟨_, _, _, _, rfl, hahead⟩ := eq_of_ahead hc
    rw [readFields]
    refine .bind (gives_expectName hahead) fun cursor _ hcursor => ?_
    exact .bind (ih hcursor) fun _ _ hrest => .pure hrest

theorem IsFields.not_leftParen {object e : Expr} (h : IsFields object ts e)
    (hrest : Stops 6 rest) : (ts ++ rest).head? ≠ some (.symbol .leftParen) := by
  cases h with
  | nil => exact hrest.not_leftParen
  | cons h => exact nofun

/-- The operand before a chain ends where the chain starts. -/
theorem IsChain.stops {level : Nat} {left e : Expr} (h : IsChain level left ts e)
    (hrest : Stops level rest) : Stops (level + 1) (ts ++ rest) := by
  cases h with
  | nil => exact hrest.mono (Nat.le_succ level)
  | @cons op => exact stops_operator op

mutual

theorem IsLevel.reads : {level : Nat} → {ts : List Token} → {e : Expr} → IsLevel level ts e →
    {c : Cursor} → {rest : List Token} → c.ahead = ts ++ rest → Stops level rest →
    Gives (readLevel level c) e rest
  | _, _, _, .unary h, c, rest, hc, hrest => by
    rw [readLevel, if_neg (Nat.lt_irrefl 6)]
    exact h.reads hc hrest
  | _, _, _, .chain hlevel h hs, c, rest, hc, hrest => by
    rw [readLevel, if_pos hlevel]
    rw [List.append_assoc] at hc
    refine .bind (h.reads hc (hs.stops hrest)) fun _ _ hcursor => ?_
    exact .bind (hs.reads hcursor hrest) fun _ _ hrest => .pure hrest

theorem IsChain.reads : {level : Nat} → {left : Expr} → {ts : List Token} → {e : Expr} →
    IsChain level left ts e → {c : Cursor} → {rest : List Token} → c.ahead = ts ++ rest →
    Stops level rest → Gives (readChain level left c) e rest
  | _, _, _, _, .nil, _, _, hc, hrest => hrest.readChain_eq _ hc
  | _, _, _, _, @IsChain.cons op _ _ _ _ _ h hs, c, rest, hc, hrest => by
    rw [List.cons_append, List.append_assoc] at hc
    exact readChain_operator hc (fun _ hright => h.reads hright (hs.stops hrest))
      fun _ hchain => hs.reads hchain hrest

theorem IsUnary.reads : {ts : List Token} → {e : Expr} → IsUnary ts e →
    {c : Cursor} → {rest : List Token} → c.ahead = ts ++ rest → Stops 6 rest →
    Gives (readOperand c) e rest
  | _, _, .not h, c, rest, hc, hrest => by
    obtain ⟨_, _, _, _, rfl, hahead⟩ := eq_of_ahead hc
    rw [readOperand]
    exact .bind (h.reads hahead hrest) fun _ _ hrest => .pure hrest
  | _, _, .negate hts h, c, rest, hc, hrest => by
    have hread := h.reads (ahead_advance hc) hrest
    obtain ⟨t, ts, rfl⟩ := List.exists_cons_of_ne_nil (ne_nil_of_gives hread (ahead_advance hc))
    obtain ⟨_, _, _, _, rfl, hahead⟩ := eq_of_ahead hc
    obtain ⟨⟨_, _⟩, _, rfl, rfl, -⟩ := List.map_eq_cons_iff.1 hahead
    rw [readOperand]
    dsimp only [peek, advance, List.head?_cons, Option.map_some] at hread ⊢
    -- A number behind the minus would be part of a constant.
    split
    · next hpeek => cases hpeek; exact nomatch hts
    · next hpeek => cases hpeek; exact nomatch hts
    · exact hread.bind fun _ _ hrest => .pure hrest
  | _, _, .negativeInt, c, rest, hc, _ => by
    obtain ⟨_, _, _, _, rfl, hahead⟩ := eq_of_ahead hc
    obtain ⟨⟨_, _⟩, _, rfl, rfl, rfl⟩ := List.map_eq_cons_iff.1 hahead
    rw [readOperand]
    exact .pure rfl
  | _, _, .negativeFloat, c, rest, hc, _ => by
    obtain ⟨_, _, _, _, rfl, hahead⟩ := eq_of_ahead hc
    obtain ⟨⟨_, _⟩, _, rfl, rfl, rfl⟩ := List.map_eq_cons_iff.1 hahead
    rw [readOperand]
    exact .pure rfl
  | _, _, .fields h hs, c, rest, hc, hrest => by
    rw [List.append_assoc] at hc
    exact readOperand_of_readAtom (h.reads hc (hs.not_leftParen hrest)) fun _ hcursor =>
      hs.reads hcursor hrest

theorem IsAtom.reads : {ts : List Token} → {e : Expr} → IsAtom ts e →
    {c : Cursor} → {rest : List Token} → c.ahead = ts ++ rest →
    rest.head? ≠ some (.symbol .leftParen) → Gives (readAtom c) e rest
  | _, _, .int hn, c, rest, hc, _ => by
    obtain ⟨_, _, _, _, rfl, rfl⟩ := eq_of_ahead hc
    rw [readAtom]
    change Gives (if _ < maxInteger then _ else _) _ _
    rw [if_pos hn]
    exact .pure rfl
  | _, _, .float, c, rest, hc, _ => by
    obtain ⟨_, _, _, _, rfl, rfl⟩ := eq_of_ahead hc
    rw [readAtom]
    exact .pure rfl
  | _, _, .text, c, rest, hc, _ => by
    obtain ⟨_, _, _, _, rfl, rfl⟩ := eq_of_ahead hc
    rw [readAtom]
    exact .pure rfl
  | _, _, .yes, c, rest, hc, _ => by
    obtain ⟨_, _, _, _, rfl, rfl⟩ := eq_of_ahead hc
    rw [readAtom]
    exact .pure rfl
  | _, _, .no, c, rest, hc, _ => by
    obtain ⟨_, _, _, _, rfl, rfl⟩ := eq_of_ahead hc
    rw [readAtom]
    exact .pure rfl
  | _, _, .functionRef, _, _, hc, _ => readAtom_functionRef hc
  | _, _, .ident, _, _, hc, hrest => readAtom_ident hc hrest
  | _, _, .call (.mk h), c, rest, hc, _ => by
    rw [List.append_assoc] at hc
    exact readAtom_call hc fun _ hargs => h.reads hargs
  | _, _, .parens h, _, _, hc, _ =>
    readAtom_inParens hc fun _ hahead => h.reads hahead (stops_of_endsExpr rfl)

theorem IsArgs.reads : {ts : List Token} → {es : List Expr} → IsArgs ts es →
    {c : Cursor} → {rest : List Token} → c.ahead = inParens ts ++ rest →
    Gives (readArgs c) es rest
  | _, _, .none, _, _, hc => readArgs_none hc
  | _, _, .some h, _, _, hc => readArgs_some hc fun _ hahead => h.reads hahead

theorem IsMoreArgs.reads : {ts : List Token} → {es : List Expr} → IsMoreArgs ts es →
    {c : Cursor} → {rest : List Token} → c.ahead = ts ++ .symbol .rightParen :: rest →
    Gives (readMoreArgs c) es rest
  | _, _, .one h, _, _, hc => readMoreArgs_one (h.reads hc (stops_of_endsExpr rfl))
  | _, _, .cons h hs, c, rest, hc => by
    rw [List.append_assoc] at hc
    exact readMoreArgs_cons (h.reads hc (stops_of_endsExpr rfl)) fun _ hahead => hs.reads hahead

end

/-! ## Statements -/

/-- Tokens that do not go on with a conditional. -/
def EndsBranches (ts : List Token) : Prop :=
  ts.head? ≠ some (.keyword .elseIf) ∧ ts.head? ≠ some (.keyword .otherwise)

theorem IsStmt.endsBranches {s : Stmt} (h : IsStmt ts s) : EndsBranches (ts ++ rest) := by
  cases h with
  | choose | loop | giveUnit | give | assign => exact ⟨nofun, nofun⟩
  | @call kind _ _ _ h =>
    cases h
    cases kind <;> exact ⟨nofun, nofun⟩

theorem IsStmts.endsBranches {ss : List Stmt} (h : IsStmts ts ss) :
    EndsBranches (ts ++ .symbol .rightBrace :: rest) := by
  cases h with
  | nil => exact ⟨nofun, nofun⟩
  | cons h hs =>
    rw [List.append_assoc]
    exact h.endsBranches

theorem readBranches_missing (hc : c.ahead = rest) (hrest : EndsBranches rest) :
    Gives (readBranches c) [.mk .otherwise []] rest := by
  rw [readBranches]
  split
  · next hpeek =>
    rw [peek_eq_head, hc] at hpeek
    exact absurd hpeek hrest.1
  · next hpeek =>
    rw [peek_eq_head, hc] at hpeek
    exact absurd hpeek hrest.2
  · exact .pure hc

mutual

theorem IsStmt.reads : {ts : List Token} → {s : Stmt} → IsStmt ts s → {c : Cursor} →
    {rest : List Token} → c.ahead = ts ++ rest → EndsBranches rest → Gives (readStmt c) s rest
  | _, _, .choose hcond hbody hothers, c, rest, hc, hrest => by
    simp only [List.cons_append, List.append_assoc] at hc
    refine Stmt.readStmt_choose hc (fun _ hahead => ?_) fun _ htail => hothers.reads htail hrest
    exact Stmt.readBranch_when (hcond.reads hahead (stops_of_endsExpr rfl)) fun _ => hbody.reads
  | _, _, .loop hcond hbody, c, rest, hc, _ => by
    simp only [List.cons_append, List.append_assoc] at hc
    exact Stmt.readStmt_loop hc (fun _ hahead => hcond.reads hahead (stops_of_endsExpr rfl))
      fun _ => hbody.reads
  | _, _, .giveUnit, _, _, hc, _ => Stmt.readStmt_giveUnit hc
  | _, _, .give h, c, rest, hc, _ => by
    rw [List.cons_append, List.append_assoc] at hc
    exact Stmt.readStmt_give hc fun _ hahead => h.reads hahead (stops_of_endsExpr rfl)
  | _, _, .assign h, c, rest, hc, _ => by
    simp only [List.cons_append, List.append_assoc] at hc
    exact Stmt.readStmt_assign hc fun _ hahead => h.reads hahead (stops_of_endsExpr rfl)
  | _, _, .call (.mk h), c, rest, hc, _ => by
    rw [List.append_assoc, List.append_assoc, List.cons_append] at hc
    exact Stmt.readStmt_call hc h.reads

theorem IsStmts.reads : {ts : List Token} → {ss : List Stmt} → IsStmts ts ss → {c : Cursor} →
    {rest : List Token} → c.ahead = ts ++ .symbol .rightBrace :: rest → Gives (readStmts c) ss rest
  | _, _, .nil, _, _, hc => Stmt.readStmts_nil hc
  | _, _, .cons h hs, c, rest, hc => by
    rw [List.append_assoc] at hc
    exact Stmt.readStmts_cons (h.reads hc hs.endsBranches) fun _ => hs.reads

theorem IsBranches.reads : {ts : List Token} → {bs : List Branch} → IsBranches ts bs →
    {c : Cursor} → {rest : List Token} → c.ahead = ts ++ rest → EndsBranches rest →
    Gives (readBranches c) bs rest
  | _, _, .elseIf hcond hbody hothers, c, rest, hc, hrest => by
    simp only [List.cons_append, List.append_assoc] at hc
    refine Stmt.readBranches_elseIf hc (fun _ hahead => ?_) fun _ htail => hothers.reads htail hrest
    exact Stmt.readBranch_when (hcond.reads hahead (stops_of_endsExpr rfl)) fun _ => hbody.reads
  | _, _, .otherwise hbody, _, _, hc, _ => Stmt.readBranches_otherwise hc fun _ => hbody.reads
  | _, _, .missing, _, _, hc, hrest => readBranches_missing hc hrest

end

/-! ## Scripts -/

theorem IsFunction.reads {f : Function} (h : IsFunction ts f) (hc : c.ahead = ts ++ rest) :
    ∃ span, Gives (readFunction c) { f with span } rest := by
  cases h with
  | mk hparams hbody =>
    rw [List.cons_append, List.cons_append, List.append_assoc] at hc
    exact readFunction_inBraces hparams hc fun _ => hbody.reads

/-- A function that was derived has no place. -/
theorem IsFunction.unplaced_eq {f : Function} (h : IsFunction ts f) : f.unplaced = f := by
  cases h
  rfl

/-- Scripts that derive are read without an error, up to the places of their functions. -/
theorem IsScript.reads {s : Script} (h : IsScript ts s) {c : Cursor} (hc : c.ahead = ts)
    (allowed : Nat) :
    (readFunctions (allowed + 1) c).errors = [] ∧
      (readFunctions (allowed + 1) c).script.unplaced = s := by
  induction h generalizing c with
  | nil =>
    rw [readFunctions_nil hc]
    exact ⟨rfl, rfl⟩
  | @cons _ _ f fs h hs ih =>
    obtain ⟨span, cursor, progress, hread, hahead⟩ := h.reads hc
    obtain ⟨herrors, hscript⟩ := ih hahead
    rw [readFunctions_cons hread]
    refine ⟨herrors, ?_⟩
    calc Script.unplaced ⟨{ f with span } :: _⟩
      _ = ⟨f.unplaced :: (readFunctions (allowed + 1) cursor).script.unplaced.functions⟩ := rfl
      _ = ⟨f :: fs⟩ := by rw [h.unplaced_eq, hscript]

end ScriptMachine.Grammar
