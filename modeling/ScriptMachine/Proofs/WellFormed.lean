import ScriptMachine.CompileError
import ScriptMachine.Proofs.Meaning

/-!
# Well-formed scripts

Which trees make sense, said place by place and without a generator. A place in a function is a
statement that stands somewhere in its body (`Stmt.Stands`); the names that can be read there are
the parameters and the targets of the assignments that stand before it in its own block or
in a block around that. A statement evaluates expressions (`Stmt.Evaluates`), an assignment with
its own target among the names, and every part of these (`Expr.Has`) is mentioned by the function
(`Function.Mentions`).

* `Script.WellFormed`: functions have different names; every name that is read, every function
  that is referred to and every callee is there; conditionals are proper and conditions may be
  truth values; nothing has fields.
* `Function.Offends`: what is wrong at some place of a function, as an error.
* `Function.wellFormed_iff`: a function is well-formed if and only if nothing is wrong anywhere.

An offence in a tree is one in a part of it, and the second half of the module says in which:
these are the equivalences along which code is generated, or refused.
-/

namespace ScriptMachine

/-! ## Places -/

namespace Expr

/-- The expression has the other one as a part: it is that, or one of its operands has it. -/
inductive Has : Expr → Expr → Prop where
  | self {e : Expr} : Has e e
  | arg {kind : CallKind} {name : String} {args : List Expr} {a e : Expr} (ha : a ∈ args)
      (h : Has a e) : Has (.call kind name args) e
  | left {op : BinaryOp} {left right e : Expr} (h : Has left e) : Has (.binary op left right) e
  | right {op : BinaryOp} {left right e : Expr} (h : Has right e) : Has (.binary op left right) e
  | not {operand e : Expr} (h : Has operand e) : Has (.not operand) e
  | negate {operand e : Expr} (h : Has operand e) : Has (.negate operand) e
  | object {object e : Expr} {field : String} (h : Has object e) : Has (.access object field) e

/-- By its outermost form alone the expression is never a truth value. -/
inductive NeverTruth : Expr → ConditionProblem → Prop where
  | int {n : Int32} : NeverTruth (.literal (.int n)) .number
  | float {x : Binary32} : NeverTruth (.literal (.float x)) .number
  | text {s : String} : NeverTruth (.literal (.text s)) .text
  | functionRef {name : String} : NeverTruth (.functionRef name) .functionRef
  | arithmetic {op : BinaryOp} {left right : Expr} (h : op.isArithmetic = true) :
      NeverTruth (.binary op left right) .arithmetic
  | negation {operand : Expr} : NeverTruth (.negate operand) .negation

end Expr

namespace Stmt

/-- The statement stands somewhere in a block. Where the block starts the names `visible` can be
    read, and where the statement stands, the names `seen`. -/
inductive Stands : (visible : List String) → List Stmt → (seen : List String) → Stmt → Prop where
  | here {visible : List String} {s : Stmt} {ss : List Stmt} : Stands visible (s :: ss) visible s
  | behind {visible seen : List String} {s s' : Stmt} {ss : List Stmt}
      (h : Stands (s.binds visible) ss seen s') : Stands visible (s :: ss) seen s'
  | inLoop {visible seen : List String} {c : Expr} {body ss : List Stmt} {s' : Stmt}
      (h : Stands visible body seen s') : Stands visible (.loop c body :: ss) seen s'
  | inBranch {visible seen : List String} {guard : Guard} {branches : List Branch}
      {body ss : List Stmt} {s' : Stmt} (hb : .mk guard body ∈ branches)
      (h : Stands visible body seen s') : Stands visible (.choose branches :: ss) seen s'

/-- The statement has the expression as a condition. -/
inductive Tests : Stmt → Expr → Prop where
  | loop {c : Expr} {body : List Stmt} : Tests (.loop c body) c
  | choose {c : Expr} {body : List Stmt} {branches : List Branch}
      (hb : .mk (.when c) body ∈ branches) : Tests (.choose branches) c

/-- The statement evaluates the expression, with the given names. A call is the expression of
    the call. -/
inductive Evaluates (seen : List String) : Stmt → List String → Expr → Prop where
  | assign {x : String} {e : Expr} :
      Evaluates seen (.assign x e) ((Stmt.assign x e).binds seen) e
  | test {s : Stmt} {c : Expr} (h : s.Tests c) : Evaluates seen s seen c
  | call {kind : CallKind} {name : String} {args : List Expr} :
      Evaluates seen (.call kind name args) seen (.call kind name args)
  | give {e : Expr} : Evaluates seen (.give (some e)) seen e

/-- A conditional that has branches, of which the last one and no other has no condition. -/
def Proper (branches : List Branch) : Prop :=
  ∃ guarded last, branches = guarded ++ [.mk .otherwise last] ∧
    ∀ b ∈ guarded, b.guard.isOtherwise = false

end Stmt

namespace Function

/-- The expression occurs in the function, where the names `seen` can be read. -/
def Mentions (f : Function) (seen : List String) (e : Expr) : Prop :=
  ∃ before s whole, Stmt.Stands f.params f.body before s ∧ s.Evaluates before seen whole ∧
    whole.Has e

/-- The expression is a condition in the function. -/
def Tests (f : Function) (c : Expr) : Prop :=
  ∃ seen s, Stmt.Stands f.params f.body seen s ∧ s.Tests c

/-- The function has a conditional with these branches. -/
def Chooses (f : Function) (branches : List Branch) : Prop :=
  ∃ seen, Stmt.Stands f.params f.body seen (.choose branches)

/-- The function makes sense in a script with functions of the names `declared`. -/
structure WellFormed (declared : List String) (f : Function) : Prop where
  /-- A name is read only where it can be. -/
  idents : ∀ seen x, f.Mentions seen (.ident x) → x ∈ seen
  /-- A callee is a function of the script or a name that can be read. -/
  callees : ∀ seen x args, f.Mentions seen (.call .internal x args) → x ∈ declared ∨ x ∈ seen
  references : ∀ seen x, f.Mentions seen (.functionRef x) → x ∈ declared
  conditionals : ∀ branches, f.Chooses branches → Stmt.Proper branches
  conditions : ∀ c problem, f.Tests c → ¬c.NeverTruth problem
  fields : ∀ seen object field, ¬f.Mentions seen (.access object field)

end Function

/-- The names of the functions. -/
def Script.functionNames (s : Script) : List String := s.functions.map Function.name

/-- The script makes sense: its functions have different names and make sense each. -/
structure Script.WellFormed (s : Script) : Prop where
  distinct : s.functionNames.Nodup
  functions : ∀ f ∈ s.functions, f.WellFormed s.functionNames

/-! ## Offences -/

section Offences

variable (declared : List String)

/-- What is wrong with an expression itself, whatever its operands are. -/
inductive Expr.Offends (seen : List String) (function : String) : Expr → CompileError → Prop where
  | ident {x : String} (hx : x ∉ seen) :
      Offends seen function (.ident x) (.unresolvedIdentifier x function)
  | callee {x : String} {args : List Expr} (hdeclared : x ∉ declared) (hx : x ∉ seen) :
      Offends seen function (.call .internal x args) (.unresolvedIdentifier x function)
  | functionRef {x : String} (hdeclared : x ∉ declared) :
      Offends seen function (.functionRef x) (.unresolvedFunction x function)
  | access {object : Expr} {field : String} :
      Offends seen function (.access object field) (.fieldAccess field function)

/-- What is wrong with a part of an expression. -/
def Expr.PartOffends (seen : List String) (function : String) (e : Expr) (error : CompileError) :
    Prop := ∃ part, e.Has part ∧ part.Offends declared seen function error

/-- What is wrong with a condition: it is none, or something is wrong with a part of it. -/
def Expr.ConditionOffends (seen : List String) (function : String) (c : Expr)
    (error : CompileError) : Prop :=
  (∃ problem, c.NeverTruth problem ∧ error = .malformedConditional problem function) ∨
    c.PartOffends declared seen function error

/-- What is wrong with a statement itself, whatever stands in its blocks. -/
inductive Stmt.Offends (seen : List String) (function : String) : Stmt → CompileError → Prop where
  | expr {s : Stmt} {seen' : List String} {e : Expr} {error : CompileError}
      (hs : s.Evaluates seen seen' e) (h : e.PartOffends declared seen' function error) :
      Offends seen function s error
  | condition {s : Stmt} {c : Expr} {problem : ConditionProblem} (hs : s.Tests c)
      (h : c.NeverTruth problem) : Offends seen function s (.malformedConditional problem function)
  | noBranches : Offends seen function (.choose []) (.malformedConditional .noBranches function)
  | noOtherwise {branches : List Branch} {c : Expr} {body : List Stmt} :
      Offends seen function (.choose (branches ++ [.mk (.when c) body]))
        (.malformedConditional .noOtherwise function)
  | otherwiseEvaluated {branches branches' : List Branch} {b : Branch} {body : List Stmt} :
      Offends seen function (.choose (branches ++ .mk .otherwise body :: b :: branches'))
        (.otherwiseEvaluated function)

/-- What is wrong at some place of a block. -/
def Stmt.BlockOffends (visible : List String) (function : String) (block : List Stmt)
    (error : CompileError) : Prop :=
  ∃ seen s, Stands visible block seen s ∧ s.Offends declared seen function error

/-- What is wrong at some place of a function. -/
def Function.Offends (f : Function) (error : CompileError) : Prop :=
  Stmt.BlockOffends declared f.params f.name f.body error

/-- A function has the name of one before it. -/
def Function.Repeats (fs : List Function) (error : CompileError) : Prop :=
  ∃ front f between g behind, fs = front ++ f :: (between ++ g :: behind) ∧ f.name = g.name ∧
    error = .duplicateFunction g.name g.span f.span

/-- What is wrong with a script. -/
def Script.Offends (s : Script) (error : CompileError) : Prop :=
  Function.Repeats s.functions error ∨ ∃ f ∈ s.functions, f.Offends s.functionNames error

end Offences

/-- What is wrong with a conditional that is not proper. -/
theorem Stmt.proper_or (branches : List Branch) :
    Proper branches ∨ branches = [] ∨ (∃ bs c body, branches = bs ++ [.mk (.when c) body]) ∨
      ∃ bs body b bs', branches = bs ++ .mk .otherwise body :: b :: bs' := by
  rcases List.eq_nil_or_concat branches with rfl | ⟨guarded, ⟨guard, last⟩, rfl⟩
  · exact .inr (.inl rfl)
  rw [List.concat_eq_append]
  cases guard with
  | when c => exact .inr (.inr (.inl ⟨guarded, c, last, rfl⟩))
  | otherwise =>
    by_cases hearly : ∃ body, Branch.mk .otherwise body ∈ guarded
    · -- A branch without a condition stands before the last one.
      obtain ⟨body, hbody⟩ := hearly
      obtain ⟨bs, bs', rfl⟩ := List.append_of_mem hbody
      cases bs' with
      | nil => exact .inr (.inr (.inr ⟨bs, body, .mk .otherwise last, [], by simp⟩))
      | cons b bs' =>
        exact .inr (.inr (.inr ⟨bs, body, b, bs' ++ [.mk .otherwise last], by simp⟩))
    · refine .inl ⟨guarded, last, rfl, fun b hb => ?_⟩
      obtain ⟨_ | _, body⟩ := b
      · rfl
      · exact absurd ⟨body, hb⟩ hearly

theorem Stmt.not_proper_nil : ¬Proper [] := by
  rintro ⟨guarded, last, h, -⟩
  exact List.append_ne_nil_of_right_ne_nil guarded (List.cons_ne_nil _ _) h.symm

theorem Stmt.not_proper_when {bs : List Branch} {c : Expr} {body : List Stmt} :
    ¬Proper (bs ++ [.mk (.when c) body]) := by
  rintro ⟨guarded, last, h, -⟩
  cases (List.append_inj' h rfl).2

theorem Stmt.not_proper_otherwise {bs bs' : List Branch} {b : Branch} {body : List Stmt} :
    ¬Proper (bs ++ .mk .otherwise body :: b :: bs') := by
  rintro ⟨guarded, last, h, hguarded⟩
  have hmem : Branch.mk .otherwise body ∈ guarded := by
    have hdrop := congrArg List.dropLast h
    rw [List.dropLast_concat, List.dropLast_append_of_ne_nil (List.cons_ne_nil _ _),
      List.dropLast_cons_cons] at hdrop
    exact hdrop ▸ List.mem_append_right bs List.mem_cons_self
  exact nomatch hguarded _ hmem

/-- A function makes sense if and only if nothing is wrong at any place. -/
theorem Function.wellFormed_iff {declared : List String} {f : Function} :
    f.WellFormed declared ↔ ∀ error, ¬f.Offends declared error := by
  constructor
  · rintro h error ⟨seen, s, hs, hoffends⟩
    cases hoffends with
    | expr heval hoffends =>
      obtain ⟨part, hhas, hoffends⟩ := hoffends
      have hmentions : f.Mentions _ _ := ⟨seen, s, _, hs, heval, hhas⟩
      cases hoffends with
      | ident hx => exact hx (h.idents _ _ hmentions)
      | callee hdeclared hx =>
        exact (h.callees _ _ _ hmentions).elim hdeclared hx
      | functionRef hdeclared => exact hdeclared (h.references _ _ hmentions)
      | access => exact h.fields _ _ _ hmentions
    | condition htests hnever => exact h.conditions _ _ ⟨seen, s, hs, htests⟩ hnever
    | noBranches => exact Stmt.not_proper_nil (h.conditionals _ ⟨seen, hs⟩)
    | noOtherwise => exact Stmt.not_proper_when (h.conditionals _ ⟨seen, hs⟩)
    | otherwiseEvaluated => exact Stmt.not_proper_otherwise (h.conditionals _ ⟨seen, hs⟩)
  · intro h
    have hexpr : ∀ {seen e error}, f.Mentions seen e → ¬e.Offends declared seen f.name error :=
      fun {_ e _} ⟨before, s, whole, hs, heval, hhas⟩ hoffends =>
        h _ ⟨before, s, hs, .expr heval ⟨e, hhas, hoffends⟩⟩
    refine ⟨fun seen x hm => ?_, fun seen x args hm => ?_, fun seen x hm => ?_,
      fun branches ⟨seen, hs⟩ => ?_, fun c problem ⟨seen, s, hs, htests⟩ hnever => ?_,
      fun seen object field hm => hexpr hm .access⟩
    · exact Decidable.not_not.1 fun hx => hexpr hm (.ident hx)
    · exact Decidable.or_iff_not_imp_left.2 fun hdeclared =>
        Decidable.not_not.1 fun hx => hexpr hm (.callee hdeclared hx)
    · exact Decidable.not_not.1 fun hdeclared => hexpr hm (.functionRef hdeclared)
    · rcases Stmt.proper_or branches with
        hproper | rfl | ⟨bs, c, body, rfl⟩ | ⟨bs, body, b, bs', rfl⟩
      · exact hproper
      · exact absurd ⟨seen, _, hs, .noBranches⟩ (h _)
      · exact absurd ⟨seen, _, hs, .noOtherwise⟩ (h _)
      · exact absurd ⟨seen, _, hs, .otherwiseEvaluated⟩ (h _)
    · exact h _ ⟨seen, s, hs, .condition htests hnever⟩

theorem Function.Repeats.not_nodup {fs : List Function} {error : CompileError}
    (h : Repeats fs error) : ¬(fs.map Function.name).Nodup := by
  obtain ⟨front, f, between, g, behind, rfl, hname, -⟩ := h
  intro hnodup
  rw [List.map_append, List.map_cons, List.nodup_append] at hnodup
  refine (List.nodup_cons.1 hnodup.2.1).1 ?_
  rw [hname]
  exact List.mem_map_of_mem (List.mem_append_right between List.mem_cons_self)

/-- Nothing is wrong with a script that makes sense. -/
theorem Script.WellFormed.not_offends {s : Script} (h : s.WellFormed) (error : CompileError) :
    ¬s.Offends error := by
  rintro (hrepeats | ⟨f, hf, hoffends⟩)
  · exact hrepeats.not_nodup h.distinct
  · exact Function.wellFormed_iff.1 (h.functions f hf) error hoffends

/-! ## Offences in trees -/

section Trees

variable {declared seen visible : List String} {function x : String} {error : CompileError}

namespace Expr

variable {kind : CallKind} {args : List Expr} {op : BinaryOp} {left right operand : Expr}

theorem not_partOffends_literal {l : Literal} :
    ¬(literal l).PartOffends declared seen function error := by
  rintro ⟨_, ⟨⟩, ⟨⟩⟩

theorem partOffends_ident :
    (ident x).PartOffends declared seen function error ↔
      x ∉ seen ∧ error = .unresolvedIdentifier x function := by
  constructor
  · rintro ⟨_, ⟨⟩, h⟩
    cases h with
    | ident hx => exact ⟨hx, rfl⟩
  · rintro ⟨hx, rfl⟩
    exact ⟨_, .self, .ident hx⟩

theorem partOffends_functionRef :
    (functionRef x).PartOffends declared seen function error ↔
      x ∉ declared ∧ error = .unresolvedFunction x function := by
  constructor
  · rintro ⟨_, ⟨⟩, h⟩
    cases h with
    | functionRef hx => exact ⟨hx, rfl⟩
  · rintro ⟨hx, rfl⟩
    exact ⟨_, .self, .functionRef hx⟩

/-- A call offends by an argument or by its callee. -/
theorem partOffends_call :
    (call kind x args).PartOffends declared seen function error ↔
      (∃ a ∈ args, a.PartOffends declared seen function error) ∨
        (call kind x args).Offends declared seen function error := by
  constructor
  · rintro ⟨part, hhas, h⟩
    cases hhas with
    | self => exact .inr h
    | arg ha hhas => exact .inl ⟨_, ha, part, hhas, h⟩
  · rintro (⟨a, ha, part, hhas, h⟩ | h)
    · exact ⟨part, .arg ha hhas, h⟩
    · exact ⟨_, .self, h⟩

theorem partOffends_binary :
    (binary op left right).PartOffends declared seen function error ↔
      left.PartOffends declared seen function error ∨
        right.PartOffends declared seen function error := by
  constructor
  · rintro ⟨part, hhas, h⟩
    cases hhas with
    | self => exact nomatch h
    | left hhas => exact .inl ⟨part, hhas, h⟩
    | right hhas => exact .inr ⟨part, hhas, h⟩
  · rintro (⟨part, hhas, h⟩ | ⟨part, hhas, h⟩)
    · exact ⟨part, .left hhas, h⟩
    · exact ⟨part, .right hhas, h⟩

theorem partOffends_not :
    (not operand).PartOffends declared seen function error ↔
      operand.PartOffends declared seen function error := by
  constructor
  · rintro ⟨part, hhas, h⟩
    cases hhas with
    | self => exact nomatch h
    | not hhas => exact ⟨part, hhas, h⟩
  · rintro ⟨part, hhas, h⟩
    exact ⟨part, .not hhas, h⟩

theorem partOffends_negate :
    (negate operand).PartOffends declared seen function error ↔
      operand.PartOffends declared seen function error := by
  constructor
  · rintro ⟨part, hhas, h⟩
    cases hhas with
    | self => exact nomatch h
    | negate hhas => exact ⟨part, hhas, h⟩
  · rintro ⟨part, hhas, h⟩
    exact ⟨part, .negate hhas, h⟩

end Expr

namespace Stmt

variable {s : Stmt} {ss body : List Stmt} {branches : List Branch} {c e : Expr}

theorem not_blockOffends_nil : ¬BlockOffends declared visible function [] error := by
  rintro ⟨_, _, ⟨⟩, _⟩

/-- Statements offend one behind the other, each with the names that those before bind. -/
theorem blockOffends_cons :
    BlockOffends declared visible function (s :: ss) error ↔
      BlockOffends declared visible function [s] error ∨
        BlockOffends declared (s.binds visible) function ss error := by
  constructor
  · rintro ⟨seen, s', hs, h⟩
    cases hs with
    | here => exact .inl ⟨visible, s, .here, h⟩
    | behind hs => exact .inr ⟨seen, s', hs, h⟩
    | inLoop hs => exact .inl ⟨seen, s', .inLoop hs, h⟩
    | inBranch hb hs => exact .inl ⟨seen, s', .inBranch hb hs, h⟩
  · rintro (⟨seen, s', hs, h⟩ | ⟨seen, s', hs, h⟩)
    · refine ⟨seen, s', ?_, h⟩
      cases hs with
      | here => exact .here
      | behind hs => exact nomatch hs
      | inLoop hs => exact .inLoop hs
      | inBranch hb hs => exact .inBranch hb hs
    · exact ⟨seen, s', .behind hs, h⟩

theorem blockOffends_assign :
    BlockOffends declared visible function [.assign x e] error ↔
      e.PartOffends declared ((Stmt.assign x e).binds visible) function error := by
  constructor
  · rintro ⟨seen, s, ⟨⟩ | ⟨⟨⟩⟩, h⟩
    cases h with
    | expr heval h =>
      cases heval with
      | assign => exact h
      | test htests => exact nomatch htests
    | condition htests => exact nomatch htests
  · intro h
    exact ⟨visible, _, .here, .expr .assign h⟩

theorem blockOffends_loop :
    BlockOffends declared visible function [.loop c body] error ↔
      c.ConditionOffends declared visible function error ∨
        BlockOffends declared visible function body error := by
  constructor
  · rintro ⟨seen, s, hs, h⟩
    cases hs with
    | here =>
      cases h with
      | expr heval h =>
        cases heval with
        | test htests => cases htests; exact .inl (.inr h)
      | condition htests hnever => cases htests; exact .inl (.inl ⟨_, hnever, rfl⟩)
    | behind hs => exact nomatch hs
    | inLoop hs => exact .inr ⟨seen, s, hs, h⟩
  · rintro ((⟨problem, hnever, rfl⟩ | h) | ⟨seen, s, hs, h⟩)
    · exact ⟨visible, _, .here, .condition .loop hnever⟩
    · exact ⟨visible, _, .here, .expr (.test .loop) h⟩
    · exact ⟨seen, s, .inLoop hs, h⟩

theorem blockOffends_call {kind : CallKind} {args : List Expr} :
    BlockOffends declared visible function [.call kind x args] error ↔
      (Expr.call kind x args).PartOffends declared visible function error := by
  constructor
  · rintro ⟨seen, s, ⟨⟩ | ⟨⟨⟩⟩, h⟩
    cases h with
    | expr heval h =>
      cases heval with
      | call => exact h
      | test htests => exact nomatch htests
    | condition htests => exact nomatch htests
  · intro h
    exact ⟨visible, _, .here, .expr .call h⟩

theorem not_blockOffends_giveUnit : ¬BlockOffends declared visible function [.give none] error := by
  rintro ⟨seen, s, ⟨⟩ | ⟨⟨⟩⟩, h⟩
  cases h with
  | expr heval =>
    cases heval with
    | test htests => exact nomatch htests
  | condition htests => exact nomatch htests

theorem blockOffends_give :
    BlockOffends declared visible function [.give (some e)] error ↔
      e.PartOffends declared visible function error := by
  constructor
  · rintro ⟨seen, s, ⟨⟩ | ⟨⟨⟩⟩, h⟩
    cases h with
    | expr heval h =>
      cases heval with
      | give => exact h
      | test htests => exact nomatch htests
    | condition htests => exact nomatch htests
  · intro h
    exact ⟨visible, _, .here, .expr .give h⟩

/-! ### Branches -/

/-- What is wrong with branches that end in one without a condition. -/
inductive BranchesOffend (declared visible : List String) (function : String) :
    List Branch → CompileError → Prop where
  | otherwise {body : List Stmt} {b : Branch} {bs : List Branch} :
      BranchesOffend declared visible function (.mk .otherwise body :: b :: bs)
        (.otherwiseEvaluated function)
  | condition {c : Expr} {body : List Stmt} {bs : List Branch} {error : CompileError}
      (h : c.ConditionOffends declared visible function error) :
      BranchesOffend declared visible function (.mk (.when c) body :: bs) error
  | body {guard : Guard} {body : List Stmt} {bs : List Branch} {error : CompileError}
      (h : BlockOffends declared visible function body error) :
      BranchesOffend declared visible function (.mk guard body :: bs) error
  | tail {b : Branch} {bs : List Branch} {error : CompileError}
      (h : BranchesOffend declared visible function bs error) :
      BranchesOffend declared visible function (b :: bs) error

theorem branchesOffend_last :
    BranchesOffend declared visible function [.mk .otherwise body] error ↔
      BlockOffends declared visible function body error := by
  refine ⟨fun h => ?_, .body⟩
  cases h with
  | body h => exact h
  | tail h => exact nomatch h

theorem branchesOffend_when :
    BranchesOffend declared visible function (.mk (.when c) body :: branches) error ↔
      c.ConditionOffends declared visible function error ∨
        (BlockOffends declared visible function body error ∨
          BranchesOffend declared visible function branches error) := by
  constructor
  · intro h
    cases h with
    | condition h => exact .inl h
    | body h => exact .inr (.inl h)
    | tail h => exact .inr (.inr h)
  · rintro (h | h | h)
    · exact .condition h
    · exact .body h
    · exact .tail h

theorem BranchesOffend.append (h : BranchesOffend declared visible function branches error)
    (front : List Branch) : BranchesOffend declared visible function (front ++ branches) error := by
  induction front with
  | nil => exact h
  | cons b front ih => exact .tail ih

/-- Branches offend as parts of any conditional that ends in them. -/
theorem BranchesOffend.blockOffends (h : BranchesOffend declared visible function branches error)
    (front : List Branch) :
    BlockOffends declared visible function [.choose (front ++ branches)] error := by
  induction h generalizing front with
  | otherwise => exact ⟨visible, _, .here, .otherwiseEvaluated⟩
  | @condition c body bs _ h =>
    have htests : Tests (.choose (front ++ .mk (.when c) body :: bs)) c :=
      .choose (List.mem_append_right front List.mem_cons_self)
    rcases h with ⟨problem, hnever, rfl⟩ | h
    · exact ⟨visible, _, .here, .condition htests hnever⟩
    · exact ⟨visible, _, .here, .expr (.test htests) h⟩
  | body h =>
    obtain ⟨seen, s, hs, h⟩ := h
    exact ⟨seen, s, .inBranch (List.mem_append_right front List.mem_cons_self) hs, h⟩
  | @tail b bs _ _ ih =>
    rw [List.append_cons]
    exact ih (front ++ [b])

/-- A conditional that ends in a branch without a condition offends by its branches. -/
theorem blockOffends_choose {front : List Branch} {last : List Stmt}
    (hlast : branches = front ++ [.mk .otherwise last]) :
    BlockOffends declared visible function [.choose branches] error ↔
      BranchesOffend declared visible function branches error := by
  refine ⟨fun ⟨seen, s, hs, h⟩ => ?_, fun h => h.blockOffends []⟩
  -- A condition or a body of a branch offends in the branches from there on.
  have hcondition : ∀ {c : Expr} {body : List Stmt} {error : CompileError},
      Branch.mk (.when c) body ∈ branches → c.ConditionOffends declared visible function error →
      BranchesOffend declared visible function branches error := by
    intro c body error hb h
    obtain ⟨front, behind, rfl⟩ := List.append_of_mem hb
    exact .append (.condition h) front
  cases hs with
  | here =>
    cases h with
    | expr heval h =>
      cases heval with
      | test htests => cases htests with | choose hb => exact hcondition hb (.inr h)
    | condition htests hnever =>
      cases htests with | choose hb => exact hcondition hb (.inl ⟨_, hnever, rfl⟩)
    | noBranches =>
      exact absurd hlast.symm (List.append_ne_nil_of_right_ne_nil front (List.cons_ne_nil _ _))
    | noOtherwise => cases (List.append_inj' hlast rfl).2
    | otherwiseEvaluated => exact .append .otherwise _
  | behind hs => exact nomatch hs
  | inBranch hb hs =>
    obtain ⟨front, behind, rfl⟩ := List.append_of_mem hb
    exact .append (.body ⟨seen, s, hs, h⟩) front

end Stmt

end Trees

end ScriptMachine
