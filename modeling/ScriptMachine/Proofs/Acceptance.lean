import ScriptMachine.Proofs.Scopes
import ScriptMachine.Proofs.WellFormed

/-!
# What is accepted

Code is generated for exactly the scripts that are well-formed. Generation ends with the first
error, so success says that nothing is wrong anywhere before the end, and an error that something
is wrong where generation stopped. Both are one statement about a piece of generation
(`Settles`): it succeeds and there is no offence, or its error is an offence. Pieces go together
as offences do, and the trees are settled along their equivalences.

What a generator knows of names are slots in blocks. They show the names that can be read at a
place of the tree (`Slots.Shows`), and a block that is left shows what it showed before it was
entered.

* `settles_genExpr`, `settles_genStmts`: generation settles trees.
* `Script.settles_compile`: compilation settles scripts.
* `Script.compile_isOk_iff_wellFormed`: a script is compiled if and only if it is well-formed.
-/

namespace ScriptMachine

open Gen

/-! ## Settling -/

section Settles

variable {α β : Type} {Objects Objects' : CompileError → Prop}

/-- The result is a success and there is no objection, or it is an objection. -/
def Settles (result : Except CompileError α) (Objects : CompileError → Prop) : Prop :=
  match result with
  | .ok _ => ∀ error, ¬Objects error
  | .error error => Objects error

theorem Settles.congr {result : Except CompileError α} (h : Settles result Objects)
    (hiff : ∀ error, Objects' error ↔ Objects error) : Settles result Objects' := by
  cases result with
  | ok => exact fun error hobjects => h error ((hiff error).1 hobjects)
  | error error => exact (hiff error).2 h

namespace Gen

/-- A generator settles what it generates, wherever its code starts. -/
def Settles (g : Gen α) (ctx : GenContext) (s : GenState) (Objects : CompileError → Prop) : Prop :=
  ∀ start, ScriptMachine.Settles (g ctx start s).result Objects

variable {g : Gen α} {f : α → Gen β} {ctx : GenContext} {s : GenState}

theorem Settles.congr (h : g.Settles ctx s Objects)
    (hiff : ∀ error, Objects' error ↔ Objects error) : g.Settles ctx s Objects' :=
  fun start => (h start).congr hiff

/-- A generator that always succeeds. -/
theorem settles_of_ok (h : ∀ start, ∃ a, (g ctx start s).result = .ok a) :
    g.Settles ctx s fun _ => False := by
  intro start
  obtain ⟨a, ha⟩ := h start
  rw [ha]
  exact fun _ => id

theorem settles_pure (a : α) : (pure a : Gen α).Settles ctx s fun _ => False :=
  settles_of_ok fun _ => ⟨a, rfl⟩

theorem settles_emit (i : Instruction) : (emit i).Settles ctx s fun _ => False :=
  settles_of_ok fun _ => ⟨(), rfl⟩

theorem settles_here : here.Settles ctx s fun _ => False := settles_of_ok fun start => ⟨start, rfl⟩

theorem settles_string (text : String) : (string text).Settles ctx s fun _ => False :=
  settles_of_ok fun _ => ⟨_, rfl⟩

theorem settles_function? (name : String) : (function? name).Settles ctx s fun _ => False :=
  settles_of_ok fun _ => ⟨_, rfl⟩

theorem settles_declare (name : String) : (declare name).Settles ctx s fun _ => False :=
  settles_of_ok fun _ => ⟨_, rfl⟩

theorem settles_updateSlots (f : Slots → Slots) : (updateSlots f).Settles ctx s fun _ => False :=
  settles_of_ok fun _ => ⟨(), rfl⟩

theorem settles_fail {error : String → CompileError} (h : Objects (error ctx.function)) :
    (fail error : Gen α).Settles ctx s Objects := fun _ => h

theorem settles_fail_bind {error : String → CompileError} (h : Objects (error ctx.function)) :
    ((fail error : Gen α) >>= f).Settles ctx s Objects := fun _ => h

/-- A piece behind another one, in the state that the other one leaves. -/
theorem settles_bind (h : g.Settles ctx s Objects)
    (h' : ∀ {start code s' a}, g.Yields ctx start s code s' a → (f a).Settles ctx s' Objects') :
    (g >>= f).Settles ctx s fun error => Objects error ∨ Objects' error := by
  intro start
  have hg := h start
  simp only [bind, Gen.bind]
  cases hresult : (g ctx start s).result with
  | error error =>
    rw [hresult] at hg
    exact .inl hg
  | ok a =>
    rw [hresult] at hg
    have hf := h' (yields_of_result hresult) (start + (g ctx start s).code.length)
    exact hf.congr fun error => or_iff_right (hg error)

/-- A piece that can only fail in its first part. -/
theorem Settles.before (h : g.Settles ctx s Objects)
    (h' : ∀ {start code s' a}, g.Yields ctx start s code s' a →
      (f a).Settles ctx s' fun _ => False) : (g >>= f).Settles ctx s Objects :=
  (settles_bind h h').congr fun _ => (or_iff_left id).symm

/-- A piece that can only fail in its second part. -/
theorem Settles.behind (h : g.Settles ctx s fun _ => False)
    (h' : ∀ {start code s' a}, g.Yields ctx start s code s' a → (f a).Settles ctx s' Objects) :
    (g >>= f).Settles ctx s Objects :=
  (settles_bind h h').congr fun _ => (or_iff_right id).symm

theorem settles_jumpOver (opcode : Opcode) (h : g.Settles ctx s Objects) :
    (jumpOver opcode g).Settles ctx s Objects := fun start => h (start + 1)

theorem settles_branch {body rest : Gen Unit} (h : body.Settles ctx s Objects)
    (h' : ∀ {start code s'}, body.Yields ctx start s code s' () → rest.Settles ctx s' Objects') :
    (branch body rest).Settles ctx s fun error => Objects error ∨ Objects' error := by
  intro start
  have hbody := h (start + 1)
  unfold branch
  dsimp only
  cases hresult : (body ctx (start + 1) s).result with
  | error error =>
    rw [hresult] at hbody
    exact .inl hbody
  | ok u =>
    rw [hresult] at hbody
    have hrest := settles_jumpOver .jump (h' (yields_of_result hresult))
      (start + 1 + (body ctx (start + 1) s).code.length)
    exact hrest.congr fun error => or_iff_right (hbody error)

theorem settles_inBlock {body : Gen Unit}
    (h : body.Settles ctx { s with slots := s.slots.enterBlock } Objects) :
    (inBlock body).Settles ctx s Objects := by
  refine (settles_updateSlots _).behind fun hyields => ?_
  obtain ⟨-, rfl⟩ := yields_updateSlots.1 hyields
  exact h.before fun _ => settles_updateSlots _

end Gen

end Settles

/-! ## Names and slots -/

namespace Slots

variable {slots slots' : Slots} {visible : List String} {x : String}

/-- The names that can be resolved are the visible ones. -/
structure Shows (slots : Slots) (visible : List String) : Prop where
  nonempty : slots.blocks ≠ []
  mem_iff : ∀ x, x ∈ visible ↔ ∃ block ∈ slots.blocks, x ∈ block.keys

theorem Shows.resolve_eq_none_iff (h : slots.Shows visible) :
    slots.resolve x = none ↔ x ∉ visible := by
  rw [resolve, List.findSome?_eq_none_iff, h.mem_iff]
  simp only [Table.get?_eq_none_iff, not_exists, not_and]

theorem Shows.enterBlock (h : slots.Shows visible) : slots.enterBlock.Shows visible := by
  refine ⟨List.cons_ne_nil _ _, fun x => (h.mem_iff x).trans ?_⟩
  simp [Slots.enterBlock, Table.keys]

/-- A block that is left takes its names with it. -/
theorem Shows.leaveBlock {inner : Table String Nat} (h : slots.Shows visible)
    (hblocks : slots'.blocks = inner :: slots.blocks) : slots'.leaveBlock.Shows visible := by
  obtain ⟨block, outer, hslots⟩ := List.exists_cons_of_ne_nil h.nonempty
  have hleave : slots'.leaveBlock.blocks = slots.blocks := by
    rw [hslots] at hblocks ⊢
    rw [leaveBlock_eq hblocks]
  exact ⟨hleave ▸ h.nonempty, fun x => hleave ▸ h.mem_iff x⟩

theorem mem_binds_assign {e : Expr} {y : String} :
    y ∈ (Stmt.assign x e).binds visible ↔ y ∈ visible ∨ y = x := by
  rw [Stmt.binds]
  split
  · next hx => exact ⟨.inl, fun h => h.elim id fun hy => hy ▸ hx⟩
  · simp

/-- What an innermost block binds is visible. -/
theorem Shows.binds {stmt : Stmt} {block block' : Table String Nat}
    {outer : List (Table String Nat)} (h : slots.Shows visible)
    (hblocks : slots.blocks = block :: outer) (hblocks' : slots'.blocks = block' :: outer)
    (hkeys : block'.keys = stmt.binds block.keys) : slots'.Shows (stmt.binds visible) := by
  refine ⟨hblocks' ▸ List.cons_ne_nil _ _, fun x => ?_⟩
  have hmem := h.mem_iff x
  simp only [hblocks, List.mem_cons, exists_eq_or_imp] at hmem
  simp only [hblocks', List.mem_cons, exists_eq_or_imp, hkeys]
  cases stmt with
  | assign y e =>
    rw [mem_binds_assign, mem_binds_assign, hmem]
    exact or_right_comm
  | loop | choose | call | give => exact hmem

theorem Shows.declare (h : slots.Shows visible) (x : String) (e : Expr) :
    (slots.declare x).2.Shows ((Stmt.assign x e).binds visible) := by
  obtain ⟨block, outer, hblocks⟩ := List.exists_cons_of_ne_nil h.nonempty
  by_cases hx : x ∈ block.keys
  · obtain ⟨slot, hslot⟩ :=
      Option.ne_none_iff_exists'.1 (mt Table.get?_eq_none_iff.1 (not_not_intro hx))
    rw [declare_of_get? hblocks hslot]
    exact h.binds hblocks hblocks (by rw [Stmt.binds, if_pos hx])
  · rw [declare_of_notMem hblocks hx]
    refine h.binds hblocks rfl ?_
    rw [Stmt.binds, if_neg hx, Table.keys_append]
    rfl

theorem Shows.declareAll (h : slots.Shows visible) (names : List String) :
    (names.foldl (fun s x => (s.declare x).2) slots).Shows (visible ++ names) := by
  induction names generalizing slots visible with
  | nil =>
    rw [List.append_nil]
    exact h
  | cons x names ih =>
    obtain ⟨hne, hmem⟩ := ih (h.declare x default)
    refine ⟨hne, fun y => Iff.trans ?_ (hmem y)⟩
    simp only [List.mem_append, mem_binds_assign, List.mem_cons, or_assoc]

/-- The parameters of a function are visible in its body. -/
theorem shows_ofParams (params : List String) : (ofParams params).Shows params := by
  have hnew : (Slots.new Draft.reservedSlots).Shows [] :=
    ⟨List.cons_ne_nil _ _, fun x => by simp [Slots.new, Table.keys]⟩
  exact hnew.declareAll params

end Slots

/-! ## Expressions -/

section Generate

variable {declared visible : List String} {ctx : GenContext} {s s' : GenState} {start : Nat}
  {code : List Instruction} {u : Unit}

/-- The functions that a generator knows are the declared ones. -/
def GenContext.Knows (ctx : GenContext) (declared : List String) : Prop :=
  ∀ x, ctx.functions.id? x = none ↔ x ∉ declared

theorem settles_resolve (hs : s.slots.Shows visible) (x : String) :
    (resolve x).Settles ctx s fun error =>
      x ∉ visible ∧ error = .unresolvedIdentifier x ctx.function := by
  intro start
  unfold resolve
  cases hslot : s.slots.resolve x with
  | none => exact ⟨hs.resolve_eq_none_iff.1 hslot, rfl⟩
  | some slot =>
    rintro error ⟨hx, -⟩
    exact nomatch (hs.resolve_eq_none_iff.2 hx).symm.trans hslot

/-- Expressions give no slots out. -/
theorem slots_of_genExpr {e : Expr} (h : (genExpr e).Yields ctx start s code s' u) :
    s'.slots = s.slots := (exprCode_of_genExpr e h s'.strings.within_refl).2.1

theorem slots_of_genExprs {es : List Expr} (h : (genExprs es).Yields ctx start s code s' u) :
    s'.slots = s.slots := (exprsCode_of_genExprs es h s'.strings.within_refl).2.1

theorem settles_genLiteral (l : Literal) : (genLiteral l).Settles ctx s fun _ => False := by
  cases l with
  | int | float | bool => exact settles_emit _
  | text t => exact (settles_string t).behind fun _ => settles_emit _

theorem settles_genCallee (hctx : ctx.Knows declared) (hs : s.slots.Shows visible)
    (kind : CallKind) (x : String) (args : List Expr) :
    (genCallee kind x args.length).Settles ctx s
      ((Expr.call kind x args).Offends declared visible ctx.function) := by
  cases kind with
  | internal =>
    refine (settles_function? x).behind fun hyields => ?_
    obtain ⟨-, rfl, rfl⟩ := yields_function?.1 hyields
    -- A function of the script comes before a variable.
    cases hid : ctx.functions.id? x with
    | some id =>
      refine ((settles_emit _).before fun _ => settles_emit _).congr fun error => ?_
      refine ⟨fun h => ?_, False.elim⟩
      cases h with
      | callee hdeclared => exact nomatch ((hctx x).2 hdeclared).symm.trans hid
    | none =>
      refine ((settles_resolve hs x).before fun _ =>
        (settles_emit _).before fun _ => settles_emit _).congr fun error => ?_
      constructor
      · rintro ⟨⟩
        exact ⟨‹_›, rfl⟩
      · rintro ⟨hx, rfl⟩
        exact .callee ((hctx x).1 hid) hx
  | external =>
    refine ((settles_string x).behind fun _ =>
      (settles_emit _).before fun _ => settles_emit _).congr fun error => ?_
    exact ⟨nofun, False.elim⟩

mutual

/-- Generation settles expressions. -/
theorem settles_genExpr (hctx : ctx.Knows declared) : (e : Expr) → {s : GenState} →
    s.slots.Shows visible →
    (genExpr e).Settles ctx s (e.PartOffends declared visible ctx.function)
  | .literal l, s, _ => by
    rw [genExpr]
    exact (settles_genLiteral l).congr fun error => iff_false_intro Expr.not_partOffends_literal
  | .ident x, s, hs => by
    rw [genExpr]
    refine ((settles_resolve hs x).before fun _ => settles_emit _).congr fun error => ?_
    exact Expr.partOffends_ident
  | .functionRef x, s, _ => by
    rw [genExpr]
    refine Gen.Settles.congr ?_ fun error => Expr.partOffends_functionRef
    refine (settles_function? x).behind fun hyields => ?_
    obtain ⟨-, rfl, rfl⟩ := yields_function?.1 hyields
    cases hid : ctx.functions.id? x with
    | some id =>
      refine (settles_emit _).congr fun error => ⟨fun h => ?_, False.elim⟩
      exact nomatch ((hctx x).2 h.1).symm.trans hid
    | none => exact settles_fail ⟨(hctx x).1 hid, rfl⟩
  | .call kind x args, s, hs => by
    rw [genExpr]
    refine (settles_bind (settles_genExprs hctx args hs) fun hargs => ?_).congr
      fun error => Expr.partOffends_call
    exact settles_genCallee hctx (slots_of_genExprs hargs ▸ hs) kind x args
  | .binary op left right, s, hs => by
    rw [genExpr]
    refine (settles_bind (settles_genExpr hctx left hs) fun hleft => ?_).congr
      fun error => Expr.partOffends_binary
    refine (settles_genExpr hctx right (slots_of_genExpr hleft ▸ hs)).before fun _ => ?_
    refine (settles_emit _).before fun _ => ?_
    split
    · exact settles_emit _
    · exact settles_pure ()
  | .not operand, s, hs => by
    rw [genExpr]
    exact ((settles_genExpr hctx operand hs).before fun _ => settles_emit _).congr
      fun error => Expr.partOffends_not
  | .negate operand, s, hs => by
    rw [genExpr]
    exact ((settles_genExpr hctx operand hs).before fun _ =>
      (settles_emit _).before fun _ => settles_emit _).congr fun error => Expr.partOffends_negate
  | .access object field, s, _ => by
    rw [genExpr]
    exact settles_fail ⟨_, .self, .access⟩

theorem settles_genExprs (hctx : ctx.Knows declared) : (es : List Expr) → {s : GenState} →
    s.slots.Shows visible →
    (genExprs es).Settles ctx s fun error =>
      ∃ e ∈ es, e.PartOffends declared visible ctx.function error
  | [], s, _ => by
    rw [genExprs]
    exact (settles_pure ()).congr fun error => by simp
  | e :: es, s, hs => by
    rw [genExprs]
    refine (settles_bind (settles_genExpr hctx e hs) fun he =>
      settles_genExprs hctx es (slots_of_genExpr he ▸ hs)).congr fun error => ?_
    simp only [List.mem_cons, exists_eq_or_imp]

end

theorem conditionProblem_eq_some_iff {c : Expr} {problem : ConditionProblem} :
    conditionProblem c = some problem ↔ c.NeverTruth problem := by
  constructor
  · intro h
    unfold conditionProblem at h
    split at h
    · cases h; exact .int
    · cases h; exact .float
    · cases h; exact .text
    · cases h; exact .functionRef
    · split at h
      · next hop => cases h; exact .arithmetic hop
      · exact nomatch h
    · cases h; exact .negation
    · exact nomatch h
  · intro h
    cases h with
    | int | float | text | functionRef | negation => rfl
    | arithmetic hop => exact if_pos hop

theorem settles_genCondition (hctx : ctx.Knows declared) (hs : s.slots.Shows visible) (c : Expr) :
    (genCondition c).Settles ctx s (c.ConditionOffends declared visible ctx.function) := by
  unfold genCondition
  cases hproblem : conditionProblem c with
  | some problem =>
    exact settles_fail (.inl ⟨problem, conditionProblem_eq_some_iff.1 hproblem, rfl⟩)
  | none =>
    refine (settles_genExpr hctx c hs).congr fun error => or_iff_right ?_
    rintro ⟨problem, hnever, -⟩
    exact nomatch hproblem.symm.trans (conditionProblem_eq_some_iff.2 hnever)

/-! ## Statements -/

theorem slots_of_genCondition {c : Expr} (h : (genCondition c).Yields ctx start s code s' u) :
    s'.slots = s.slots := (exprCode_of_genCondition h s'.strings.within_refl).2.1

/-- Behind a statement, what it binds is visible. -/
theorem Slots.Shows.genStmt {stmt : Stmt} (hs : s.slots.Shows visible)
    (h : (genStmt stmt).Yields ctx start s code s' u) : s'.slots.Shows (stmt.binds visible) := by
  obtain ⟨block, outer, hblocks⟩ := List.exists_cons_of_ne_nil hs.nonempty
  obtain ⟨hcode, -⟩ := stmtCode_of_genStmt stmt h s'.strings.within_refl
  obtain ⟨block', hblocks', hkeys, -⟩ := StmtCode.slots_eq stmt hcode hblocks
  exact hs.binds hblocks hblocks' hkeys

/-- Behind a block, what was visible before it is visible again. -/
theorem Slots.Shows.inBlock {body : List Stmt} (hs : s.slots.Shows visible)
    (h : (inBlock (genStmts body)).Yields ctx start s code s' u) : s'.slots.Shows visible := by
  obtain ⟨s₁, hbody, rfl⟩ := yields_inBlock.1 h
  obtain ⟨hcode, -⟩ := stmtsCode_of_genStmts body hbody s₁.strings.within_refl
  obtain ⟨inner, hinner, -⟩ := StmtsCode.slots_eq body hcode rfl
  exact hs.leaveBlock hinner

theorem branchesProblem_eq_none {branches : List Branch} (h : branchesProblem branches = none) :
    ∃ front last, branches = front ++ [.mk .otherwise last] := by
  unfold branchesProblem at h
  split at h
  · exact nomatch h
  · next b hb =>
    obtain ⟨front, rfl⟩ := List.getLast?_eq_some_iff.1 hb
    obtain ⟨_ | _, last⟩ := b
    · exact nomatch h
    · exact ⟨front, last, rfl⟩

/-- A problem of the branches as a whole is one of the conditional. -/
theorem offends_of_branchesProblem {branches : List Branch} {problem : ConditionProblem}
    (h : branchesProblem branches = some problem) (seen : List String) (function : String) :
    (Stmt.choose branches).Offends declared seen function
      (.malformedConditional problem function) := by
  unfold branchesProblem at h
  split at h
  · next hb =>
    cases h
    rw [List.getLast?_eq_none_iff.1 hb]
    exact .noBranches
  · next b hb =>
    obtain ⟨front, rfl⟩ := List.getLast?_eq_some_iff.1 hb
    obtain ⟨c | _, last⟩ := b
    · cases h
      exact .noOtherwise
    · exact nomatch h

mutual

/-- Generation settles statements. -/
theorem settles_genStmt (hctx : ctx.Knows declared) : (stmt : Stmt) → {visible : List String} →
    {s : GenState} → s.slots.Shows visible →
    (genStmt stmt).Settles ctx s (Stmt.BlockOffends declared visible ctx.function [stmt])
  | .assign x e, visible, s, hs => by
    rw [genStmt]
    refine Gen.Settles.congr ?_ fun error => Stmt.blockOffends_assign
    refine (settles_declare x).behind fun hdeclare => ?_
    obtain ⟨-, -, hslots⟩ := yields_declare.1 hdeclare
    have hshows := hs.declare x e
    rw [hslots] at hshows
    exact (settles_genExpr hctx e hshows).before fun _ => settles_emit _
  | .loop c body, visible, s, hs => by
    rw [genStmt]
    refine Gen.Settles.congr ?_ fun error => Stmt.blockOffends_loop
    refine settles_here.behind fun hhere => ?_
    obtain ⟨-, rfl, -⟩ := yields_here.1 hhere
    refine settles_bind (settles_genCondition hctx hs c) fun hc => settles_jumpOver _ ?_
    have hs := slots_of_genCondition hc ▸ hs
    exact (settles_inBlock (settles_genStmts hctx body hs.enterBlock)).before
      fun _ => settles_emit _
  | .choose branches, visible, s, hs => by
    rw [genStmt]
    cases hproblem : branchesProblem branches with
    | some problem =>
      exact settles_fail ⟨visible, _, .here, offends_of_branchesProblem hproblem visible _⟩
    | none =>
      obtain ⟨front, last, hlast⟩ := branchesProblem_eq_none hproblem
      exact (settles_genBranches hctx branches hlast hs).congr
        fun error => Stmt.blockOffends_choose hlast
  | .call kind x args, visible, s, hs => by
    have hcall := settles_genExpr hctx (.call kind x args) hs
    rw [genExpr] at hcall
    rw [genStmt]
    exact hcall.congr fun error => Stmt.blockOffends_call
  | .give none, visible, s, _ => by
    rw [genStmt]
    exact ((settles_emit _).before fun _ => settles_emit _).congr
      fun error => iff_false_intro Stmt.not_blockOffends_giveUnit
  | .give (some e), visible, s, hs => by
    rw [genStmt]
    exact ((settles_genExpr hctx e hs).before fun _ => settles_emit _).congr
      fun error => Stmt.blockOffends_give

theorem settles_genStmts (hctx : ctx.Knows declared) : (stmts : List Stmt) →
    {visible : List String} → {s : GenState} → s.slots.Shows visible →
    (genStmts stmts).Settles ctx s (Stmt.BlockOffends declared visible ctx.function stmts)
  | [], visible, s, _ => by
    rw [genStmts]
    exact (settles_pure ()).congr fun error => iff_false_intro Stmt.not_blockOffends_nil
  | stmt :: stmts, visible, s, hs => by
    rw [genStmts]
    refine (settles_bind (settles_genStmt hctx stmt hs) fun hstmt => ?_).congr
      fun error => Stmt.blockOffends_cons
    exact settles_genStmts hctx stmts (hs.genStmt hstmt)

theorem settles_genBranches (hctx : ctx.Knows declared) : (branches : List Branch) →
    {front : List Branch} → {last : List Stmt} → branches = front ++ [.mk .otherwise last] →
    {visible : List String} → {s : GenState} → s.slots.Shows visible →
    (genBranches branches).Settles ctx s
      (Stmt.BranchesOffend declared visible ctx.function branches)
  | [], _, _, hlast, _, _, _ =>
    absurd hlast.symm (List.append_ne_nil_of_right_ne_nil _ (List.cons_ne_nil _ _))
  | [.mk guard body], [], _, hlast, visible, s, hs => by
    cases hlast
    rw [genBranches]
    exact (settles_inBlock (settles_genStmts hctx body hs.enterBlock)).congr
      fun error => Stmt.branchesOffend_last
  | [.mk _ _], b :: front, _, hlast, _, _, _ =>
    absurd (List.cons.inj hlast).2.symm
      (List.append_ne_nil_of_right_ne_nil front (List.cons_ne_nil _ _))
  | .mk guard body :: branch :: branches, [], _, hlast, _, _, _ => nomatch hlast
  | .mk guard body :: branch :: branches, b :: front, last, hlast, visible, s, hs => by
    obtain ⟨-, hrest⟩ := List.cons.inj hlast
    rw [genBranches]
    · cases guard with
      | otherwise => exact settles_fail_bind .otherwise
      | when c =>
        refine Gen.Settles.congr ?_ fun error => Stmt.branchesOffend_when
        refine settles_bind (settles_genCondition hctx hs c) fun hc => ?_
        have hs := slots_of_genCondition hc ▸ hs
        refine settles_branch (settles_inBlock (settles_genStmts hctx body hs.enterBlock))
          fun hbody => ?_
        exact settles_genBranches hctx (branch :: branches) hrest (hs.inBlock hbody)
    · simp

end

end Generate

/-! ## Scripts -/

namespace Draft

variable {d d' : Draft} {declared : List String} {f : Function} {fs : List Function}

/-- Making a registered function settles it. -/
theorem settles_function (hcurrent : d.current = none) (hid : d.functionId? f.name ≠ none)
    (hdeclared : ∀ x, d.functionId? x = none ↔ x ∉ declared) :
    Settles (d.function f).2 (f.Offends declared) := by
  have hctx : (GenContext.mk f.name d.functions).Knows declared := hdeclared
  have hslots : (GenState.mk d.strings (.ofParams f.params)).slots.Shows f.params :=
    Slots.shows_ofParams f.params
  have hbody := settles_genStmts hctx f.body hslots 0
  obtain ⟨id, hid⟩ := Option.ne_none_iff_exists'.1 hid
  have hopened : d.openFunction f.name f.params =
      .ok { d with current := some ⟨f.name, id, [], .ofParams f.params⟩ } := by
    simp only [openFunction, hcurrent, hid]
    rfl
  simp only [function, hopened, generate, List.length_nil]
  cases hresult : (genStmts f.body ⟨f.name, d.functions⟩ 0 ⟨d.strings, .ofParams f.params⟩).result with
  | error error =>
    rw [hresult] at hbody
    exact hbody
  | ok u =>
    rw [hresult] at hbody
    exact hbody

theorem settles_functionBodies (hcurrent : d.current = none)
    (hids : ∀ f ∈ fs, d.functionId? f.name ≠ none)
    (hdeclared : ∀ x, d.functionId? x = none ↔ x ∉ declared) :
    Settles (d.functionBodies fs).2 fun error => ∃ f ∈ fs, f.Offends declared error := by
  induction fs generalizing d with
  | nil =>
    rintro error ⟨f, hf, -⟩
    exact nomatch hf
  | cons f fs ih =>
    obtain ⟨hid, hids⟩ := List.forall_mem_cons.1 hids
    have hsettles := settles_function hcurrent hid hdeclared
    rw [functionBodies]
    rcases hf : d.function f with ⟨d', result⟩
    rw [hf] at hsettles
    cases result with
    | error error => exact ⟨f, List.mem_cons_self, hsettles⟩
    | ok u =>
      obtain ⟨id, code, s', -, -, rfl⟩ := function_ok hf
      refine Settles.congr (ih rfl hids hdeclared) fun error => ?_
      simp only [List.mem_cons, exists_eq_or_imp]
      exact or_iff_right (hsettles error)

/-- Registering fails at a function that has the name of one before it. -/
theorem repeats_of_registerAll {seen : Table String Span} {before : List Function}
    {error : CompileError} (h : d.registerAll seen fs = (d', .error error))
    (hseen : ∀ x span, seen.get? x = some span → ∃ g ∈ before, g.name = x ∧ g.span = span) :
    Function.Repeats (before ++ fs) error := by
  induction fs generalizing d seen before with
  | nil => exact nomatch h
  | cons f fs ih =>
    rw [registerAll] at h
    cases hfirst : seen.get? f.name with
    | some first =>
      rw [hfirst] at h
      obtain rfl : .duplicateFunction f.name f.span first = error :=
        Except.error.inj (congrArg Prod.snd h)
      obtain ⟨g, hg, hname, rfl⟩ := hseen f.name first hfirst
      obtain ⟨front, between, rfl⟩ := List.append_of_mem hg
      exact ⟨front, g, between, f, fs, by simp, hname, rfl⟩
    | none =>
      rw [hfirst] at h
      rw [List.append_cons]
      refine ih h fun x span hspan => ?_
      by_cases hx : x = f.name
      · rw [hx, Table.get?_insert_self] at hspan
        exact ⟨f, List.mem_append_right before List.mem_cons_self, hx.symm, Option.some.inj hspan⟩
      · rw [Table.get?_insert_ne hx] at hspan
        obtain ⟨g, hg, hgx⟩ := hseen x span hspan
        exact ⟨g, List.mem_append_left [f] hg, hgx⟩

end Draft

namespace Script

/-- Compilation settles scripts: it succeeds and nothing is wrong, or its error is something that
    is wrong. -/
theorem settles_compile (s : Script) : Settles s.compile s.Offends := by
  rw [compile, compileWith, Draft.script]
  rcases hregister : Draft.empty.registerAll [] s.functions with ⟨d, result⟩
  cases result with
  | error error =>
    have hrepeats : Function.Repeats ([] ++ s.functions) error :=
      Draft.repeats_of_registerAll hregister nofun
    exact .inl hrepeats
  | ok u =>
    obtain ⟨rfl, hnodup⟩ := Draft.registerAll_ok hregister rfl List.nodup_nil (by simp)
    rw [List.nil_append] at hnodup ⊢
    have hdeclared : ∀ x, Draft.functionId? { Draft.empty with functions :=
        ⟨(s.functions.map Function.name).toArray⟩ } x = none ↔ x ∉ s.functionNames := by
      simp [Draft.functionId?, Interner.id?, functionNames]
    have hids : ∀ f ∈ s.functions, Draft.functionId? { Draft.empty with functions :=
        ⟨(s.functions.map Function.name).toArray⟩ } f.name ≠ none := fun f hf hnone =>
      (hdeclared f.name).1 hnone (List.mem_map_of_mem hf)
    have hbodies := (Draft.settles_functionBodies rfl hids hdeclared).congr fun error =>
      or_iff_right fun h : Function.Repeats s.functions error => h.not_nodup hnodup
    dsimp only
    rcases hfunctions : Draft.functionBodies _ s.functions with ⟨d', result⟩
    rw [hfunctions] at hbodies
    cases result with
    | error error => exact hbodies
    | ok u => exact hbodies

/-- Code is generated for exactly the scripts that make sense, whether or not they could be read
    from a source. -/
theorem compile_isOk_iff_wellFormed (s : Script) : (∃ p, s.compile = .ok p) ↔ s.WellFormed := by
  have hsettles := s.settles_compile
  constructor
  · rintro ⟨p, hp⟩
    rw [hp] at hsettles
    refine ⟨(compiled_of_compile hp).distinct, fun f hf => ?_⟩
    exact Function.wellFormed_iff.2 fun error hoffends => hsettles error (.inr ⟨f, hf, hoffends⟩)
  · intro h
    cases hp : s.compile with
    | ok p => exact ⟨p, rfl⟩
    | error error =>
      rw [hp] at hsettles
      exact absurd hsettles (h.not_offends error)

end Script

end ScriptMachine
