import ScriptMachine.Compile
import ScriptMachine.Proofs.Meaning

/-!
# The layout of generated code

What the code of a tree looks like, said without the generator: the relations of
this module connect a tree with a piece of code, the index at which the piece
starts and the slots before and after it. Numbers of functions and strings are
those of the finished program, so a piece means the same wherever it stands in the
course of generation.

* `ExprCode`, `StmtCode`: the code of an expression leaves the slots alone, while
  that of a statement may give new ones out. Jumps stand with their targets.
* `exprCode_of_genExpr`, `stmtsCode_of_genStmts`: the generator makes such code.
* `Script.Compiled`: what a program has in common with the script it was made
  from; `Script.compiled_of_compile` finds it in every script that is compiled.

Facts about generated code are proved from these relations, along the tree. Only
this module looks into the generator.
-/

namespace ScriptMachine

/-! ## Code of expressions -/

section Expr

variable (ids : String → Option Nat) (texts : Array String) (slots : Slots)

/-- The instruction that pushes a constant. -/
def LiteralCode : Literal → Instruction → Prop
  | .int n, i => i = .ofInt .pushInt n.toInt
  | .float x, i => i = .ofFloat .pushFloat x
  | .bool b, i => i = .ofNat .pushBool b.toNat
  | .text s, i => ∃ id, texts[id]? = some s ∧ i = .ofNat .pushString id

/-- The instructions of an operator, behind those of its operands. -/
def BinaryOp.code (op : BinaryOp) : List Instruction :=
  if op = .notEquals then [.bare .eq, .bare .not] else [.bare op.opcode]

/-- The instructions of a call, behind those of its arguments. -/
inductive CalleeCode (argCount : Nat) : CallKind → String → List Instruction → Prop where
  | ofFunction {name : String} {id : Nat} (hid : ids name = some id) :
      CalleeCode argCount .internal name [.ofNat .pushFunction id, .ofNat .call argCount]
  | ofVariable {name : String} {slot : Nat} (hid : ids name = none)
      (hslot : slots.resolve name = some slot) :
      CalleeCode argCount .internal name [.ofNat .getLocal slot, .ofNat .call argCount]
  | ofHost {name : String} {id : Nat} (hid : texts[id]? = some name) :
      CalleeCode argCount .external name [.ofNat .pushString id, .ofNat .external argCount]

mutual

/-- The code of an expression. -/
inductive ExprCode : Expr → List Instruction → Prop where
  | literal {l : Literal} {i : Instruction} (h : LiteralCode texts l i) : ExprCode (.literal l) [i]
  | ident {name : String} {slot : Nat} (hslot : slots.resolve name = some slot) :
      ExprCode (.ident name) [.ofNat .getLocal slot]
  | functionRef {name : String} {id : Nat} (hid : ids name = some id) :
      ExprCode (.functionRef name) [.ofNat .pushFunction id]
  | call {kind : CallKind} {name : String} {args : List Expr} {code tail : List Instruction}
      (hargs : ExprsCode args code) (htail : CalleeCode ids texts slots args.length kind name tail) :
      ExprCode (.call kind name args) (code ++ tail)
  | binary {op : BinaryOp} {left right : Expr} {codeLeft codeRight : List Instruction}
      (hleft : ExprCode left codeLeft) (hright : ExprCode right codeRight) :
      ExprCode (.binary op left right) (codeLeft ++ (codeRight ++ op.code))
  | not {e : Expr} {code : List Instruction} (h : ExprCode e code) :
      ExprCode (.not e) (code ++ [.bare .not])
  | negate {e : Expr} {code : List Instruction} (h : ExprCode e code) :
      ExprCode (.negate e) (code ++ [.ofInt .pushInt (-1), .bare .mul])

/-- The code of expressions, one behind the other. -/
inductive ExprsCode : List Expr → List Instruction → Prop where
  | nil : ExprsCode [] []
  | cons {e : Expr} {es : List Expr} {code codes : List Instruction} (h : ExprCode e code)
      (hs : ExprsCode es codes) : ExprsCode (e :: es) (code ++ codes)

end

end Expr

/-- The code of an expression is not empty. -/
theorem ExprCode.length_pos {ids : String → Option Nat} {texts : Array String} {slots : Slots}
    {e : Expr} {code : List Instruction} (h : ExprCode ids texts slots e code) : 0 < code.length := by
  cases h with
  | literal | ident | functionRef => exact Nat.one_pos
  | call _ htail => cases htail <;> simp
  | @binary op =>
    have hop : 0 < op.code.length := by cases op <;> exact Nat.succ_pos _
    simp only [List.length_append]
    omega
  | not | negate => simp

/-- There are at least as many instructions as expressions. -/
theorem ExprsCode.length_le {ids : String → Option Nat} {texts : Array String} {slots : Slots}
    {es : List Expr} {code : List Instruction} (h : ExprsCode ids texts slots es code) :
    es.length ≤ code.length := by
  induction es generalizing code with
  | nil => exact Nat.zero_le _
  | cons e es ih =>
    cases h with
    | cons he hes =>
      have := he.length_pos
      have := ih hes
      rw [List.length_append, List.length_cons]
      omega

/-! ## Code of statements -/

section Stmt

variable (ids : String → Option Nat) (texts : Array String)

mutual

/-- The code of a statement. -/
inductive StmtCode : Slots → (start : Nat) → Stmt → List Instruction → Slots → Prop where
  | assign {slots slots' : Slots} {start slot : Nat} {name : String} {e : Expr}
      {code : List Instruction} (hslot : slots.declare name = (slot, slots'))
      (he : ExprCode ids texts slots' e code) :
      StmtCode slots start (.assign name e) (code ++ [.ofNat .setLocal slot]) slots'
  | loop {slots slots' : Slots} {start : Nat} {c : Expr} {body : List Stmt}
      {test code : List Instruction} (hc : ExprCode ids texts slots c test)
      (hbody : StmtsCode slots.enterBlock (start + test.length + 1) body code slots') :
      StmtCode slots start (.loop c body)
        (test ++ .ofNat .jumpUnless (start + test.length + 1 + code.length + 1) ::
          (code ++ [.ofNat .jump start]))
        slots'.leaveBlock
  | choose {slots slots' : Slots} {start : Nat} {branches : List Branch} {code : List Instruction}
      (h : BranchesCode slots start branches code slots') :
      StmtCode slots start (.choose branches) code slots'
  | call {slots : Slots} {start : Nat} {kind : CallKind} {name : String} {args : List Expr}
      {code tail : List Instruction} (hargs : ExprsCode ids texts slots args code)
      (htail : CalleeCode ids texts slots args.length kind name tail) :
      StmtCode slots start (.call kind name args) (code ++ tail) slots
  | giveUnit {slots : Slots} {start : Nat} :
      StmtCode slots start (.give none) [.bare .pushUnit, .bare .ret] slots
  | give {slots : Slots} {start : Nat} {e : Expr} {code : List Instruction}
      (he : ExprCode ids texts slots e code) :
      StmtCode slots start (.give (some e)) (code ++ [.bare .ret]) slots

/-- The code of statements, one behind the other. -/
inductive StmtsCode : Slots → (start : Nat) → List Stmt → List Instruction → Slots → Prop where
  | nil {slots : Slots} {start : Nat} : StmtsCode slots start [] [] slots
  | cons {slots slots' slots'' : Slots} {start : Nat} {s : Stmt} {ss : List Stmt}
      {code codes : List Instruction} (h : StmtCode slots start s code slots')
      (hs : StmtsCode slots' (start + code.length) ss codes slots'') :
      StmtsCode slots start (s :: ss) (code ++ codes) slots''

/-- The code of the branches of a conditional. -/
inductive BranchesCode : Slots → (start : Nat) → List Branch → List Instruction → Slots → Prop where
  | last {slots slots' : Slots} {start : Nat} {guard : Guard} {body : List Stmt}
      {code : List Instruction} (h : StmtsCode slots.enterBlock start body code slots') :
      BranchesCode slots start [.mk guard body] code slots'.leaveBlock
  | cons {slots slots' slots'' : Slots} {start : Nat} {c : Expr} {body : List Stmt}
      {branch : Branch} {branches : List Branch} {test code codes : List Instruction}
      (hc : ExprCode ids texts slots c test)
      (hbody : StmtsCode slots.enterBlock (start + test.length + 1) body code slots')
      (hrest : BranchesCode slots'.leaveBlock (start + test.length + 1 + code.length + 1)
        (branch :: branches) codes slots'') :
      BranchesCode slots start (.mk (.when c) body :: branch :: branches)
        (test ++ .ofNat .jumpUnless (start + test.length + 1 + code.length + 1) ::
          (code ++ .ofNat .jump (start + test.length + 1 + code.length + 1 + codes.length) :: codes))
        slots''

end

end Stmt

/-- Where a test, what it guards and what stands behind that come to an end, with a jump
    between each two of them. -/
theorem stop_of_guarded (start : Nat) (test code codes : List Instruction) (i j : Instruction) :
    start + (test ++ i :: (code ++ j :: codes)).length =
      start + test.length + 1 + code.length + 1 + codes.length := by
  simp only [List.length_append, List.length_cons]
  omega

/-! ## What generators yield -/

namespace Interner

variable {i j : Interner} {s : String} {id : Nat}

/-- Numbers once given keep their texts. -/
def Within (i : Interner) (texts : Array String) : Prop :=
  ∀ (id : Nat) (s : String), i.texts[id]? = some s → texts[id]? = some s

theorem within_refl (i : Interner) : i.Within i.texts := fun _ _ h => h

theorem Within.trans {texts : Array String} (hij : i.Within j.texts) (hj : j.Within texts) :
    i.Within texts := fun id s h => hj id s (hij id s h)

theorem text_of_id? (h : i.id? s = some id) : i.texts[id]? = some s := by
  obtain ⟨⟨texts⟩⟩ := i
  rw [id?, List.idxOf?_toArray] at h
  obtain ⟨hlt, hs, -⟩ := List.idxOf?_eq_some_iff.1 h
  simp [hlt, hs]

/-- A number that is given for a text is the number of that text. -/
theorem intern_spec (h : i.intern s = (id, j)) : j.texts[id]? = some s ∧ i.Within j.texts := by
  unfold intern at h
  split at h
  · next hid =>
    obtain ⟨rfl, rfl⟩ := Prod.mk.inj h
    exact ⟨text_of_id? hid, within_refl i⟩
  · obtain ⟨rfl, rfl⟩ := Prod.mk.inj h
    refine ⟨by simp, fun id s hs => ?_⟩
    obtain ⟨hlt, rfl⟩ := Array.getElem?_eq_some_iff.1 hs
    rw [Array.getElem?_push_lt hlt]

end Interner

namespace Gen

variable {α β : Type} {ctx : GenContext} {start : Nat} {s s' : GenState} {code : List Instruction}
  {a : α} {b : β}

/-- A generator makes a complete piece of code. -/
def Yields (g : Gen α) (ctx : GenContext) (start : Nat) (s : GenState) (code : List Instruction)
    (s' : GenState) (a : α) : Prop := g ctx start s = ⟨code, s', .ok a⟩

theorem yields_of_result {g : Gen α} (h : (g ctx start s).result = .ok a) :
    g.Yields ctx start s (g ctx start s).code (g ctx start s).state a := by
  rw [Yields, ← h]

@[simp] theorem yields_pure {a' : α} :
    (pure a : Gen α).Yields ctx start s code s' a' ↔ code = [] ∧ s' = s ∧ a' = a := by
  simp [Yields, pure, Gen.pure, eq_comm]

@[simp] theorem yields_emit {i : Instruction} {u : Unit} :
    (emit i).Yields ctx start s code s' u ↔ code = [i] ∧ s' = s := by
  simp [Yields, emit, eq_comm]

@[simp] theorem not_yields_fail {error : String → CompileError} :
    ¬(fail error : Gen α).Yields ctx start s code s' a := by
  simp [Yields, fail]

@[simp] theorem yields_here {n : Nat} :
    here.Yields ctx start s code s' n ↔ code = [] ∧ s' = s ∧ n = start := by
  simp [Yields, here, eq_comm]

@[simp] theorem yields_function? {name : String} {id : Option Nat} :
    (function? name).Yields ctx start s code s' id ↔
      code = [] ∧ s' = s ∧ id = ctx.functions.id? name := by
  simp [Yields, function?, eq_comm]

@[simp] theorem yields_string {text : String} {id : Nat} :
    (string text).Yields ctx start s code s' id ↔
      code = [] ∧ s.strings.intern text = (id, s'.strings) ∧ s'.slots = s.slots := by
  obtain ⟨strings, slots⟩ := s
  obtain ⟨strings', slots'⟩ := s'
  simp only [Yields, string, Generated.mk.injEq, GenState.mk.injEq, Except.ok.injEq, Prod.ext_iff]
  grind

@[simp] theorem yields_declare {name : String} {slot : Nat} :
    (declare name).Yields ctx start s code s' slot ↔
      code = [] ∧ s'.strings = s.strings ∧ s.slots.declare name = (slot, s'.slots) := by
  obtain ⟨strings, slots⟩ := s
  obtain ⟨strings', slots'⟩ := s'
  simp only [Yields, declare, Generated.mk.injEq, GenState.mk.injEq, Except.ok.injEq, Prod.ext_iff]
  grind

@[simp] theorem yields_resolve {name : String} {slot : Nat} :
    (resolve name).Yields ctx start s code s' slot ↔
      code = [] ∧ s' = s ∧ s.slots.resolve name = some slot := by
  unfold Yields resolve
  split
  · next h => simp [h, eq_comm]
  · next h => simp [h]

@[simp] theorem yields_updateSlots {f : Slots → Slots} {u : Unit} :
    (updateSlots f).Yields ctx start s code s' u ↔ code = [] ∧ s' = { s with slots := f s.slots } := by
  simp [Yields, updateSlots, eq_comm]

/-- A piece behind another one is made where the other one ends. -/
theorem yields_bind {g : Gen α} {f : α → Gen β} :
    (g >>= f).Yields ctx start s code s' b ↔
      ∃ code₁ s₁ a code₂, g.Yields ctx start s code₁ s₁ a ∧
        (f a).Yields ctx (start + code₁.length) s₁ code₂ s' b ∧ code = code₁ ++ code₂ := by
  constructor
  · intro h
    simp only [Yields, bind, Gen.bind] at h
    split at h
    · simp at h
    · next a ha =>
      obtain ⟨rfl, rfl, hb⟩ := Generated.mk.inj h
      exact ⟨_, _, a, _, yields_of_result ha, yields_of_result hb, rfl⟩
  · rintro ⟨code₁, s₁, a, code₂, hg, hf, rfl⟩
    simp only [Yields] at hg hf
    simp only [Yields, bind, Gen.bind, hg, hf]

theorem yields_jumpOver {opcode : Opcode} {g : Gen α} :
    (jumpOver opcode g).Yields ctx start s code s' a ↔
      ∃ piece, g.Yields ctx (start + 1) s piece s' a ∧
        code = .ofNat opcode (start + 1 + piece.length) :: piece := by
  constructor
  · intro h
    obtain ⟨rfl, rfl, ha⟩ := Generated.mk.inj h
    exact ⟨_, yields_of_result ha, by rw [endOf, ha]⟩
  · rintro ⟨piece, hg, rfl⟩
    simp only [Yields] at hg
    simp [Yields, jumpOver, hg, endOf]

theorem yields_branch {body rest : Gen Unit} {u : Unit} :
    (branch body rest).Yields ctx start s code s' u ↔
      ∃ piece s₁ pieces, body.Yields ctx (start + 1) s piece s₁ () ∧
        rest.Yields ctx (start + 1 + piece.length + 1) s₁ pieces s' () ∧
        code = .ofNat .jumpUnless (start + 1 + piece.length + 1) ::
          (piece ++ .ofNat .jump (start + 1 + piece.length + 1 + pieces.length) :: pieces) := by
  constructor
  · intro h
    simp only [Yields, branch] at h
    split at h
    · simp at h
    · next hbody =>
      obtain ⟨rfl, rfl, hrest⟩ := Generated.mk.inj h
      obtain ⟨pieces, hpieces, hcode⟩ := yields_jumpOver.1 (yields_of_result hrest)
      exact ⟨_, _, pieces, yields_of_result hbody, hpieces, by rw [hcode]⟩
  · rintro ⟨piece, s₁, pieces, hbody, hrest, rfl⟩
    simp only [Yields] at hbody hrest
    simp [Yields, branch, jumpOver, hbody, hrest, endOf]

theorem yields_inBlock {body : Gen Unit} {u : Unit} :
    (inBlock body).Yields ctx start s code s' u ↔
      ∃ s₁, body.Yields ctx start { s with slots := s.slots.enterBlock } code s₁ () ∧
        s' = { s₁ with slots := s₁.slots.leaveBlock } := by
  simp only [inBlock, yields_bind, yields_updateSlots]
  constructor
  · rintro ⟨_, _, _, _, ⟨rfl, rfl⟩, ⟨piece, s₁, _, _, hbody, ⟨rfl, rfl⟩, rfl⟩, rfl⟩
    exact ⟨s₁, by simpa using hbody, rfl⟩
  · rintro ⟨s₁, hbody, rfl⟩
    exact ⟨[], _, (), code, ⟨rfl, rfl⟩, ⟨code, s₁, (), [], by simpa using hbody, ⟨rfl, rfl⟩,
      (List.append_nil code).symm⟩, rfl⟩

end Gen

/-! ## The generator makes such code -/

section

variable {ctx : GenContext} {texts : Array String} {start : Nat} {s s' : GenState}
  {code : List Instruction} {u : Unit}

theorem literalCode_of_genLiteral {l : Literal}
    (h : (genLiteral l).Yields ctx start s code s' u) (htexts : s'.strings.Within texts) :
    (∃ i, LiteralCode texts l i ∧ code = [i]) ∧ s'.slots = s.slots ∧
      s.strings.Within s'.strings.texts := by
  cases l with
  | int | float | bool =>
    obtain ⟨rfl, rfl⟩ := Gen.yields_emit.1 h
    exact ⟨⟨_, rfl, rfl⟩, rfl, s'.strings.within_refl⟩
  | text t =>
    obtain ⟨_, s₁, id, _, hstring, hemit, rfl⟩ := Gen.yields_bind.1 h
    obtain ⟨rfl, hid, hslots⟩ := Gen.yields_string.1 hstring
    obtain ⟨rfl, rfl⟩ := Gen.yields_emit.1 hemit
    obtain ⟨ht, hwithin⟩ := Interner.intern_spec hid
    exact ⟨⟨_, ⟨id, htexts id t ht, rfl⟩, rfl⟩, hslots, hwithin⟩

theorem calleeCode_of_genCallee {kind : CallKind} {name : String} {argCount : Nat}
    (h : (genCallee kind name argCount).Yields ctx start s code s' u)
    (htexts : s'.strings.Within texts) :
    CalleeCode ctx.functions.id? texts s.slots argCount kind name code ∧ s'.slots = s.slots ∧
      s.strings.Within s'.strings.texts := by
  cases kind with
  | internal =>
    obtain ⟨_, _, id?, _, hid?, h₁, rfl⟩ := Gen.yields_bind.1 h
    obtain ⟨rfl, rfl, rfl⟩ := Gen.yields_function?.1 hid?
    dsimp only at h₁
    -- A function comes before a variable of the same name.
    split at h₁
    · next id hid =>
      obtain ⟨_, _, _, _, hpush, hcall, rfl⟩ := Gen.yields_bind.1 h₁
      obtain ⟨rfl, rfl⟩ := Gen.yields_emit.1 hpush
      obtain ⟨rfl, rfl⟩ := Gen.yields_emit.1 hcall
      exact ⟨.ofFunction hid, rfl, s'.strings.within_refl⟩
    · next hid =>
      obtain ⟨_, _, slot, _, hresolve, h₂, rfl⟩ := Gen.yields_bind.1 h₁
      obtain ⟨rfl, rfl, hslot⟩ := Gen.yields_resolve.1 hresolve
      obtain ⟨_, _, _, _, hpush, hcall, rfl⟩ := Gen.yields_bind.1 h₂
      obtain ⟨rfl, rfl⟩ := Gen.yields_emit.1 hpush
      obtain ⟨rfl, rfl⟩ := Gen.yields_emit.1 hcall
      exact ⟨.ofVariable hid hslot, rfl, s'.strings.within_refl⟩
  | external =>
    obtain ⟨_, s₁, id, _, hstring, h₁, rfl⟩ := Gen.yields_bind.1 h
    obtain ⟨rfl, hid, hslots⟩ := Gen.yields_string.1 hstring
    obtain ⟨_, _, _, _, hpush, hcall, rfl⟩ := Gen.yields_bind.1 h₁
    obtain ⟨rfl, rfl⟩ := Gen.yields_emit.1 hpush
    obtain ⟨rfl, rfl⟩ := Gen.yields_emit.1 hcall
    obtain ⟨hname, hwithin⟩ := Interner.intern_spec hid
    exact ⟨.ofHost (htexts id name hname), hslots, hwithin⟩

mutual

/-- The code that is generated for an expression is its code; no slot is given
    out. -/
theorem exprCode_of_genExpr : (e : Expr) → {start : Nat} → {s s' : GenState} →
    {code : List Instruction} → {u : Unit} → (genExpr e).Yields ctx start s code s' u →
    s'.strings.Within texts →
    ExprCode ctx.functions.id? texts s.slots e code ∧ s'.slots = s.slots ∧
      s.strings.Within s'.strings.texts
  | .literal l, _, s, s', code, _, h, htexts => by
    rw [genExpr] at h
    obtain ⟨⟨i, hi, rfl⟩, hslots, hwithin⟩ := literalCode_of_genLiteral h htexts
    exact ⟨.literal hi, hslots, hwithin⟩
  | .ident name, _, s, s', code, _, h, _ => by
    rw [genExpr] at h
    obtain ⟨_, _, slot, _, hslot, hemit, rfl⟩ := Gen.yields_bind.1 h
    obtain ⟨rfl, rfl, hslot⟩ := Gen.yields_resolve.1 hslot
    obtain ⟨rfl, rfl⟩ := Gen.yields_emit.1 hemit
    exact ⟨.ident hslot, rfl, s'.strings.within_refl⟩
  | .functionRef name, _, s, s', code, _, h, _ => by
    rw [genExpr] at h
    obtain ⟨_, _, id?, _, hid?, h₁, rfl⟩ := Gen.yields_bind.1 h
    obtain ⟨rfl, rfl, rfl⟩ := Gen.yields_function?.1 hid?
    split at h₁
    · next id hid =>
      obtain ⟨rfl, rfl⟩ := Gen.yields_emit.1 h₁
      exact ⟨.functionRef hid, rfl, s'.strings.within_refl⟩
    · exact absurd h₁ Gen.not_yields_fail
  | .call kind name args, _, s, s', code, _, h, htexts => by
    rw [genExpr] at h
    obtain ⟨_, s₁, _, _, hargs, hcallee, rfl⟩ := Gen.yields_bind.1 h
    -- From the last piece to the first, as only the last strings are known to be kept.
    obtain ⟨hcallee, hslots₂, hwithin₂⟩ := calleeCode_of_genCallee hcallee htexts
    obtain ⟨hargs, hslots₁, hwithin₁⟩ := exprsCode_of_genExprs args hargs (hwithin₂.trans htexts)
    rw [hslots₁] at hcallee hslots₂
    exact ⟨.call hargs hcallee, hslots₂, hwithin₁.trans hwithin₂⟩
  | .binary op left right, _, s, s', code, _, h, htexts => by
    rw [genExpr] at h
    obtain ⟨_, s₁, _, _, hleft, h₁, rfl⟩ := Gen.yields_bind.1 h
    obtain ⟨_, s₂, _, tail, hright, h₂, rfl⟩ := Gen.yields_bind.1 h₁
    -- Behind the operands stands the operator, which may be followed by a negation.
    obtain ⟨rfl, rfl⟩ : tail = op.code ∧ s' = s₂ := by
      obtain ⟨_, _, _, _, hemit, h₃, rfl⟩ := Gen.yields_bind.1 h₂
      obtain ⟨rfl, rfl⟩ := Gen.yields_emit.1 hemit
      split at h₃
      · next hop =>
        obtain ⟨rfl, rfl⟩ := Gen.yields_emit.1 h₃
        exact ⟨by simp [BinaryOp.code, hop, BinaryOp.opcode], rfl⟩
      · next hop =>
        obtain ⟨rfl, rfl, -⟩ := Gen.yields_pure.1 h₃
        exact ⟨by simp [BinaryOp.code, hop], rfl⟩
    obtain ⟨hright, hslots₂, hwithin₂⟩ := exprCode_of_genExpr right hright htexts
    obtain ⟨hleft, hslots₁, hwithin₁⟩ := exprCode_of_genExpr left hleft (hwithin₂.trans htexts)
    rw [hslots₁] at hright hslots₂
    exact ⟨.binary hleft hright, hslots₂, hwithin₁.trans hwithin₂⟩
  | .not e, _, s, s', code, _, h, htexts => by
    rw [genExpr] at h
    obtain ⟨_, s₁, _, _, he, h₁, rfl⟩ := Gen.yields_bind.1 h
    obtain ⟨rfl, rfl⟩ := Gen.yields_emit.1 h₁
    obtain ⟨he, hslots, hwithin⟩ := exprCode_of_genExpr e he htexts
    exact ⟨.not he, hslots, hwithin⟩
  | .negate e, _, s, s', code, _, h, htexts => by
    rw [genExpr] at h
    obtain ⟨_, s₁, _, _, he, h₁, rfl⟩ := Gen.yields_bind.1 h
    obtain ⟨_, _, _, _, hpush, h₂, rfl⟩ := Gen.yields_bind.1 h₁
    obtain ⟨rfl, rfl⟩ := Gen.yields_emit.1 hpush
    obtain ⟨rfl, rfl⟩ := Gen.yields_emit.1 h₂
    obtain ⟨he, hslots, hwithin⟩ := exprCode_of_genExpr e he htexts
    exact ⟨.negate he, hslots, hwithin⟩
  | .access _ _, _, _, _, _, _, h, _ => by
    rw [genExpr] at h
    exact absurd h Gen.not_yields_fail

theorem exprsCode_of_genExprs : (es : List Expr) → {start : Nat} → {s s' : GenState} →
    {code : List Instruction} → {u : Unit} → (genExprs es).Yields ctx start s code s' u →
    s'.strings.Within texts →
    ExprsCode ctx.functions.id? texts s.slots es code ∧ s'.slots = s.slots ∧
      s.strings.Within s'.strings.texts
  | [], _, s, s', code, _, h, _ => by
    rw [genExprs] at h
    obtain ⟨rfl, rfl, -⟩ := Gen.yields_pure.1 h
    exact ⟨.nil, rfl, s'.strings.within_refl⟩
  | e :: es, _, s, s', code, _, h, htexts => by
    rw [genExprs] at h
    obtain ⟨_, s₁, _, _, he, hes, rfl⟩ := Gen.yields_bind.1 h
    obtain ⟨hes, hslots₂, hwithin₂⟩ := exprsCode_of_genExprs es hes htexts
    obtain ⟨he, hslots₁, hwithin₁⟩ := exprCode_of_genExpr e he (hwithin₂.trans htexts)
    rw [hslots₁] at hes hslots₂
    exact ⟨.cons he hes, hslots₂, hwithin₁.trans hwithin₂⟩

end

theorem exprCode_of_genCondition {c : Expr} (h : (genCondition c).Yields ctx start s code s' u)
    (htexts : s'.strings.Within texts) :
    ExprCode ctx.functions.id? texts s.slots c code ∧ s'.slots = s.slots ∧
      s.strings.Within s'.strings.texts := by
  unfold genCondition at h
  split at h
  · exact absurd h Gen.not_yields_fail
  · exact exprCode_of_genExpr c h htexts

mutual

/-- The code that is generated for a statement is its code. -/
theorem stmtCode_of_genStmt : (stmt : Stmt) → {start : Nat} → {s s' : GenState} →
    {code : List Instruction} → {u : Unit} → (genStmt stmt).Yields ctx start s code s' u →
    s'.strings.Within texts →
    StmtCode ctx.functions.id? texts s.slots start stmt code s'.slots ∧
      s.strings.Within s'.strings.texts
  | .assign name e, _, s, s', code, _, h, htexts => by
    rw [genStmt] at h
    obtain ⟨_, s₁, slot, _, hdeclare, h₁, rfl⟩ := Gen.yields_bind.1 h
    obtain ⟨rfl, hstrings, hslot⟩ := Gen.yields_declare.1 hdeclare
    obtain ⟨_, s₂, _, _, he, hemit, rfl⟩ := Gen.yields_bind.1 h₁
    obtain ⟨rfl, rfl⟩ := Gen.yields_emit.1 hemit
    obtain ⟨he, hslots, hwithin⟩ := exprCode_of_genExpr e he htexts
    rw [hslots]
    exact ⟨.assign hslot he, hstrings ▸ hwithin⟩
  | .loop c body, start, s, s', code, _, h, htexts => by
    rw [genStmt] at h
    obtain ⟨_, _, _, _, hhere, h₁, rfl⟩ := Gen.yields_bind.1 h
    obtain ⟨rfl, rfl, rfl⟩ := Gen.yields_here.1 hhere
    obtain ⟨test, s₁, _, _, hc, h₂, rfl⟩ := Gen.yields_bind.1 h₁
    obtain ⟨_, h₃, rfl⟩ := Gen.yields_jumpOver.1 h₂
    obtain ⟨piece, _, _, _, hblock, hemit, rfl⟩ := Gen.yields_bind.1 h₃
    obtain ⟨rfl, rfl⟩ := Gen.yields_emit.1 hemit
    obtain ⟨s₂, hbody, rfl⟩ := Gen.yields_inBlock.1 hblock
    obtain ⟨hbody, hwithin₂⟩ := stmtsCode_of_genStmts body hbody htexts
    obtain ⟨hc, hslots, hwithin₁⟩ := exprCode_of_genCondition hc (hwithin₂.trans htexts)
    rw [hslots] at hbody
    have hcode := StmtCode.loop hc hbody
    -- The jump over the body leads behind the jump back.
    simp only [List.length_append, List.length_singleton, ← Nat.add_assoc]
    exact ⟨hcode, hwithin₁.trans hwithin₂⟩
  | .choose branches, _, s, s', code, _, h, htexts => by
    rw [genStmt] at h
    split at h
    · exact absurd h Gen.not_yields_fail
    · next hproblem =>
      have hne : branches ≠ [] := by
        rintro rfl
        simp [branchesProblem] at hproblem
      obtain ⟨hbranches, hwithin⟩ := branchesCode_of_genBranches branches hne h htexts
      exact ⟨.choose hbranches, hwithin⟩
  | .call kind name args, _, s, s', code, _, h, htexts => by
    rw [genStmt] at h
    obtain ⟨_, s₁, _, _, hargs, hcallee, rfl⟩ := Gen.yields_bind.1 h
    obtain ⟨hcallee, hslots₂, hwithin₂⟩ := calleeCode_of_genCallee hcallee htexts
    obtain ⟨hargs, hslots₁, hwithin₁⟩ := exprsCode_of_genExprs args hargs (hwithin₂.trans htexts)
    rw [hslots₁] at hcallee hslots₂
    rw [hslots₂]
    exact ⟨.call hargs hcallee, hwithin₁.trans hwithin₂⟩
  | .give none, _, s, s', code, _, h, _ => by
    rw [genStmt] at h
    obtain ⟨_, _, _, _, hpush, hret, rfl⟩ := Gen.yields_bind.1 h
    obtain ⟨rfl, rfl⟩ := Gen.yields_emit.1 hpush
    obtain ⟨rfl, rfl⟩ := Gen.yields_emit.1 hret
    exact ⟨.giveUnit, s'.strings.within_refl⟩
  | .give (some e), _, s, s', code, _, h, htexts => by
    rw [genStmt] at h
    obtain ⟨_, s₁, _, _, he, hret, rfl⟩ := Gen.yields_bind.1 h
    obtain ⟨rfl, rfl⟩ := Gen.yields_emit.1 hret
    obtain ⟨he, hslots, hwithin⟩ := exprCode_of_genExpr e he htexts
    rw [hslots]
    exact ⟨.give he, hwithin⟩

theorem stmtsCode_of_genStmts : (stmts : List Stmt) → {start : Nat} → {s s' : GenState} →
    {code : List Instruction} → {u : Unit} → (genStmts stmts).Yields ctx start s code s' u →
    s'.strings.Within texts →
    StmtsCode ctx.functions.id? texts s.slots start stmts code s'.slots ∧
      s.strings.Within s'.strings.texts
  | [], _, s, s', code, _, h, _ => by
    rw [genStmts] at h
    obtain ⟨rfl, rfl, -⟩ := Gen.yields_pure.1 h
    exact ⟨.nil, s'.strings.within_refl⟩
  | stmt :: stmts, _, s, s', code, _, h, htexts => by
    rw [genStmts] at h
    obtain ⟨_, s₁, _, _, hstmt, hstmts, rfl⟩ := Gen.yields_bind.1 h
    obtain ⟨hstmts, hwithin₂⟩ := stmtsCode_of_genStmts stmts hstmts htexts
    obtain ⟨hstmt, hwithin₁⟩ := stmtCode_of_genStmt stmt hstmt (hwithin₂.trans htexts)
    exact ⟨.cons hstmt hstmts, hwithin₁.trans hwithin₂⟩

theorem branchesCode_of_genBranches : (branches : List Branch) → branches ≠ [] → {start : Nat} →
    {s s' : GenState} → {code : List Instruction} → {u : Unit} →
    (genBranches branches).Yields ctx start s code s' u → s'.strings.Within texts →
    BranchesCode ctx.functions.id? texts s.slots start branches code s'.slots ∧
      s.strings.Within s'.strings.texts
  | [], hne, _, _, _, _, _, _, _ => absurd rfl hne
  | [.mk guard body], _, _, s, s', code, _, h, htexts => by
    rw [genBranches] at h
    obtain ⟨s₁, hbody, rfl⟩ := Gen.yields_inBlock.1 h
    obtain ⟨hbody, hwithin⟩ := stmtsCode_of_genStmts body hbody htexts
    exact ⟨.last hbody, hwithin⟩
  | .mk guard body :: branch :: branches, _, start, s, s', code, _, h, htexts => by
    rw [genBranches] at h
    · obtain ⟨test, s₁, _, _, hguard, h₁, rfl⟩ := Gen.yields_bind.1 h
      obtain ⟨piece, _, pieces, hblock, hrest, rfl⟩ := Gen.yields_branch.1 h₁
      obtain ⟨s₂, hbody, rfl⟩ := Gen.yields_inBlock.1 hblock
      obtain ⟨hrest, hwithin₃⟩ :=
        branchesCode_of_genBranches (branch :: branches) (by simp) hrest htexts
      obtain ⟨hbody, hwithin₂⟩ := stmtsCode_of_genStmts body hbody (hwithin₃.trans htexts)
      cases guard with
      | otherwise => exact absurd hguard Gen.not_yields_fail -- Only the last branch may be one.
      | when c =>
        obtain ⟨hc, hslots, hwithin₁⟩ :=
          exprCode_of_genCondition hguard (hwithin₂.trans (hwithin₃.trans htexts))
        rw [hslots] at hbody
        exact ⟨.cons hc hbody hrest, hwithin₁.trans (hwithin₂.trans hwithin₃)⟩
    · simp

end

end

/-! ## Programs of scripts -/

/-- The slots of a function before its body: its parameters have the first ones. -/
def Slots.ofParams (params : List String) : Slots :=
  params.foldl (fun s p => (s.declare p).2) (.new Draft.reservedSlots)

namespace Draft

variable {d d' : Draft}

/-- What making a function changes: its body is new, and there may be new strings. -/
theorem function_ok {f : Function} {u : Unit} (h : d.function f = (d', .ok u)) :
    ∃ id code s', d.functionId? f.name = some id ∧
      (genStmts f.body).Yields ⟨f.name, d.functions⟩ 0 ⟨d.strings, .ofParams f.params⟩ code s' () ∧
      d' = { d with
        strings := s'.strings, bodies := d.bodies.insert id (completed code), current := none } := by
  unfold function openFunction at h
  cases hcurrent : d.current with
  | some g => simp [hcurrent] at h
  | none =>
    cases hid : d.functionId? f.name with
    | none => simp [hcurrent, hid] at h
    | some id =>
      simp only [hcurrent, hid, generate] at h
      split at h
      · simp at h
      · next d₁ a hgen =>
        obtain ⟨rfl, ha⟩ := Prod.mk.inj hgen
        simp only [closeFunction, Prod.mk.injEq] at h
        exact ⟨id, _, _, rfl, Gen.yields_of_result ha, h.1.symm⟩

/-- Functions are numbered in their order, and only if their names differ. -/
theorem registerAll_ok {fs : List Function} {seen : Table String Span} {known : List String}
    {u : Unit} (h : d.registerAll seen fs = (d', .ok u)) (hd : d.functions = ⟨known.toArray⟩)
    (hknown : known.Nodup) (hseen : ∀ x ∈ known, x ∈ seen.keys) :
    d' = { d with functions := ⟨(known ++ fs.map Function.name).toArray⟩ } ∧
      (known ++ fs.map Function.name).Nodup := by
  induction fs generalizing d seen known with
  | nil =>
    obtain ⟨rfl, -⟩ := Prod.mk.inj h
    simpa [← hd] using hknown
  | cons f fs ih =>
    rw [registerAll] at h
    cases hfirst : seen.get? f.name with
    | some first => simp [hfirst] at h
    | none =>
      rw [hfirst] at h
      have hnew : f.name ∉ known := fun hmem =>
        Table.get?_eq_none_iff.1 hfirst (hseen f.name hmem)
      have hregister : (d.register f.name).2 =
          { d with functions := ⟨(known ++ [f.name]).toArray⟩ } := by
        have hid : known.idxOf? f.name = none := List.idxOf?_eq_none_iff.2 hnew
        simp [register, Interner.intern, Interner.id?, hd, hid]
      rw [hregister] at h
      obtain ⟨rfl, hnodup⟩ := ih h rfl (List.nodup_append.2 ⟨hknown, by simp, by grind⟩)
        (fun x hx => Table.mem_keys_insert.2 (by grind))
      simpa using hnodup

/-- Every function of a script gets the code of its body. -/
theorem functionBodies_ok {fs : List Function} {texts : Array String} {u : Unit}
    (h : d.functionBodies fs = (d', .ok u)) (hfs : (fs.map Function.name).Nodup)
    (htexts : d'.strings.Within texts) :
    d'.functions = d.functions ∧ d.strings.Within d'.strings.texts ∧
      (∀ f ∈ fs, ∃ id code slots, d.functionId? f.name = some id ∧
        StmtsCode d.functionId? texts (.ofParams f.params) 0 f.body code slots ∧
        d'.bodies.get? id = some (completed code)) ∧
      ∀ id, (∀ f ∈ fs, d.functionId? f.name ≠ some id) → d'.bodies.get? id = d.bodies.get? id := by
  induction fs generalizing d with
  | nil =>
    obtain ⟨rfl, -⟩ := Prod.mk.inj h
    exact ⟨rfl, d.strings.within_refl, fun _ hf => absurd hf List.not_mem_nil, fun _ _ => rfl⟩
  | cons f fs ih =>
    rw [functionBodies] at h
    split at h
    · simp at h
    · next d₁ u₁ hf =>
      obtain ⟨id, code, s', hid, hcode, rfl⟩ := function_ok hf
      obtain ⟨hnew, hfs⟩ := List.nodup_cons.1 hfs
      obtain ⟨hfunctions, hwithin₂, hbodies, hframe⟩ := ih h hfs
      obtain ⟨hcode, hwithin₁⟩ := stmtsCode_of_genStmts f.body hcode (hwithin₂.trans htexts)
      refine ⟨hfunctions, hwithin₁.trans hwithin₂, fun g hg => ?_, fun id' hid' => ?_⟩
      · rcases List.mem_cons.1 hg with rfl | hg
        · -- The functions behind have other names, so the body stays.
          refine ⟨id, code, _, hid, hcode, ?_⟩
          rw [hframe id fun g' hg' hid' => ?_, Table.get?_insert_self]
          have htext := Interner.text_of_id? hid
          rw [Interner.text_of_id? hid', Option.some.injEq] at htext
          exact hnew (htext ▸ List.mem_map_of_mem hg')
        · exact hbodies g hg
      · -- Neither this function nor those behind have the number.
        rw [hframe id' fun g hg => hid' g (List.mem_cons_of_mem f hg), Table.get?_insert_ne]
        rintro rfl
        exact hid' f List.mem_cons_self hid

end Draft

/-- What a program has in common with the script it was made from: a function at
    the same place for each function of the script, whose code is that of its body. -/
structure Script.Compiled (s : Script) (p : Program) : Prop where
  distinct : (s.functions.map Function.name).Nodup
  size : p.functions.size = s.functions.length
  code : ∀ (id : Nat) (f : Function), s.functions[id]? = some f →
    ∃ code slots, StmtsCode s.functionId? p.strings (.ofParams f.params) 0 f.body code slots ∧
      p.functions[id]? = some (.compiled (.ofCode (Draft.completed code).toArray))

/-- A function of the script has the number of its place. -/
theorem Script.functionId?_of_getElem? {s : Script} {id : Nat} {f : Function}
    (hs : (s.functions.map Function.name).Nodup) (hf : s.functions[id]? = some f) :
    s.functionId? f.name = some id := by
  obtain ⟨hlt, rfl⟩ := List.getElem?_eq_some_iff.1 hf
  refine List.idxOf?_eq_some_iff.2 ⟨by simpa using hlt, by simp, fun j hj heq => ?_⟩
  have hlt' : id < (s.functions.map Function.name).length := by simpa using hlt
  have heq' : (s.functions.map Function.name)[j] = (s.functions.map Function.name)[id] := by
    simpa using heq
  have := (List.getElem_inj hs).1 heq'
  omega

/-- The program that a script is compiled to is one of the script. -/
theorem Script.compiled_of_compile {s : Script} {p : Program} (h : s.compile = .ok p) :
    s.Compiled p := by
  unfold compile compileWith Draft.script at h
  split at h
  · simp at h
  · next d u hscript =>
    split at hscript
    · simp at hscript
    · next d₁ u₁ hregister =>
      obtain ⟨rfl, hnodup⟩ := Draft.registerAll_ok hregister rfl List.nodup_nil (by simp)
      rw [List.nil_append] at hnodup
      obtain ⟨hfunctions, -, hbodies, -⟩ :=
        Draft.functionBodies_ok hscript hnodup d.strings.within_refl
      obtain rfl := Except.ok.inj h
      have hids : Draft.functionId? { Draft.empty with functions := ⟨(s.functions.map
          Function.name).toArray⟩ } = s.functionId? := by
        funext name
        simp [Draft.functionId?, Interner.id?, functionId?]
      refine ⟨hnodup, by simp [Draft.toProgram, Draft.mapBodies, hfunctions], fun id f hf => ?_⟩
      obtain ⟨id', code, slots, hid', hcode, hbody⟩ := hbodies f (List.mem_of_getElem? hf)
      simp only [List.nil_append, hids] at hid' hcode
      rw [functionId?_of_getElem? hnodup hf, Option.some.injEq] at hid'
      subst hid'
      refine ⟨code, slots, hcode, ?_⟩
      simp [Draft.toProgram, Draft.mapBodies, hfunctions, hbody, hf]

end ScriptMachine
