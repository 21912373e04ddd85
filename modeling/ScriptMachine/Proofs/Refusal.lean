import ScriptMachine.Proofs.Acceptance
import ScriptMachine.Proofs.Recognition

/-!
# Why sources are refused

A source text that is refused either cannot be read, or is a script with something wrong in
it, and then the error says what and in which function (`CompileError.Justified`). The errors of
code that is made by hand, step by step, do not come up: functions are opened, closed and
registered as they should be. Nor do the errors of conditionals that no source can express: what
derives from the grammar has proper conditionals only.

* `Grammar.IsStmts.proper`: the conditionals of a block that was derived are proper.
* `Program.justified_of_ofSource`: every error of a source is justified.
-/

namespace ScriptMachine

/-! ## Conditionals of scripts that were read -/

namespace Grammar

variable {ts : List Token}

/-- The branches behind the first one make a conditional proper. -/
theorem IsBranches.proper : {ts : List Token} → {branches : List Branch} →
    IsBranches ts branches → Stmt.Proper branches
  | _, _, @IsBranches.elseIf _ _ _ c body _ _ _ hothers => by
    obtain ⟨guarded, last, rfl, hguarded⟩ := hothers.proper
    exact ⟨.mk (.when c) body :: guarded, last, rfl, List.forall_mem_cons.2 ⟨rfl, hguarded⟩⟩
  | _, _, @IsBranches.otherwise _ body _ => ⟨[], body, rfl, nofun⟩
  | _, _, .missing => ⟨[], [], rfl, nofun⟩

theorem IsBranches.derived : {ts : List Token} → {branches : List Branch} →
    IsBranches ts branches → ∀ {guard body}, .mk guard body ∈ branches → ∃ ts, IsStmts ts body
  | _, _, .elseIf _ hbody hothers, _, _, hb => by
    cases hb with
    | head => exact ⟨_, hbody⟩
    | tail _ hb => exact hothers.derived hb
  | _, _, .otherwise hbody, _, _, hb => by
    cases List.mem_singleton.1 hb
    exact ⟨_, hbody⟩
  | _, _, .missing, _, _, hb => by
    cases List.mem_singleton.1 hb
    exact ⟨[], .nil⟩

/-- The conditionals of a block that was derived are proper, wherever they stand. -/
theorem IsStmts.proper {block : List Stmt} {visible seen : List String} {s : Stmt}
    (hs : Stmt.Stands visible block seen s) (h : IsStmts ts block) {branches : List Branch}
    (hchoose : s = .choose branches) : Stmt.Proper branches := by
  induction hs generalizing ts with
  | here =>
    subst hchoose
    cases h with
    | cons h hs =>
      cases h with
      | @choose _ _ _ c body _ _ _ hothers =>
        obtain ⟨guarded, last, rfl, hguarded⟩ := hothers.proper
        exact ⟨.mk (.when c) body :: guarded, last, rfl, List.forall_mem_cons.2 ⟨rfl, hguarded⟩⟩
  | behind _ ih =>
    cases h with
    | cons h hs => exact ih hs hchoose
  | inLoop _ ih =>
    cases h with
    | cons h hs =>
      cases h with
      | loop _ hbody => exact ih hbody hchoose
  | inBranch hb _ ih =>
    cases h with
    | cons h hs =>
      cases h with
      | choose _ hbody hothers =>
        cases hb with
        | head => exact ih hbody hchoose
        | tail _ hb =>
          obtain ⟨ts, hbody⟩ := hothers.derived hb
          exact ih hbody hchoose

theorem IsFunction.proper {f : Function} (h : IsFunction ts f) {branches : List Branch}
    (hf : f.Chooses branches) : Stmt.Proper branches := by
  obtain ⟨seen, hs⟩ := hf
  cases h with
  | mk hparams hbody => exact IsStmts.proper hs hbody rfl

theorem IsScript.isFunction {s : Script} (h : IsScript ts s) :
    ∀ f ∈ s.functions, ∃ ts, IsFunction ts f := by
  induction h with
  | nil => exact nofun
  | cons h hs ih => exact List.forall_mem_cons.2 ⟨⟨_, h⟩, ih⟩

end Grammar

/-- The conditionals of a script that was read are proper. -/
theorem Script.proper_of_ofTokens {tokens : List (Token × Span)}
    (h : (ofTokens tokens).errors = []) {f : Function}
    (hf : f ∈ (ofTokens tokens).script.functions) {branches : List Branch}
    (hchooses : f.Chooses branches) : Stmt.Proper branches := by
  have hscript : Grammar.IsScript _ (ofTokens tokens).script.unplaced :=
    Grammar.isScript_of_readFunctions h
  obtain ⟨ts, hfunction⟩ := hscript.isFunction f.unplaced (List.mem_map_of_mem hf)
  exact hfunction.proper hchooses

/-! ## Justified errors -/

/-- The error says truly what is wrong with the script, and in which function. Errors that say
    something else have no place here. -/
def CompileError.Justified (s : Script) : CompileError → Prop
  | unresolvedIdentifier x function =>
    ∃ f ∈ s.functions, f.name = function ∧ ∃ seen, x ∉ seen ∧
      (f.Mentions seen (.ident x) ∨
        x ∉ s.functionNames ∧ ∃ args, f.Mentions seen (.call .internal x args))
  | unresolvedFunction x function =>
    ∃ f ∈ s.functions, f.name = function ∧ x ∉ s.functionNames ∧
      ∃ seen, f.Mentions seen (.functionRef x)
  | malformedConditional problem function =>
    ∃ f ∈ s.functions, f.name = function ∧ ∃ c, f.Tests c ∧ c.NeverTruth problem
  | fieldAccess field function =>
    ∃ f ∈ s.functions, f.name = function ∧ ∃ seen object, f.Mentions seen (.access object field)
  | duplicateFunction x span first =>
    ∃ front f between g behind, s.functions = front ++ f :: (between ++ g :: behind) ∧
      f.name = x ∧ g.name = x ∧ f.span = first ∧ g.span = span
  | unreadable _ _ | otherwiseEvaluated _ | noOpenFunction | nestedFunction _ _
  | unregisteredFunction _ | format _ => False

/-- What is wrong with a script that has proper conditionals is justified. -/
theorem Script.Offends.justified {s : Script} {error : CompileError} (h : s.Offends error)
    (hproper : ∀ f ∈ s.functions, ∀ branches, f.Chooses branches → Stmt.Proper branches) :
    error.Justified s := by
  rcases h with ⟨front, f, between, g, behind, hs, hname, rfl⟩ | ⟨f, hf, seen, stmt, hstands, h⟩
  · exact ⟨front, f, between, g, behind, hs, hname, rfl, rfl, rfl⟩
  cases h with
  | expr heval h =>
    obtain ⟨part, hhas, h⟩ := h
    have hmentions : f.Mentions _ part := ⟨seen, stmt, _, hstands, heval, hhas⟩
    cases h with
    | ident hx => exact ⟨f, hf, rfl, _, hx, .inl hmentions⟩
    | callee hdeclared hx => exact ⟨f, hf, rfl, _, hx, .inr ⟨hdeclared, _, hmentions⟩⟩
    | functionRef hdeclared => exact ⟨f, hf, rfl, hdeclared, _, hmentions⟩
    | access => exact ⟨f, hf, rfl, _, _, hmentions⟩
  | condition htests hnever => exact ⟨f, hf, rfl, _, ⟨seen, stmt, hstands, htests⟩, hnever⟩
  -- The other offences are those of conditionals that are not proper.
  | noBranches => exact absurd (hproper f hf _ ⟨seen, hstands⟩) Stmt.not_proper_nil
  | noOtherwise => exact absurd (hproper f hf _ ⟨seen, hstands⟩) Stmt.not_proper_when
  | otherwiseEvaluated => exact absurd (hproper f hf _ ⟨seen, hstands⟩) Stmt.not_proper_otherwise

namespace Program

/-- A source that is not compiled cannot be read, and then there is an error of scanning or of
    reading; or it is a script, and the error says truly what is wrong with it, and where. -/
theorem justified_of_ofSource {source : String} {error : CompileError}
    (h : ofSource source = .error error) :
    (error = .unreadable (scan source).errors (Script.ofTokens (scan source).tokens).errors ∧
      ((scan source).errors ≠ [] ∨ (Script.ofTokens (scan source).tokens).errors ≠ [])) ∨
    ∃ s, Script.ofSource source = .ok s ∧ error.Justified s := by
  rw [ofSource] at h
  by_cases hread : (scan source).errors = [] ∧ (Script.ofTokens (scan source).tokens).errors = []
  · have hs : Script.ofSource source = .ok (Script.ofTokens (scan source).tokens).script :=
      if_pos (by simpa using hread)
    refine .inr ⟨_, hs, ?_⟩
    have hcompile : (Script.ofTokens (scan source).tokens).script.compile = .error error := by
      rw [hs] at h
      exact h
    have hsettles := Script.settles_compile (Script.ofTokens (scan source).tokens).script
    rw [hcompile] at hsettles
    exact hsettles.justified fun f hf branches => Script.proper_of_ofTokens hread.2 hf
  · have hs : Script.ofSource source = .error (.unreadable (scan source).errors
        (Script.ofTokens (scan source).tokens).errors) := if_neg (by simpa using hread)
    rw [hs] at h
    exact .inl ⟨(Except.error.inj h).symm, Decidable.not_and_iff_not_or_not.1 hread⟩

/-- A function that returns a variable of one of its blocks, as in
    `fn f(p) { if p { q = 1; } return q; }`. -/
def outOfScope (span : Span) : Script :=
  ⟨[{ name := "f"
      params := ["p"]
      body := [
        .choose [.mk (.when (.ident "p")) [.assign "q" (.literal (.int 1))], .mk .otherwise []],
        .give (some (.ident "q"))]
      span }]⟩

theorem compile_outOfScope (span : Span) :
    (outOfScope span).compile = .error (.unresolvedIdentifier "q" "f") := by
  have hid : (#["f"] : Array String).idxOf? "f" = some 0 := by simp
  have hregister : Draft.empty.registerAll [] (outOfScope span).functions =
      ({ Draft.empty with functions := ⟨#["f"]⟩ }, .ok ()) := by
    simp [Draft.registerAll, Table.get?, Draft.register, Interner.intern, Interner.id?, Draft.empty,
      Interner.empty, outOfScope]
  rw [Script.compile, Script.compileWith, Draft.script, hregister]
  simp only [outOfScope, Draft.functionBodies, Draft.function, Draft.openFunction, Draft.empty,
    Draft.functionId?, Interner.id?, hid]
  rfl

theorem justified_of_ofSource_outOfScope :
    ofSource ((outOfScope ⟨0, 0⟩).render fun _ => false) =
        .error (.unresolvedIdentifier "q" "f") ∧
      ∃ s, Script.ofSource ((outOfScope ⟨0, 0⟩).render fun _ => false) = .ok s ∧
        CompileError.Justified s (.unresolvedIdentifier "q" "f") := by
  obtain ⟨read, hread, heq⟩ :=
    @Script.exists_ofSource_render (fun _ => false) (outOfScope ⟨0, 0⟩) (by decide)
  -- What is read differs at most in the place of the function.
  obtain ⟨span, rfl⟩ : ∃ span, read = outOfScope span := by
    obtain ⟨functions⟩ := read
    obtain ⟨f, rfl, hf⟩ := List.map_eq_singleton_iff.1 (Script.mk.inj heq)
    obtain ⟨name, params, body, span⟩ := f
    obtain ⟨rfl, rfl, rfl, -⟩ := Function.mk.inj hf
    exact ⟨span, rfl⟩
  have h : ofSource ((outOfScope ⟨0, 0⟩).render fun _ => false) =
      .error (.unresolvedIdentifier "q" "f") := by
    rw [ofSource, hread]
    exact compile_outOfScope span
  refine ⟨h, ?_⟩
  rcases justified_of_ofSource h with ⟨herror, -⟩ | hjustified
  · cases herror
  · exact hjustified

end Program

end ScriptMachine
