import Mathlib.Data.List.Induction
import ScriptMachine.Proofs.Assembly

/-!
# Numbers are given once

Strings and functions of a draft have numbers, and code that is made refers to them by these
numbers. So a number must stay that of its text whatever a draft is asked for, in any order, and
whether it succeeds or fails. Every call consists of a few kinds of changes (`Draft.Step`): texts
are met, a function is opened, goes on or is closed, and bodies are rewritten. In which changes a
call consists is seen once (`Draft.steps_perform`), failures included; generators that fail have
met strings like others, and no more (`Gen.Interns`). What is invariant is then a matter of single
changes.

* `Interner.Grows`: texts that are met later leave the numbers of the others alone.
* `Draft.history`: what happens to the functions of a draft in some calls; `Draft.lastBody` finds
  there the body that a function has.
* `Draft.Sound`: tables without repetitions that agree with what has happened; steps keep it.
* `Draft.run_interned`: what follows for drafts after any calls, and for their programs.
-/

namespace ScriptMachine

/-! ## Texts and their numbers -/

namespace Interner

variable {i j : Interner} {s : String} {id : Nat}

/-- Texts and the numbers from zero on belong to each other one by one. -/
structure Bijective (i : Interner) : Prop where
  range : ∀ id, (∃ s, i.id? s = some id) ↔ id < i.texts.size
  injective : ∀ s s' id, i.id? s = some id → i.id? s' = some id → s = s'

theorem id?_eq_some_iff (h : i.texts.toList.Nodup) : i.id? s = some id ↔ i.texts[id]? = some s := by
  refine ⟨text_of_id?, fun hs => ?_⟩
  obtain ⟨⟨texts⟩⟩ := i
  obtain ⟨hlt, rfl⟩ := Array.getElem?_eq_some_iff.1 hs
  rw [id?, List.idxOf?_toArray]
  refine List.idxOf?_eq_some_iff.2 ⟨hlt, rfl, fun j hj heq => ?_⟩
  have := (List.getElem_inj h).1 heq
  omega

theorem bijective_of_nodup (h : i.texts.toList.Nodup) : i.Bijective where
  range id := by
    simp only [id?_eq_some_iff h]
    constructor
    · rintro ⟨s, hs⟩
      exact (Array.getElem?_eq_some_iff.1 hs).1
    · exact fun hlt => ⟨_, Array.getElem?_eq_getElem hlt⟩
  injective s s' id hs hs' := Option.some.inj ((text_of_id? hs).symm.trans (text_of_id? hs'))

theorem id?_eq_none_iff : i.id? s = none ↔ s ∉ i.texts.toList := by
  obtain ⟨⟨texts⟩⟩ := i
  rw [id?, List.idxOf?_toArray, List.idxOf?_eq_none_iff]

theorem get?_table (h : i.texts.toList.Nodup) (s : String) :
    i.table.get? s = i.id? s := by
  cases hs : i.id? s with
  | none => rwa [Table.get?_eq_none_iff, keys_table, ← id?_eq_none_iff]
  | some id =>
    obtain ⟨hlt, rfl⟩ := Array.getElem?_eq_some_iff.1 (text_of_id? hs)
    refine Table.get?_of_mem (by rwa [keys_table]) ?_
    exact List.mem_mapIdx.2 ⟨id, hlt, rfl⟩

/-- What an interner becomes when texts are met one after the other. -/
inductive Grows (i : Interner) : Interner → Prop where
  | refl : Grows i i
  | intern {j : Interner} (h : Grows i j) (s : String) : Grows i (j.intern s).2

theorem Grows.trans {k : Interner} (hij : i.Grows j) (hjk : j.Grows k) : i.Grows k := by
  induction hjk with
  | refl => exact hij
  | intern _ s ih => exact .intern ih s

theorem nodup_intern (h : i.texts.toList.Nodup) (s : String) :
    (i.intern s).2.texts.toList.Nodup := by
  rw [intern]
  split
  · exact h
  · next hs =>
    rw [Array.toList_push]
    exact List.nodup_append.2 ⟨h, List.nodup_singleton s, fun a ha b hb heq =>
      id?_eq_none_iff.1 hs (List.mem_singleton.1 hb ▸ heq ▸ ha)⟩

/-- A text at the end is found if it is not found before. -/
theorem id?_push (i : Interner) (s s' : String) :
    id? ⟨i.texts.push s'⟩ s = (i.id? s).or (if s' = s then some i.texts.size else none) := by
  obtain ⟨⟨texts⟩⟩ := i
  rw [id?, id?, List.push_toArray, List.idxOf?_toArray, List.idxOf?_toArray, List.idxOf?,
    List.findIdx?_append]
  by_cases hs : s' = s <;> simp [hs]

theorem id?_intern (h : i.id? s = some id) (s' : String) : (i.intern s').2.id? s = some id := by
  rw [intern]
  split
  · exact h
  · rw [id?_push, h]
    rfl

theorem id?_intern_self (i : Interner) (s : String) :
    (i.intern s).2.id? s = some (i.intern s).1 := by
  rw [intern]
  split
  · assumption
  · next hs => rw [id?_push, hs, if_pos rfl, Option.none_or]

theorem Grows.id? (h : i.Grows j) (hs : i.id? s = some id) : j.id? s = some id := by
  induction h with
  | refl => exact hs
  | intern _ s ih => exact id?_intern ih s

end Interner

/-! ## Strings of generated code -/

namespace Gen

variable {α β : Type} {g : Gen α} {f : α → Gen β}

/-- A generator only adds strings, whether it completes its piece or not. -/
def Interns (g : Gen α) : Prop :=
  ∀ (ctx : GenContext) (start : Nat) (s : GenState), s.strings.Grows (g ctx start s).state.strings

theorem interns_pure (a : α) : (pure a : Gen α).Interns := fun _ _ _ => .refl

theorem interns_emit (i : Instruction) : (emit i).Interns := fun _ _ _ => .refl

theorem interns_fail (error : String → CompileError) : (fail error : Gen α).Interns :=
  fun _ _ _ => .refl

theorem interns_here : here.Interns := fun _ _ _ => .refl

theorem interns_string (text : String) : (string text).Interns :=
  fun _ _ _ => .intern .refl text

theorem interns_function? (name : String) : (function? name).Interns := fun _ _ _ => .refl

theorem interns_declare (name : String) : (declare name).Interns := fun _ _ _ => .refl

theorem interns_resolve (name : String) : (resolve name).Interns := by
  intro ctx start s
  rw [resolve]
  split <;> exact .refl

theorem interns_updateSlots (f : Slots → Slots) : (updateSlots f).Interns := fun _ _ _ => .refl

theorem Interns.bind (h : g.Interns) (h' : ∀ a, (f a).Interns) : (g >>= f).Interns := by
  intro ctx start s
  simp only [Bind.bind, Gen.bind]
  split
  · exact h ctx start s
  · exact (h ctx start s).trans (h' _ ctx _ _)

theorem Interns.inBlock {body : Gen Unit} (h : body.Interns) : (inBlock body).Interns :=
  (interns_updateSlots _).bind fun _ => h.bind fun _ => interns_updateSlots _

theorem Interns.jumpOver (h : g.Interns) (opcode : Opcode) : (jumpOver opcode g).Interns :=
  fun ctx start s => h ctx (start + 1) s

theorem Interns.branch {body rest : Gen Unit} (h : body.Interns) (h' : rest.Interns) :
    (branch body rest).Interns := by
  intro ctx start s
  simp only [Gen.branch]
  split
  · exact h ctx (start + 1) s
  · exact (h ctx (start + 1) s).trans (h'.jumpOver .jump ctx _ _)

end Gen

open Gen

theorem interns_genLiteral (l : Literal) : (genLiteral l).Interns := by
  cases l with
  | int | float | bool => exact interns_emit _
  | text s => exact (interns_string s).bind fun _ => interns_emit _

theorem interns_genCallee (kind : CallKind) (name : String) (argCount : Nat) :
    (genCallee kind name argCount).Interns := by
  cases kind with
  | internal =>
    refine (interns_function? name).bind fun id => ?_
    cases id with
    | some id => exact (interns_emit _).bind fun _ => interns_emit _
    | none =>
      exact (interns_resolve name).bind fun _ => (interns_emit _).bind fun _ => interns_emit _
  | external =>
    exact (interns_string name).bind fun _ => (interns_emit _).bind fun _ => interns_emit _

mutual

theorem interns_genExpr : (e : Expr) → (genExpr e).Interns
  | .literal l => by
    rw [genExpr]
    exact interns_genLiteral l
  | .ident name => by
    rw [genExpr]
    exact (interns_resolve name).bind fun _ => interns_emit _
  | .functionRef name => by
    rw [genExpr]
    refine (interns_function? name).bind fun id => ?_
    cases id with
    | some id => exact interns_emit _
    | none => exact interns_fail _
  | .call kind name args => by
    rw [genExpr]
    exact (interns_genExprs args).bind fun _ => interns_genCallee kind name args.length
  | .binary op left right => by
    rw [genExpr]
    refine (interns_genExpr left).bind fun _ => (interns_genExpr right).bind fun _ =>
      (interns_emit _).bind fun _ => ?_
    split
    · exact interns_emit _
    · exact interns_pure ()
  | .not operand => by
    rw [genExpr]
    exact (interns_genExpr operand).bind fun _ => interns_emit _
  | .negate operand => by
    rw [genExpr]
    exact (interns_genExpr operand).bind fun _ => (interns_emit _).bind fun _ => interns_emit _
  | .access _ field => by
    rw [genExpr]
    exact interns_fail _

theorem interns_genExprs : (es : List Expr) → (genExprs es).Interns
  | [] => by
    rw [genExprs]
    exact interns_pure ()
  | e :: es => by
    rw [genExprs]
    exact (interns_genExpr e).bind fun _ => interns_genExprs es

end

theorem interns_genCondition (e : Expr) : (genCondition e).Interns := by
  rw [genCondition]
  split
  · exact interns_fail _
  · exact interns_genExpr e

theorem interns_genGuard (guard : Guard) : (genGuard guard).Interns := by
  cases guard with
  | when e => exact interns_genCondition e
  | otherwise => exact interns_fail _

mutual

theorem interns_genStmt : (s : Stmt) → (genStmt s).Interns
  | .assign name value => by
    rw [genStmt]
    exact (interns_declare name).bind fun _ => (interns_genExpr value).bind fun _ => interns_emit _
  | .loop condition body => by
    rw [genStmt]
    refine interns_here.bind fun start => (interns_genCondition condition).bind fun _ => ?_
    exact ((interns_genStmts body).inBlock.bind fun _ => interns_emit _).jumpOver .jumpUnless
  | .choose branches => by
    rw [genStmt]
    split
    · exact interns_fail _
    · exact interns_genBranches branches
  | .call kind name args => by
    rw [genStmt]
    exact (interns_genExprs args).bind fun _ => interns_genCallee kind name args.length
  | .give (some e) => by
    rw [genStmt]
    exact (interns_genExpr e).bind fun _ => interns_emit _
  | .give none => by
    rw [genStmt]
    exact (interns_emit _).bind fun _ => interns_emit _

theorem interns_genStmts : (ss : List Stmt) → (genStmts ss).Interns
  | [] => by
    rw [genStmts]
    exact interns_pure ()
  | s :: ss => by
    rw [genStmts]
    exact (interns_genStmt s).bind fun _ => interns_genStmts ss

theorem interns_genBranches : (branches : List Branch) → (genBranches branches).Interns
  | [] => by
    rw [genBranches]
    exact interns_pure ()
  | [.mk guard body] => by
    rw [genBranches]
    exact (interns_genStmts body).inBlock
  | .mk guard body :: branch :: branches => by
    rw [genBranches]
    · exact (interns_genGuard guard).bind fun _ =>
        (interns_genStmts body).inBlock.branch (interns_genBranches (branch :: branches))
    · simp

end

/-! ## Calls -/

namespace Draft

/-- What a draft can be asked for. -/
inductive Call where
  | string (s : String)
  | register (name : String)
  | openFunction (name : String) (params : List String)
  | closeFunction
  | enterBlock
  | leaveBlock
  | emit (i : Instruction)
  | patch (index target : Nat)
  | function (f : Function)
  | script (s : Script)
  | optimize (pass : Pass)

/-- What happens to the functions of a draft. -/
inductive Event where
  | opened (name : String)
  | closed (name : String) (code : List Instruction)
  | rewritten (pass : Pass)

/-- The draft after a change that may be refused; then it stays as it is. -/
def orKept (d : Draft) : Except CompileError Draft → Draft
  | .ok d' => d'
  | .error _ => d

/-- The draft after a call, also after one that fails. -/
def perform (d : Draft) : Call → Draft
  | .string s => (d.string s).2
  | .register name => (d.register name).2
  | .openFunction name params => d.orKept (d.openFunction name params)
  | .closeFunction => d.orKept d.closeFunction
  | .enterBlock => d.orKept d.enterBlock
  | .leaveBlock => d.orKept d.leaveBlock
  | .emit i => d.orKept (d.emit i)
  | .patch index target => d.orKept (d.patch index target)
  | .function f => (d.function f).1
  | .script s => (d.script s).1
  | .optimize pass => d.mapBodies pass

/-- The draft after some calls. -/
def run (d : Draft) (calls : List Call) : Draft := calls.foldl perform d

/-! ### What happens in a call

A call that is refused does nothing to the functions. One that makes functions may fail with
some of them closed, and another one still open. -/

def openingEvents (d : Draft) (name : String) (params : List String) : List Event :=
  match d.openFunction name params with
  | .ok _ => [.opened name]
  | .error _ => []

def closingEvents (d : Draft) : List Event :=
  match d.current with
  | some f => [.closed f.name (completed f.code)]
  | none => []

/-- A function is closed once its body is made. -/
def functionEvents (d : Draft) (f : Function) : List Event :=
  match d.openFunction f.name f.params with
  | .error _ => []
  | .ok opened =>
    match opened.generate (genStmts f.body) with
    | (_, .error _) => [.opened f.name]
    | (d, .ok _) => .opened f.name :: d.closingEvents

def bodiesEvents (d : Draft) : List Function → List Event
  | [] => []
  | f :: fs =>
    match d.function f with
    | (_, .error _) => d.functionEvents f
    | (d', .ok _) => d.functionEvents f ++ d'.bodiesEvents fs

def scriptEvents (d : Draft) (s : Script) : List Event :=
  match d.registerAll [] s.functions with
  | (_, .error _) => []
  | (d, .ok _) => d.bodiesEvents s.functions

def events (d : Draft) : Call → List Event
  | .openFunction name params => d.openingEvents name params
  | .closeFunction => d.closingEvents
  | .function f => d.functionEvents f
  | .script s => d.scriptEvents s
  | .optimize pass => [.rewritten pass]
  | _ => []

/-- Everything that happens in some calls. -/
def history (d : Draft) : List Call → List Event
  | [] => []
  | call :: calls => d.events call ++ (d.perform call).history calls

/-- The functions that were opened and not closed since. -/
def stillOpen (log : List Event) : List String :=
  log.foldl (fun names event =>
    match event with
    | .opened name => name :: names
    | .closed name _ => names.erase name
    | .rewritten _ => names) []

/-- The body with which a function was closed last, as it was rewritten since. -/
def lastBody (log : List Event) (name : String) : Option (List Instruction) :=
  log.foldl (fun body event =>
    match event with
    | .opened _ => body
    | .closed other code => if other = name then some code else body
    | .rewritten pass => body.map pass) none

section Log

variable (log : List Event) (name name' : String)

@[simp]
theorem stillOpen_opened : stillOpen (log ++ [.opened name]) = name :: stillOpen log := by
  simp [stillOpen]

@[simp]
theorem stillOpen_closed (code : List Instruction) :
    stillOpen (log ++ [.closed name code]) = (stillOpen log).erase name := by
  simp [stillOpen]

@[simp]
theorem stillOpen_rewritten (pass : Pass) :
    stillOpen (log ++ [.rewritten pass]) = stillOpen log := by
  simp [stillOpen]

@[simp]
theorem lastBody_opened : lastBody (log ++ [.opened name]) = lastBody log :=
  funext fun _ => by simp [lastBody]

@[simp]
theorem lastBody_closed (code : List Instruction) :
    lastBody (log ++ [.closed name' code]) name =
      if name' = name then some code else lastBody log name := by
  simp [lastBody]

@[simp]
theorem lastBody_rewritten (pass : Pass) :
    lastBody (log ++ [.rewritten pass]) name = (lastBody log name).map pass := by
  simp [lastBody]

/-- There is a body once the function was closed. -/
theorem lastBody_eq_none_iff : lastBody log name = none ↔ ∀ code, .closed name code ∉ log := by
  induction log using List.reverseRecOn with
  | nil => simp [lastBody]
  | append_singleton log event ih =>
    cases event with
    | opened | rewritten => simp [ih]
    | closed name' code =>
      by_cases hname : name' = name
      · simp only [hname, lastBody_closed, if_true, reduceCtorEq, false_iff, not_forall, not_not]
        exact ⟨code, List.mem_append_right _ (List.mem_singleton_self _)⟩
      · simp [hname, Ne.symm hname, ih]

end Log

/-! ## Steps -/

variable {d d' d'' : Draft} {log log' : List Event}

/-- A single change of a draft, with what happens in it. -/
inductive Step (d : Draft) : List Event → Draft → Prop where
  | string (s : String) : Step d [] (d.string s).2
  | register (name : String) : Step d [] (d.register name).2
  | opened {name : String} {id : Nat} (hcurrent : d.current = none)
      (hid : d.functions.id? name = some id) (code : List Instruction) (slots : Slots) :
      Step d [.opened name] { d with current := some ⟨name, id, code, slots⟩ }
  | changed {f f' : OpenFunction} (hcurrent : d.current = some f) (hname : f'.name = f.name)
      (hid : f'.id = f.id) : Step d [] { d with current := some f' }
  | closed {f : OpenFunction} (hcurrent : d.current = some f) (code : List Instruction) :
      Step d [.closed f.name code] { d with current := none, bodies := d.bodies.insert f.id code }
  | rewritten (pass : Pass) : Step d [.rewritten pass] (d.mapBodies pass)

/-- Changes one after the other. -/
inductive Steps (d : Draft) : List Event → Draft → Prop where
  | refl : Steps d [] d
  | step {d' d'' : Draft} {log log' : List Event} (h : Steps d log d') (h' : d'.Step log' d'') :
      Steps d (log ++ log') d''

theorem Step.steps (h : d.Step log d') : d.Steps log d' := .step .refl h

theorem Steps.trans (h : d.Steps log d') (h' : d'.Steps log' d'') :
    d.Steps (log ++ log') d'' := by
  induction h' with
  | refl => rwa [List.append_nil]
  | step _ hstep ih =>
    rw [← List.append_assoc]
    exact .step ih hstep

/-! ### Calls are steps -/

theorem steps_strings {strings : Interner} (h : d.strings.Grows strings) :
    d.Steps [] { d with strings } := by
  induction h with
  | refl => exact .refl
  | @intern j _ s ih => exact .step ih (.string s)

theorem steps_generate {α : Type} {g : Gen α} (hg : g.Interns) (d : Draft) :
    d.Steps [] (d.generate g).1 := by
  rw [generate]
  split
  · exact .refl
  · next f hcurrent =>
    have hstrings := steps_strings (hg ⟨f.name, d.functions⟩ f.code.length ⟨d.strings, f.slots⟩)
    exact hstrings.step (.changed hcurrent rfl rfl)

theorem step_of_openFunction {name : String} {params : List String}
    (h : d.openFunction name params = .ok d') : d.Step [.opened name] d' := by
  rw [openFunction] at h
  split at h
  · exact nomatch h
  · next hcurrent =>
    split at h
    · exact nomatch h
    · next id hid =>
      obtain rfl := Except.ok.inj h
      exact .opened hcurrent hid _ _

theorem steps_openFunction (d : Draft) (name : String) (params : List String) :
    d.Steps (d.openingEvents name params) (d.orKept (d.openFunction name params)) := by
  rw [openingEvents]
  cases h : d.openFunction name params with
  | ok d' => exact (step_of_openFunction h).steps
  | error e => exact .refl

theorem steps_closeFunction (d : Draft) :
    d.Steps d.closingEvents (d.orKept d.closeFunction) := by
  rw [closingEvents, closeFunction]
  cases h : d.current with
  | none => exact .refl
  | some f => exact (Step.closed h _).steps

theorem steps_updateCurrent {f : OpenFunction → OpenFunction}
    (hf : ∀ c, (f c).name = c.name ∧ (f c).id = c.id) (d : Draft) :
    d.Steps [] (d.orKept (d.updateCurrent f)) := by
  rw [updateCurrent]
  cases h : d.current with
  | none => exact .refl
  | some c =>
    obtain ⟨hname, hid⟩ := hf c
    exact (Step.changed h hname hid).steps

theorem steps_function (d : Draft) (f : Function) :
    d.Steps (d.functionEvents f) (d.function f).1 := by
  rw [functionEvents, function]
  cases hopen : d.openFunction f.name f.params with
  | error e => exact .refl
  | ok opened =>
    have hopened := (step_of_openFunction hopen).steps
    have hmade := hopened.trans (steps_generate (interns_genStmts f.body) opened)
    rcases hpiece : opened.generate (genStmts f.body) with ⟨d', result⟩
    rw [hpiece] at hmade
    simp only [hpiece]
    cases result with
    | error e => exact hmade
    | ok u =>
      have hclosed := hmade.trans (steps_closeFunction d')
      cases hclose : d'.closeFunction with
      | error e | ok d'' =>
        rw [hclose] at hclosed
        simp only [hclose]
        exact hclosed

theorem steps_functionBodies (d : Draft) (fs : List Function) :
    d.Steps (d.bodiesEvents fs) (d.functionBodies fs).1 := by
  induction fs generalizing d with
  | nil => exact .refl
  | cons f fs ih =>
    have hf := steps_function d f
    rw [bodiesEvents, functionBodies]
    rcases hcall : d.function f with ⟨d', result⟩
    rw [hcall] at hf
    cases result with
    | error e => exact hf
    | ok u => exact hf.trans (ih d')

theorem steps_registerAll (d : Draft) (seen : Table String Span) (fs : List Function) :
    d.Steps [] (d.registerAll seen fs).1 := by
  induction fs generalizing d seen with
  | nil => exact .refl
  | cons f fs ih =>
    rw [registerAll]
    split
    · exact .refl
    · exact (Step.register f.name).steps.trans (ih _ _)

theorem steps_script (d : Draft) (s : Script) : d.Steps (d.scriptEvents s) (d.script s).1 := by
  have hregistered := steps_registerAll d [] s.functions
  rw [scriptEvents, script]
  rcases hcall : d.registerAll [] s.functions with ⟨d', result⟩
  rw [hcall] at hregistered
  cases result with
  | error e => exact hregistered
  | ok u => exact hregistered.trans (steps_functionBodies d' s.functions)

/-- A call is a sequence of steps, in which happens what the call says. -/
theorem steps_perform (d : Draft) (call : Call) : d.Steps (d.events call) (d.perform call) := by
  cases call with
  | string s => exact (Step.string s).steps
  | register name => exact (Step.register name).steps
  | openFunction name params => exact steps_openFunction d name params
  | closeFunction => exact steps_closeFunction d
  | enterBlock | leaveBlock | emit | patch =>
    refine steps_updateCurrent ?_ d
    exact fun _ => ⟨rfl, rfl⟩
  | function f => exact steps_function d f
  | script s => exact steps_script d s
  | optimize pass => exact (Step.rewritten pass).steps

theorem steps_run (d : Draft) (calls : List Call) : d.Steps (d.history calls) (d.run calls) := by
  induction calls generalizing d with
  | nil => exact .refl
  | cons call calls ih => exact (steps_perform d call).trans (ih (d.perform call))

/-! ## What steps preserve -/

/-- A draft in agreement with what has happened to it. -/
structure Sound (log : List Event) (d : Draft) : Prop where
  strings : d.strings.texts.toList.Nodup
  functions : d.functions.texts.toList.Nodup
  keys : d.bodies.keys.Nodup
  current : ∀ f ∈ d.current, d.functions.id? f.name = some f.id
  stillOpen : stillOpen log = d.current.toList.map OpenFunction.name
  bodies : ∀ id, d.bodies.get? id = d.functions.texts[id]?.bind (lastBody log)
  unknown : ∀ name, d.functions.id? name = none → lastBody log name = none

namespace Sound

theorem empty : Sound [] empty where
  strings := List.nodup_nil
  functions := List.nodup_nil
  keys := List.nodup_nil
  current := nofun
  stillOpen := rfl
  bodies _ := rfl
  unknown _ _ := rfl

theorem register (h : Sound log d) (name : String) : Sound log (d.register name).2 := by
  cases hname : d.functions.id? name with
  | some id =>
    have hsame : (d.register name).2 = d := by simp only [Draft.register, Interner.intern, hname]
    rwa [hsame]
  | none =>
    have hpush : (d.register name).2 = { d with functions := ⟨d.functions.texts.push name⟩ } := by
      simp only [Draft.register, Interner.intern, hname]
    refine { h with functions := ?_, current := ?_, bodies := ?_, unknown := ?_ }
    · exact Interner.nodup_intern h.functions name
    · exact fun f hf => Interner.id?_intern (h.current f hf) name
    · intro id
      rw [hpush, h.bodies, Array.getElem?_push]
      split
      · next hid =>
        rw [hid, Array.getElem?_eq_none (Nat.le_refl _), Option.bind_some, h.unknown name hname]
        rfl
      · rfl
    · intro name' hname'
      rw [hpush, Interner.id?_push, Option.or_eq_none_iff] at hname'
      exact h.unknown name' hname'.1

theorem opened (h : Sound log d) {name : String} {id : Nat} (hcurrent : d.current = none)
    (hid : d.functions.id? name = some id) (code : List Instruction) (slots : Slots) :
    Sound (log ++ [.opened name]) { d with current := some ⟨name, id, code, slots⟩ } where
  strings := h.strings
  functions := h.functions
  keys := h.keys
  current f hf := Option.some.inj hf ▸ hid
  stillOpen := by
    rw [stillOpen_opened, h.stillOpen, hcurrent]
    rfl
  bodies id := by simpa using h.bodies id
  unknown name hname := by simpa using h.unknown name hname

theorem closed (h : Sound log d) {f : OpenFunction} (hcurrent : d.current = some f)
    (code : List Instruction) :
    Sound (log ++ [.closed f.name code])
      { d with current := none, bodies := d.bodies.insert f.id code } where
  strings := h.strings
  functions := h.functions
  keys := Table.nodup_keys_insert h.keys f.id code
  current := nofun
  stillOpen := by
    rw [stillOpen_closed, h.stillOpen, hcurrent]
    simp
  bodies id := by
    have hf := h.current f hcurrent
    rcases eq_or_ne id f.id with rfl | hid
    · rw [Table.get?_insert_self, Interner.text_of_id? hf, Option.bind_some, lastBody_closed,
        if_pos rfl]
    · rw [Table.get?_insert_ne hid, h.bodies]
      cases htext : d.functions.texts[id]? with
      | none => rfl
      | some name =>
        have hname : f.name ≠ name := by
          rintro rfl
          rw [(Interner.id?_eq_some_iff h.functions).2 htext] at hf
          exact hid (Option.some.inj hf)
        rw [Option.bind_some, Option.bind_some, lastBody_closed, if_neg hname]
  unknown name hname := by
    have hne : f.name ≠ name := by
      rintro rfl
      exact nomatch hname.symm.trans (h.current f hcurrent)
    rw [lastBody_closed, if_neg hne, h.unknown name hname]

theorem rewritten (h : Sound log d) (pass : Pass) :
    Sound (log ++ [.rewritten pass]) (d.mapBodies pass) where
  strings := h.strings
  functions := h.functions
  keys := by
    have hkeys : (d.mapBodies pass).bodies.keys = d.bodies.keys := by
      simp [mapBodies, Table.keys, Function.comp_def]
    rw [hkeys]
    exact h.keys
  current := h.current
  stillOpen := by rw [stillOpen_rewritten, h.stillOpen]; rfl
  bodies id := by
    calc (d.mapBodies pass).bodies.get? id
      _ = (d.bodies.get? id).map pass := Table.get?_map pass d.bodies id
      _ = _ := by
        rw [h.bodies, Option.map_bind]
        exact congrArg _ (funext fun name => (lastBody_rewritten log name pass).symm)
  unknown name hname := by
    rw [lastBody_rewritten, h.unknown name hname]
    rfl

/-- Steps keep a draft in agreement with what happens. -/
theorem step (h : Sound log d) (hstep : d.Step log' d') : Sound (log ++ log') d' := by
  cases hstep with
  | string s =>
    rw [List.append_nil]
    exact { h with strings := Interner.nodup_intern h.strings s }
  | register name =>
    rw [List.append_nil]
    exact h.register name
  | opened hcurrent hid code slots => exact h.opened hcurrent hid code slots
  | @changed f f' hcurrent hname hid =>
    rw [List.append_nil]
    refine { h with current := ?_, stillOpen := ?_ }
    · rintro f' ⟨⟩
      rw [hname, hid]
      exact h.current f hcurrent
    · rw [h.stillOpen, hcurrent]
      simp [hname]
  | closed hcurrent code => exact h.closed hcurrent code
  | rewritten pass => exact h.rewritten pass

theorem steps (h : Sound log d) (hsteps : d.Steps log' d') : Sound (log ++ log') d' := by
  induction hsteps with
  | refl => rwa [List.append_nil]
  | step _ hstep ih =>
    rw [← List.append_assoc]
    exact ih.step hstep

end Sound

/-- Steps only add texts. -/
theorem Step.grows (h : d.Step log d') :
    d.strings.Grows d'.strings ∧ d.functions.Grows d'.functions := by
  cases h with
  | string s => exact ⟨.intern .refl s, .refl⟩
  | register name => exact ⟨.refl, .intern .refl name⟩
  | opened | changed | closed | rewritten => exact ⟨.refl, .refl⟩

theorem Steps.grows (h : d.Steps log d') :
    d.strings.Grows d'.strings ∧ d.functions.Grows d'.functions := by
  induction h with
  | refl => exact ⟨.refl, .refl⟩
  | step _ hstep ih => exact ⟨ih.1.trans hstep.grows.1, ih.2.trans hstep.grows.2⟩

/-! ## The program of a draft -/

/-- The program holds the strings, the functions and the names of the draft, and nothing else;
    what it has for a function is the last body with which the function was closed. -/
structure Assembled (log : List Event) (d : Draft) (p : Program) : Prop where
  strings : ∀ s id, p.strings[id]? = some s ↔ d.strings.id? s = some id
  nodup : p.names.keys.Nodup
  names : ∀ name, p.names.get? name = d.functions.id? name
  size : p.functions.size = p.names.length
  compiled : ∀ name id, p.names.get? name = some id → (∃ code, .closed name code ∈ log) →
    ∃ code, lastBody log name = some code ∧
      p.functions[id]? = some (.compiled (.ofCode code.toArray))
  unset : ∀ name id, p.names.get? name = some id → (∀ code, .closed name code ∉ log) →
    p.functions[id]? = some .unset

/-- The entry of a function in the program is made of its last body. -/
theorem Sound.getElem?_functions (h : Sound log d) {name : String} {id : Nat}
    (hid : d.functions.id? name = some id) :
    d.toProgram.functions[id]? =
      some ((lastBody log name).elim .unset fun code => .compiled (.ofCode code.toArray)) := by
  have htext := Interner.text_of_id? hid
  have hbody : d.bodies.get? id = lastBody log name := by rw [h.bodies, htext, Option.bind_some]
  rw [toProgram, Array.getElem?_mapIdx, htext, Option.map_some, hbody]
  cases lastBody log name <;> rfl

theorem Sound.assembled (h : Sound log d) (o : d.Order) : Assembled log d (o.assemble id) := by
  have hid : d.mapBodies id = d := by simp [mapBodies]
  have htable : d.functions.table.keys.Nodup := by
    rw [Interner.keys_table]
    exact h.functions
  have hkeys : o.functions.keys.Nodup := (o.functions_perm.map Prod.fst).nodup_iff.2 htable
  have hnames (name : String) : o.functions.get? name = d.functions.id? name := by
    rw [Table.get?_of_perm o.functions_perm hkeys, Interner.get?_table h.functions]
  rw [o.assemble_eq id h.functions h.keys, hid]
  refine ⟨fun s id => (Interner.id?_eq_some_iff h.strings).symm, hkeys, hnames, ?_, ?_, ?_⟩
  · simp [toProgram, o.functions_perm.length_eq, Interner.table]
  · rintro name id hname ⟨code, hcode⟩
    rw [hnames] at hname
    have hentry := h.getElem?_functions hname
    cases hbody : lastBody log name with
    | none => exact absurd hcode ((lastBody_eq_none_iff log name).1 hbody code)
    | some body =>
      rw [hbody] at hentry
      exact ⟨body, rfl, hentry⟩
  · intro name id hname hunset
    rw [hnames] at hname
    have hentry := h.getElem?_functions hname
    rwa [(lastBody_eq_none_iff log name).2 hunset] at hentry

theorem sound_run (calls : List Call) : Sound (empty.history calls) (empty.run calls) :=
  Sound.empty.steps (steps_run empty calls)

/-- **Numbers are given once.** After any calls, those that failed included, strings and functions
    have the numbers from zero on, and every number that was returned stays that of its text,
    whatever is called then. At most one function is open. In whatever order the program is put
    together, it has the strings and the names of the draft at their numbers, the last body of
    every function that was ever closed, and nothing for the others. -/
theorem run_interned (calls : List Call) :
    (empty.run calls).strings.Bijective ∧ (empty.run calls).functions.Bijective ∧
      (∀ s more, ((empty.run calls).run (.string s :: more)).strings.id? s =
        some ((empty.run calls).string s).1) ∧
      (∀ name more, ((empty.run calls).run (.register name :: more)).functions.id? name =
        some ((empty.run calls).register name).1) ∧
      (∀ more s id, (empty.run calls).strings.id? s = some id →
        ((empty.run calls).run more).strings.id? s = some id) ∧
      (∀ more name id, (empty.run calls).functions.id? name = some id →
        ((empty.run calls).run more).functions.id? name = some id) ∧
      stillOpen (empty.history calls) = (empty.run calls).current.toList.map OpenFunction.name ∧
      (stillOpen (empty.history calls)).length ≤ 1 ∧
      ∀ o : (empty.run calls).Order,
        Assembled (empty.history calls) (empty.run calls) (o.assemble id) := by
  have hsound := sound_run calls
  have hgrows (d : Draft) (more : List Call) := (steps_run d more).grows
  refine ⟨Interner.bijective_of_nodup hsound.strings, Interner.bijective_of_nodup hsound.functions,
    ?_, ?_, ?_, ?_, hsound.stillOpen, ?_, hsound.assembled⟩
  · exact fun s more => (hgrows _ more).1.id? (Interner.id?_intern_self _ s)
  · exact fun name more => (hgrows _ more).2.id? (Interner.id?_intern_self _ name)
  · exact fun more s id => (hgrows _ more).1.id?
  · exact fun more name id => (hgrows _ more).2.id?
  · rw [hsound.stillOpen, List.length_map]
    exact Option.length_toList_le

/-- A function that is closed and then rewritten, and another one that stays open; opening it
    the first time is refused, and so is closing the first one again. -/
def interrupted : List Call :=
  [.string "a", .register "f", .register "g", .openFunction "f" [], .openFunction "g" [],
   .emit (.ofNat .pushString 0), .closeFunction, .closeFunction, .optimize List.reverse,
   .openFunction "g" []]

/-- All tables of that draft from the back to the front. -/
def interruptedBackwards : (empty.run interrupted).Order where
  strings := (empty.run interrupted).strings.table.reverse
  functions := (empty.run interrupted).functions.table.reverse
  bodies := (empty.run interrupted).bodies.reverse
  strings_perm := List.reverse_perm _
  functions_perm := List.reverse_perm _
  bodies_perm := List.reverse_perm _

theorem run_interned_interrupted :
    stillOpen (empty.history interrupted) = ["g"] ∧
      ((empty.run interrupted).run [.string "b"]).strings.id? "a" = some 0 ∧
      (interruptedBackwards.assemble id).functions[0]? =
        some (.compiled (.ofCode #[.bare .ret, .bare .pushUnit, .ofNat .pushString 0])) ∧
      (interruptedBackwards.assemble id).functions[1]? = some .unset := by
  obtain ⟨-, -, -, -, hstays, -, -, -, hall⟩ := run_interned interrupted
  have hprogram := hall interruptedBackwards
  have ha : (empty.run interrupted).strings.id? "a" = some 0 := by decide +kernel
  have hf : (interruptedBackwards.assemble id).names.get? "f" = some 0 := by
    rw [hprogram.names]
    decide +kernel
  have hg : (interruptedBackwards.assemble id).names.get? "g" = some 1 := by
    rw [hprogram.names]
    decide +kernel
  have hbody : lastBody (empty.history interrupted) "f" =
      some [.bare .ret, .bare .pushUnit, .ofNat .pushString 0] := by decide +kernel
  have hnever : lastBody (empty.history interrupted) "g" = none := by decide +kernel
  have hclosed : ∃ code, .closed "f" code ∈ empty.history interrupted :=
    not_forall_not.1 (mt (lastBody_eq_none_iff _ _).2 (hbody ▸ nofun))
  obtain ⟨code, hcode, hentry⟩ := hprogram.compiled "f" 0 hf hclosed
  obtain rfl := Option.some.inj (hcode.symm.trans hbody)
  have hunset := hprogram.unset "g" 1 hg ((lastBody_eq_none_iff _ _).1 hnever)
  exact ⟨by decide +kernel, hstays [.string "b"] "a" 0 ha, hentry, hunset⟩

end Draft

end ScriptMachine
