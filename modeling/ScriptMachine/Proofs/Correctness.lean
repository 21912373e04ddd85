import ScriptMachine.Proofs.Simulation

/-!
# Compilation keeps the meaning

A process that enters a function of a compiled script comes to an end exactly if the
evaluation of the script does, and in the same way: with the same value, or with the
same fault (`Script.compile_correct`). The numbers of the program and of the variables
must fit into instructions (`Program.Fits`, `Script.Numbered`), parameters of one
function must have different names, and the script must not call functions of the host.

`Script.invoke_follows` is the one direction, by induction on the fuel: the functions
that a function calls have less of it. The other direction needs nothing more. A
process has one future only, and if its run comes to an end then evaluation with more
fuel than the run has steps cannot be unfinished.

Evaluation gives a function all of its arguments, also those for which it has no
parameters. `Script.surplus_argument_kept` shows that this is needed: no check stands
between a call and the function that is called, and an argument too many is found by
whatever variable has its number.
-/

namespace ScriptMachine

namespace Script

/-- The numbers of the variables of a script fit into instructions. -/
def Numbered (s : Script) : Prop :=
  ∀ f ∈ s.functions,
    f.params.length + (Stmt.allDeclarations f.params f.body).length < 4294967296

instance (s : Script) : Decidable s.Numbered :=
  inferInstanceAs (Decidable (∀ f ∈ s.functions,
    f.params.length + (Stmt.allDeclarations f.params f.body).length < 4294967296))

open Process

variable {s : Script} {host : Host Unit} {handle : Handle} {p : Process} {id : Nat} {f : Function}

/-- A function of the script, as a process finds it. -/
theorem Compiled.exists_body (hs : s.Compiled p.program) (hfits : p.program.Fits)
    (hf : s.functions[id]? = some f) :
    ∃ code slots' count, StmtsCode s.functionId? p.program.strings (.ofParams f.params) 0 f.body code
        slots' ∧
      p.program.HasCode id 0 (Draft.completed code) ∧
      (Draft.completed code).length < 4294967296 ∧
      ∀ args, p.frames.length ≠ p.maxDepth → p.entered id args = .ok (.enter id count args) := by
  obtain ⟨code, slots', hcode, hbody⟩ := hs.code id f hf
  obtain ⟨hsize, hslots⟩ := hfits.bodies id _ hbody
  refine ⟨code, slots', (Body.ofCode (Draft.completed code).toArray).slots, hcode,
    Program.hasCode_ofCode hbody, ?_, fun args hdepth => ?_⟩
  · simpa [Body.ofCode] using hsize
  · simp only [entered, if_neg hdepth, Program.function?, hbody, if_neg (Nat.not_lt.2 hslots)]

/-- A number without a function. -/
theorem Compiled.entered_of_none (hs : s.Compiled p.program) (hf : s.functions[id]? = none)
    (hdepth : p.frames.length ≠ p.maxDepth) (args : List Value) :
    p.entered id args = .error (.badFunctionId id) := by
  have hnone : p.program.functions[id]? = none := by
    rw [Array.getElem?_eq_none_iff, hs.size]
    exact List.getElem?_eq_none_iff.1 hf
  simp only [entered, if_neg hdepth, Program.function?, hnone]

/-- The body of a function, from its start to its return. -/
theorem answer_follows {call : Nat → List Value → Result Value} {n count : Nat} {args : List Value}
    {code : List Instruction} {slots' : Slots} (hp : p.Quiet) (hs : s.Compiled p.program)
    (hfits : p.program.Fits) (hfree : Stmt.allHostFree f.body = true) (hparams : f.params.Nodup)
    (hvariables : f.params.length + (Stmt.allDeclarations f.params f.body).length < 4294967296)
    (hcode : StmtsCode s.functionId? p.program.strings (.ofParams f.params) 0 f.body code slots')
    (hbody : p.program.HasCode id 0 (Draft.completed code))
    (hsize : (Draft.completed code).length < 4294967296)
    (hcall : ∀ caller id args, Invokes host handle (n - 1) (p.onFrames (caller :: p.frames)) id args
      (call id args)) :
    Follows host handle n (p.onFrames (.enter id count args :: p.frames)) (f.answer s call n args)
      fun v q => q = p.deliver v := by
  have hruns : RunsBody s p id f.params.length (Stmt.allDeclarations f.params f.body) :=
    { quiet := hp
      strings := Nat.le_of_lt hfits.strings
      functions := Nat.le_of_lt (hs.size ▸ hfits.functions)
      numbers := hvariables
      slots := fun _ _ hi hop => hfits.index_lt hi hop }
  -- Whether or not a return was added, the code of the body comes first.
  have hcompleted : ∃ tail, Draft.completed code = code ++ tail := by
    unfold Draft.completed
    split
    · exact ⟨[], (List.append_nil code).symm⟩
    · exact ⟨_, rfl⟩
  obtain ⟨tail, htail⟩ := hcompleted
  have hlength : 0 + code.length < 4294967296 := by
    rw [htail, List.length_append] at hsize
    omega
  have hnext : (Slots.ofParams f.params).next = f.params.length + 1 := by
    rw [Activation.ofParams_eq hparams]
  have hstmts : Follows host handle n (p.onFrames (.enter id count args :: p.frames))
      (Stmt.execAll s call n f.body (Slots.ofParams f.params).next (.enter f.params args))
      (Arrives s f.params.length (Stmt.allDeclarations f.params f.body) p p.frames id
        (0 + code.length) slots') :=
    execAll_follows hruns hcall f.body hfree hcode (htail ▸ hbody).left hlength rfl rfl
      (Activation.matches_enter hparams id count args)
      ⟨[], [], by rw [Activation.bound_enter, List.append_nil, List.nil_append], hnext⟩
  rw [Function.answer, ← hnext]
  refine .bind_of_eq hstmts fun flow q hexec hflow => ?_
  cases flow with
  | returned v => exact follows_done hflow
  | next a =>
    -- The body came to its end, so its code was completed by a return.
    have hends := execAll_fallsOff f.body hexec hcode hlength
    rw [Nat.zero_add] at hends
    rw [Draft.completed, hends.endsWithReturn_eq_false, if_neg Bool.false_ne_true] at hbody
    obtain ⟨f', rfl, rfl, hip, -⟩ := hflow
    have hreturn := hip ▸ hbody.right
    refine .next (next_push hp hreturn.head rfl) ?_
    exact .next (next_ret hp hreturn.tail.head rfl rfl) (follows_done rfl)

/-- A process that enters a function goes along with its invocation. -/
theorem invoke_follows {maxDepth fuel depth : Nat} {args : List Value} (hs : s.Compiled p.program)
    (hfits : p.program.Fits) (hnumbers : s.Numbered) (hfree : s.hostFree = true)
    (hparams : ∀ f ∈ s.functions, f.params.Nodup) (hp : p.Quiet) (hmax : p.maxDepth = maxDepth)
    (hdepth : p.frames.length = depth) :
    p.Invokes host handle (fuel - 1) id args (s.invoke maxDepth fuel depth id args) := by
  induction fuel using Nat.strongRecOn generalizing p depth id args with
  | ind fuel ih =>
    unfold Invokes invokeWith
    by_cases hd : depth = maxDepth
    · have hentered : p.entered id args = .error (.stackOverflow maxDepth) := by
        simp [entered, hdepth, hmax, hd]
      rw [hentered, if_pos hd]
    · have hd' : p.frames.length ≠ p.maxDepth := by rwa [hdepth, hmax]
      rw [if_neg hd]
      cases hf : s.functions[id]? with
      | none => rw [hs.entered_of_none hf hd' args]
      | some f =>
        obtain ⟨code, slots', count, hcode, hbody, hsize, hentered⟩ := hs.exists_body hfits hf
        rw [hentered args hd']
        cases fuel with
        | zero => exact ⟨0, _, Nat.le_refl 0, .refl _⟩
        | succ fuel =>
          -- Functions that the body calls have one frame more below them and less fuel.
          have hmem := List.mem_of_getElem? hf
          refine answer_follows hp hs hfits (List.all_eq_true.1 hfree f hmem) (hparams f hmem)
            (hnumbers f hmem) hcode hbody hsize fun caller id' args' => ?_
          exact ih fuel (Nat.lt_succ_self fuel) hs hfits (hp.onFrames _) hmax
            (congrArg (· + 1) hdepth)

end Script

namespace Process

variable {host : Host Unit} {handle : Handle} {n : Nat} {p q : Process} {id : Nat}
  {args : List Value} {r : Result Value} {v : Value} {e : Fault}

/-- The process enters a function and returns from it with a value. -/
def EntryReturns (host : Host Unit) (handle : Handle) (p : Process) (id : Nat) (args : List Value)
    (v : Value) : Prop :=
  ∃ q, p.enter id args = .ok q ∧ Returns host handle q v

/-- The process enters a function and comes to a fault, possibly in entering it. -/
def EntryFaults (host : Host Unit) (handle : Handle) (p : Process) (id : Nat) (args : List Value)
    (e : Fault) : Prop :=
  p.enter id args = .error e ∨ ∃ q, p.enter id args = .ok q ∧ Faults host handle q e

/-- The process enters a function and never comes to an end. -/
def EntryDiverges (host : Host Unit) (handle : Handle) (p : Process) (id : Nat)
    (args : List Value) : Prop :=
  ∃ q, p.enter id args = .ok q ∧ Diverges host handle q

/-- What goes along with an invocation does so once the function is entered. -/
theorem Invokes.cases (h : p.Invokes host handle n id args r) :
    (∃ e, p.enter id args = .error e ∧ r = .fault e) ∨
      ∃ q, p.enter id args = .ok q ∧ Follows host handle n q r fun v q' => q' = p.deliver v := by
  unfold Invokes at h
  rw [enter_eq]
  cases hentered : p.entered id args with
  | error e =>
    rw [hentered] at h
    exact .inl ⟨e, rfl, h⟩
  | ok callee =>
    rw [hentered] at h
    exact .inr ⟨_, rfl, h⟩

theorem Invokes.entryReturns (h : p.Invokes host handle n id args (.done v)) (hp : p.frames = []) :
    EntryReturns host handle p id args v := by
  rcases h.cases with ⟨e, -, he⟩ | ⟨q, hq, k, q', hk, rfl⟩
  · simp at he
  · exact ⟨q, hq, k, _, hk, by simp [deliver, hp], by simp [deliver, hp]⟩

theorem Invokes.entryFaults (h : p.Invokes host handle n id args (.fault e)) :
    EntryFaults host handle p id args e := by
  rcases h.cases with ⟨e', hq, he⟩ | ⟨q, hq, hfaults⟩
  · obtain rfl := Result.fault.inj he
    exact .inl hq
  · exact .inr ⟨q, hq, hfaults⟩

theorem Invokes.ne_meaningless (h : p.Invokes host handle n id args r) : r ≠ .meaningless := by
  rintro rfl
  rcases h.cases with ⟨e, -, he⟩ | ⟨q, -, hfalse⟩
  · simp at he
  · exact hfalse

/-- A function that is entered and goes no further than so many steps needs no more
    fuel. -/
theorem Invokes.ne_unfinished {m : Nat} {q' : Process} {raised : Raised}
    (h : p.Invokes host handle n id args r) (hq : p.enter id args = .ok q)
    (hm : Steps host handle m q q') (hraised : q'.next host handle = .error raised) (hn : m < n) :
    r ≠ .unfinished := by
  rintro rfl
  rcases h.cases with ⟨e, -, he⟩ | ⟨q₁, hq₁, k, q₂, hk, hsteps⟩
  · simp at he
  · rw [hq, Except.ok.injEq] at hq₁
    have := hm.le_of_error hraised (hq₁ ▸ hsteps)
    omega

/-! A function that is entered comes to an end in one way. -/

theorem EntryReturns.unique {w : Value} (hv : EntryReturns host handle p id args v)
    (hw : EntryReturns host handle p id args w) : v = w := by
  obtain ⟨q, hq, hv⟩ := hv
  obtain ⟨q', hq', hw⟩ := hw
  rw [hq, Except.ok.injEq] at hq'
  exact hv.unique (hq' ▸ hw)

theorem EntryFaults.unique {e' : Fault} (he : EntryFaults host handle p id args e)
    (he' : EntryFaults host handle p id args e') : e = e' := by
  rcases he with he | ⟨q, hq, he⟩ <;> rcases he' with he' | ⟨q', hq', he'⟩
  · rw [he, Except.error.injEq] at he'
    exact he'
  · simp [he] at hq'
  · simp [hq] at he'
  · rw [hq, Except.ok.injEq] at hq'
    exact he.unique (hq' ▸ he')

theorem EntryReturns.not_entryFaults (hv : EntryReturns host handle p id args v) :
    ¬EntryFaults host handle p id args e := by
  obtain ⟨q, hq, hv⟩ := hv
  rintro (he | ⟨q', hq', he⟩)
  · simp [hq] at he
  · rw [hq, Except.ok.injEq] at hq'
    exact hv.not_faults (hq' ▸ he)

theorem EntryDiverges.not_entryReturns (h : EntryDiverges host handle p id args) :
    ¬EntryReturns host handle p id args v := by
  obtain ⟨q, hq, h⟩ := h
  rintro ⟨q', hq', hv⟩
  rw [hq, Except.ok.injEq] at hq'
  exact hv.not_diverges (hq' ▸ h)

theorem EntryDiverges.not_entryFaults (h : EntryDiverges host handle p id args) :
    ¬EntryFaults host handle p id args e := by
  obtain ⟨q, hq, h⟩ := h
  rintro (he | ⟨q', hq', he⟩)
  · simp [hq] at he
  · rw [hq, Except.ok.injEq] at hq'
    exact he.not_diverges (hq' ▸ h)

section Fuel

variable {r : Nat → Result Value}

/-- A run that ends with a value is one that evaluation has come to. -/
theorem exists_fuel_of_entryReturns (hp : p.frames = [])
    (h : ∀ fuel, p.Invokes host handle (fuel - 1) id args (r fuel))
    (hv : EntryReturns host handle p id args v) : ∃ fuel, r fuel = .done v := by
  have hreturns := hv
  obtain ⟨q, hq, m, q', hm, hframes, -⟩ := hreturns
  -- This is more fuel than the run has steps.
  refine ⟨m + 2, ?_⟩
  have hfuel := h (m + 2)
  have hne := hfuel.ne_unfinished hq hm (next_of_frames_eq_nil hframes) (by omega)
  cases hr : r (m + 2) with
  | done w =>
    rw [hr] at hfuel
    rw [(hfuel.entryReturns hp).unique hv]
  | fault e => exact absurd (hr ▸ hfuel).entryFaults hv.not_entryFaults
  | unfinished => exact absurd hr hne
  | meaningless => exact absurd hr hfuel.ne_meaningless

/-- A run that ends with a fault is one that evaluation has come to. -/
theorem exists_fuel_of_entryFaults (hp : p.frames = [])
    (h : ∀ fuel, p.Invokes host handle (fuel - 1) id args (r fuel))
    (he : EntryFaults host handle p id args e) : ∃ fuel, r fuel = .fault e := by
  have hfaults := he
  have hfinished : ∃ fuel, r fuel ≠ .unfinished := by
    rcases hfaults with he | ⟨q, hq, m, q', hm, -, hraised⟩
    · -- A function that cannot be entered needs no fuel at all.
      rcases (h 0).cases with ⟨e', -, hr⟩ | ⟨q, hq, -⟩
      · exact ⟨0, by simp [hr]⟩
      · simp [he] at hq
    · exact ⟨m + 2, (h (m + 2)).ne_unfinished hq hm hraised (by omega)⟩
  obtain ⟨fuel, hne⟩ := hfinished
  have hfuel := h fuel
  refine ⟨fuel, ?_⟩
  cases hr : r fuel with
  | done w => exact absurd he ((hr ▸ hfuel).entryReturns hp).not_entryFaults
  | fault e' =>
    rw [hr] at hfuel
    rw [hfuel.entryFaults.unique he]
  | unfinished => exact absurd hr hne
  | meaningless => exact absurd hr hfuel.ne_meaningless

/-- Evaluation that is never finished belongs to a run that never ends. -/
theorem entryDiverges_of_unfinished
    (h : ∀ fuel, p.Invokes host handle (fuel - 1) id args (r fuel))
    (hr : ∀ fuel, r fuel = .unfinished) : EntryDiverges host handle p id args := by
  rcases (h 0).cases with ⟨e, -, he⟩ | ⟨q, hq, -⟩
  · simp [hr] at he
  · refine ⟨q, hq, fun n => ?_⟩
    have hn := h (n + 1)
    rw [hr] at hn
    rcases hn.cases with ⟨e, -, he⟩ | ⟨q', hq', k, r', hk, hsteps⟩
    · simp at he
    · rw [hq, Except.ok.injEq] at hq'
      obtain ⟨q₁, hq₁, -⟩ := (hq' ▸ hsteps).split hk
      exact ⟨q₁, hq₁⟩

end Fuel

end Process

namespace Script

open Process

/-- A process that enters a function of a compiled script returns from it with a
    value, comes to a fault or goes on forever exactly if evaluation does so, and it
    does one of these. -/
theorem compile_correct {s : Script} {program : Program} (hs : s.compile = .ok program)
    (hfits : program.Fits) (hnumbers : s.Numbered) (hfree : s.hostFree = true)
    (hparams : ∀ f ∈ s.functions, f.params.Nodup) (handle : Handle) (maxDepth id : Nat)
    (args : List Value) :
    (∀ v, EntryReturns .detached handle (.new program maxDepth) id args v ↔
      ∃ fuel, s.invoke maxDepth fuel 0 id args = .done v) ∧
    (∀ e, EntryFaults .detached handle (.new program maxDepth) id args e ↔
      ∃ fuel, s.invoke maxDepth fuel 0 id args = .fault e) ∧
    (EntryDiverges .detached handle (.new program maxDepth) id args ↔
      ∀ fuel, s.invoke maxDepth fuel 0 id args = .unfinished) ∧
    ((∃ v, EntryReturns .detached handle (.new program maxDepth) id args v) ∨
      (∃ e, EntryFaults .detached handle (.new program maxDepth) id args e) ∨
      EntryDiverges .detached handle (.new program maxDepth) id args) := by
  have h : ∀ fuel, (Process.new program maxDepth).Invokes .detached handle (fuel - 1) id args
      (s.invoke maxDepth fuel 0 id args) := fun fuel =>
    invoke_follows (compiled_of_compile hs) hfits hnumbers hfree hparams ⟨rfl, rfl⟩ rfl rfl
  refine ⟨fun v => ⟨exists_fuel_of_entryReturns rfl h, fun ⟨fuel, hv⟩ => ?_⟩,
    fun e => ⟨exists_fuel_of_entryFaults rfl h, fun ⟨fuel, he⟩ => ?_⟩,
    ⟨fun hdiverges fuel => ?_, entryDiverges_of_unfinished h⟩, ?_⟩
  · exact (hv ▸ h fuel).entryReturns rfl
  · exact (he ▸ h fuel).entryFaults
  · cases hr : s.invoke maxDepth fuel 0 id args with
    | done v => exact absurd ((hr ▸ h fuel).entryReturns rfl) hdiverges.not_entryReturns
    | fault e => exact absurd (hr ▸ h fuel).entryFaults hdiverges.not_entryFaults
    | unfinished => rfl
    | meaningless => exact absurd hr (h fuel).ne_meaningless
  · by_cases hall : ∀ fuel, s.invoke maxDepth fuel 0 id args = .unfinished
    · exact .inr (.inr (entryDiverges_of_unfinished h hall))
    · obtain ⟨fuel, hfuel⟩ := Classical.not_forall.1 hall
      cases hr : s.invoke maxDepth fuel 0 id args with
      | done v => exact .inl ⟨v, (hr ▸ h fuel).entryReturns rfl⟩
      | fault e => exact .inr (.inl ⟨e, (hr ▸ h fuel).entryFaults⟩)
      | unfinished => exact absurd hr hfuel
      | meaningless => exact absurd hr (h fuel).ne_meaningless

/-! ## Surplus arguments -/

/-- A script that passes an argument to a function without parameters. The function
    reads a variable in the assignment that introduces it. -/
def surplus : Script where
  functions := [
    { name := "main", params := [],
      body := [.give (some (.call .internal "f" [.literal (.int 7)]))] },
    { name := "f", params := [],
      body := [.assign "x" (.ident "x"), .give (some (.ident "x"))] }]

/-- What that script is compiled to. -/
def surplusProgram : Program where
  strings := #[]
  functions := #[
    .compiled (.ofCode #[.ofInt .pushInt 7, .ofNat .pushFunction 1, .ofNat .call 1, .bare .ret]),
    .compiled (.ofCode #[.ofNat .getLocal 1, .ofNat .setLocal 1, .ofNat .getLocal 1, .bare .ret])]
  names := [("main", 0), ("f", 1)]

theorem surplus_compile : surplus.compile = .ok surplusProgram := by
  have h : surplus.compile.toOption = some surplusProgram := by decide +kernel
  cases hcompile : surplus.compile with
  | error e => simp [hcompile, Except.toOption] at h
  | ok p => simpa [hcompile, Except.toOption] using h

theorem surplusProgram_fits : surplusProgram.Fits := by
  refine ⟨by decide, by decide, fun id body h => ?_⟩
  rcases id with _ | _ | id
  · obtain rfl := FunctionEntry.compiled.inj (Option.some.inj h)
    decide
  · obtain rfl := FunctionEntry.compiled.inj (Option.some.inj h)
    decide
  · simp [surplusProgram] at h

theorem compile_correct_surplus :
    EntryReturns .detached ⟨0⟩ (.new surplusProgram 256) 0 [] (.int 7) :=
  ((compile_correct surplus_compile surplusProgram_fits (by decide) rfl (by decide) ⟨0⟩ 256 0 []).1
    (.int 7)).2 ⟨3, rfl⟩

/-- If functions dropped the arguments that they have no parameters for, then
    evaluation would find no value where a process finds the surplus argument. -/
theorem surplus_argument_kept :
    surplus.compile = .ok surplusProgram ∧
      EntryReturns .detached ⟨0⟩ (.new surplusProgram 256) 0 [] (.int 7) ∧
      ¬EntryFaults .detached ⟨0⟩ (.new surplusProgram 256) 0 [] (.noSuchLocal 1) ∧
      surplus.invokeWith (fun f args => args.take f.params.length) 256 3 0 0 [] =
        .fault (.noSuchLocal 1) := by
  have h : (Process.new surplusProgram 256).Invokes .detached ⟨0⟩ (3 - 1) 0 []
      (surplus.invoke 256 3 0 0 []) :=
    invoke_follows (compiled_of_compile surplus_compile) surplusProgram_fits (by decide) rfl
      (by decide) ⟨rfl, rfl⟩ rfl rfl
  have hreturns : EntryReturns .detached ⟨0⟩ (.new surplusProgram 256) 0 [] (.int 7) :=
    Invokes.entryReturns h rfl
  exact ⟨surplus_compile, hreturns, hreturns.not_entryFaults, rfl⟩

end Script

end ScriptMachine
