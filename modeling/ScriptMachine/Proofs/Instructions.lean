import ScriptMachine.Proofs.Operations

/-!
# What instructions are made of

An instruction takes operands, pushes a result, sets a slot, enters a function, or asks for
control to move. All this can also be done by operations from outside, and so every instruction by
itself is a sequence of operations. Which ones these can be depends on the instruction and on the
operands that are there (`Operation.Serves`).

* `Process.made_execute`: an instruction by itself is a sequence of operations that serve it.
-/

namespace ScriptMachine

/-- An operation that an instruction of the process can consist of. -/
def Operation.Serves (p : Process) (i : Instruction) : Operation → Prop
  | .push _ | .pop | .popN _ => True
  | .setLocal slot _ => i.opcode = .setLocal ∧ slot = i.index
  | .enter _ args => i.opcode = .call ∧ args.length = i.index ∧
    ∃ f rest, p.frames = f :: rest ∧ i.index < f.stack.length
  | .jump ip => i.opcode.isJump = true ∧ ip = i.index
  | .exit | .setReturnValue _ => i.opcode = .ret
  | _ => False

namespace Process

variable {P : Operation → Prop} {p q r : Process} {f : Frame} {rest : List Frame}
  {i : Instruction} {v : Value} {vs : List Value} {k : Nat}

/-- Operations of this kind lead from one process to the other. -/
def Made (P : Operation → Prop) (p q : Process) : Prop :=
  ∃ ops : List Operation, (∀ op ∈ ops, P op) ∧ q = p.operate ops

theorem Made.refl (P : Operation → Prop) (p : Process) : Made P p p :=
  ⟨[], fun _ hop => absurd hop List.not_mem_nil, rfl⟩

/-- One operation, and then others. -/
theorem Made.cons (op : Operation) (hop : P op) (h : Made P (p.carryOut op) q) : Made P p q := by
  obtain ⟨ops, hops, rfl⟩ := h
  exact ⟨op :: ops, List.forall_mem_cons.2 ⟨hop, hops⟩, rfl⟩

theorem made_carryOut (p : Process) (op : Operation) (hop : P op) : Made P p (p.carryOut op) :=
  .cons op hop (.refl P _)

/-- What every operation of the kind preserves is preserved. -/
theorem Made.preserves {I : Process → Prop} (h : Made P p q) (hp : I p)
    (hstep : ∀ (p : Process) (op : Operation), P op → I p → I (p.carryOut op)) : I q := by
  obtain ⟨ops, hops, rfl⟩ := h
  induction ops generalizing p with
  | nil => exact hp
  | cons op ops ih =>
    obtain ⟨hop, hops⟩ := List.forall_mem_cons.1 hops
    exact ih (hstep p op hop hp) hops

/-! ## The parts of instructions -/

theorem finish_fst (p : Process) (x : Except Fault Process) : (p.finish x).1 = p.attempt x := by
  cases x with
  | ok q => rfl
  | error e => rfl

theorem made_pushResult (hpush : ∀ v, P (.push v)) (p : Process) (x : Except Fault Value) :
    Made P p (p.pushResult x).1 := by
  cases x with
  | error e => exact .refl P p
  | ok v =>
    rw [pushResult, finish_fst]
    exact p.made_carryOut (.push v) (hpush v)

theorem made_withOperand (hpop : P .pop) {next : Value → Process → Executed}
    (h : ∀ v q, p.pop = .ok (v, q) → Made P q (next v q).1) : Made P p (p.withOperand next).1 := by
  rw [withOperand]
  split
  · next v q hq =>
    have heq : p.carryOut .pop = q := by
      rw [carryOut, hq]
      rfl
    exact .cons .pop hpop (heq ▸ h v q hq)
  · exact .refl P p

theorem made_withOperands (hpopN : P (.popN k)) {next : List Value → Process → Executed}
    (h : ∀ vs q, p.popN k = .ok (vs, q) → Made P q (next vs q).1) :
    Made P p (p.withOperands k next).1 := by
  rw [withOperands]
  split
  · next vs q hq =>
    have heq : p.carryOut (.popN k) = q := by
      rw [carryOut, hq]
      rfl
    exact .cons (.popN k) hpopN (heq ▸ h vs q hq)
  · exact .refl P p

/-- A call takes the function and its arguments, if they are there. -/
theorem lt_length_of_pop (hp : p.frames = f :: rest) (hpop : p.pop = .ok (v, q))
    (hpopN : q.popN k = .ok (vs, r)) : vs.length = k ∧ k < f.stack.length := by
  simp only [pop, hp] at hpop
  cases hf : f.stack with
  | nil => simp [hf] at hpop
  | cons w stack =>
    simp only [hf] at hpop
    cases hpop
    simp only [popN] at hpopN
    split at hpopN
    · cases hpopN
    · cases hpopN
      simp
      omega

/-! ## Instructions -/

theorem made_binary (op : Value → Value → Except Fault Value) :
    Made (Operation.Serves p i) q (q.binary op).1 := by
  refine made_withOperand trivial fun _ _ _ => made_withOperand trivial fun _ r _ => ?_
  exact made_pushResult (fun _ => trivial) r _

theorem made_branch (hop : i.opcode.isJump = true) (expected : Bool) :
    Made (Operation.Serves p i) p (p.branch i expected).1 := by
  refine made_withOperand trivial fun v q _ => ?_
  cases v with
  | boolean b =>
    dsimp only
    split
    · exact q.made_carryOut (.jump i.index) ⟨hop, rfl⟩
    · exact .refl _ q
  | _ => exact .refl _ q

theorem made_call (hop : i.opcode = .call) : Made (Operation.Serves p i) p (p.execute i).1 := by
  simp only [execute, hop]
  refine made_withOperand trivial fun v q hpop => ?_
  cases v with
  | functionRef id =>
    refine made_withOperands trivial fun vs r hpopN => ?_
    cases hp : p.frames with
    | nil => simp [pop, hp] at hpop
    | cons f rest =>
      obtain ⟨hlength, hlt⟩ := lt_length_of_pop hp hpop hpopN
      rw [finish_fst]
      exact r.made_carryOut (.enter id vs) ⟨hop, hlength, f, rest, hp, hlt⟩
  | _ => exact .refl _ q

/-- An instruction by itself is a sequence of operations that serve it. -/
theorem made_execute (p : Process) (i : Instruction) :
    Made (Operation.Serves p i) p (p.execute i).1 := by
  cases hop : i.opcode with
  | call => exact made_call hop
  | nop | invalid =>
    simp only [execute, hop]
    exact .refl _ p
  | pushInt | pushFloat | pushBool | pushFunction | pushUnit =>
    simp only [execute, hop, finish_fst]
    exact p.made_carryOut (.push _) trivial
  | pushString | getLocal =>
    simp only [execute, hop]
    exact made_pushResult (fun _ => trivial) p _
  | add | sub | mul | div | and | or | gt | lt | gte | lte | eq =>
    simp only [execute, hop]
    exact made_binary _
  | not =>
    simp only [execute, hop]
    exact made_withOperand trivial fun _ q _ => made_pushResult (fun _ => trivial) q _
  | jumpIf | jumpUnless =>
    simp only [execute, hop]
    exact made_branch (by rw [hop]; rfl) _
  | jump =>
    simp only [execute, hop]
    exact p.made_carryOut (.jump i.index) ⟨by rw [hop]; rfl, rfl⟩
  | external =>
    simp only [execute, hop]
    refine made_withOperand trivial fun v q _ => ?_
    cases v with
    | string name => exact made_withOperands trivial fun _ r _ => .refl _ r
    | _ => exact .refl _ q
  | ret =>
    simp only [execute, hop]
    refine made_withOperand trivial fun v q _ => ?_
    exact .cons (.setReturnValue v) hop (made_carryOut _ .exit hop)
  | setLocal =>
    simp only [execute, hop]
    refine made_withOperand trivial fun v q _ => ?_
    rw [finish_fst]
    exact q.made_carryOut (.setLocal i.index v) ⟨hop, rfl⟩

end Process

end ScriptMachine
