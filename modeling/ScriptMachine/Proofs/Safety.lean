import ScriptMachine.Proofs.Correctness
import ScriptMachine.Proofs.Operands

/-!
# Compiled scripts do not go wrong

A process that runs a compiled script always stands at an instruction of the function it
is in, and an instruction fails only for reasons that lie in the script
(`Fault.isOfScript`): values of the wrong type, a number that is none, a division by
zero, a variable without a value, or too many calls. It never looks for an operand or a
slot that is not there, nor for a string or a function that the program does not have
(`Script.compiled_safe`).

Calls of functions of the host are the exception. They are safe if the host has no
functions and pushes the unit value instead, and nothing is said about other hosts.

The invariant (`Process.Sound`) says of the current frame that it stands at a safe place
in a shape of its operands, and of the other frames that they do as soon as the value
for which they wait is pushed. All references to functions, wherever they are, are to
functions of the program.

* `Process.Sound.goes_on`: one step keeps the invariant, or fails for such a reason.
* `Process.Sound.steps`: so does every run that calls no function of the host, or has
  unit values pushed for them.
-/

namespace ScriptMachine

/-- Does the reason for a fault lie in the script? All other faults would mean that its
    code is broken, or come from the host. -/
def Fault.isOfScript : Fault → Bool
  | typeError _ _ _ | unaryTypeError _ _ | notANumber | divisionByZero | stackOverflow _
  | noSuchLocal _ => true
  | unexpectedType op _ _ => op = .jumpUnless || op = .call
  | _ => false

/-- If the value is a reference, then to a function of the program. -/
def Value.Refers (p : Program) : Value → Prop
  | .functionRef id => id < p.functions.size
  | _ => True

/-! ## Operations on values -/

section Operations

variable {op : Value → Value → Except Fault Value} {v w : Value}

/-- An operation comes to a value that is no reference, or fails because of its
    operands. -/
def Sensible (x : Except Fault Value) : Prop :=
  (∃ v, x = .ok v ∧ v.type ≠ .functionRef) ∨ ∃ e, x = .error e ∧ e.isOfScript = true

theorem Sensible.of_ok (h : v.type ≠ .functionRef) : Sensible (.ok v) := .inl ⟨v, rfl, h⟩

theorem Sensible.of_error {e : Fault} (h : e.isOfScript = true) : Sensible (.error e) :=
  .inr ⟨e, rfl, h⟩

theorem Arithmetic.onInts_sensible (op : Arithmetic) (a b : Int32) :
    Sensible (Value.int <$> op.onInts a b) := by
  cases op with
  | add | sub | mul => exact .of_ok (by simp [Value.type])
  | div =>
    rw [onInts]
    split
    · exact .of_error rfl
    · exact .of_ok (by simp [Value.type])

/-- A number is rounded, or is none. -/
theorem Value.roundToInt_cases (x : Binary32) :
    (∃ n, roundToInt x = .ok n) ∨ roundToInt x = .error .notANumber := by
  unfold roundToInt
  split
  · exact .inr rfl
  · exact .inl ⟨_, rfl⟩

theorem Value.arithmetic_sensible (op : Arithmetic) (left right : Value) :
    Sensible (arithmetic op left right) := by
  unfold arithmetic
  split
  · exact op.onInts_sensible _ _
  · -- The number on the right is made an integer first.
    next a y =>
    rcases roundToInt_cases y with ⟨n, hn⟩ | hn
    · rw [hn]
      exact op.onInts_sensible a n
    · rw [hn]
      exact .of_error rfl
  · exact .of_ok (by simp [Value.type])
  · exact .of_ok (by simp [Value.type])
  · exact .of_error rfl

theorem Value.compare_sensible (c : Comparison) (left right : Value) :
    Sensible (compare c left right) := by
  unfold compare
  split
  · exact .of_ok (by simp [Value.type])
  · next a y =>
    rcases roundToInt_cases y with ⟨n, hn⟩ | hn
    · rw [hn]
      exact .of_ok (by simp [Value.type])
    · rw [hn]
      exact .of_error rfl
  · exact .of_ok (by simp [Value.type])
  · exact .of_ok (by simp [Value.type])
  · exact .of_error rfl

theorem Value.not_sensible (v : Value) : Sensible v.not := by
  unfold Value.not
  split
  · exact .of_ok (by simp [Value.type])
  · exact .of_error rfl

theorem Opcode.operation?_sensible {opcode : Opcode} (h : opcode.operation? = some op)
    (left right : Value) : Sensible (op left right) := by
  cases opcode <;> simp [operation?] at h <;> subst h
  case add =>
    unfold Value.add
    split
    · exact .of_ok (by simp [Value.type])
    · exact Value.arithmetic_sensible _ _ _
  case sub | mul | div => exact Value.arithmetic_sensible _ _ _
  case gt | lt | gte | lte => exact Value.compare_sensible _ _ _
  case eq => exact .of_ok (by simp [Value.equals, Value.type])
  case and | or =>
    first
    | unfold Value.and
    | unfold Value.or
    split
    · exact .of_ok (by simp [Value.type])
    · exact .of_error rfl

end Operations

/-! ## The invariant -/

/-- A value that is no reference refers to nothing. -/
theorem Value.refers_of_type_ne {p : Program} {v : Value} (h : v.type ≠ .functionRef) :
    v.Refers p := by
  cases v with
  | functionRef id => exact absurd rfl h
  | _ => trivial

/-- All functions of the program can be entered and are safe. -/
structure Program.Sound (p : Program) : Prop where
  entry : ∀ id, id < p.functions.size →
    ∃ body, p.function? id = some (.compiled body) ∧ body.slots ≤ maxLocals
  safe : ∀ id, id < p.functions.size → p.Forever id 0 []

/-- The operand that was pushed last, and what lies below it. -/
theorem Shape.Holds.exists_operand {p : Program} {k : Kind} {shape : Shape} {stack : List Value}
    (h : Shape.Holds (k :: shape) stack) (hstack : ∀ v ∈ stack, v.Refers p) :
    ∃ v rest, stack = v :: rest ∧ k.Holds v ∧ v.Refers p ∧ shape.Holds rest ∧
      ∀ v ∈ rest, v.Refers p := by
  obtain ⟨v, rest, rfl, hk, hshape⟩ := h.exists_cons
  obtain ⟨hv, hrest⟩ := List.forall_mem_cons.1 hstack
  exact ⟨v, rest, rfl, hk, hv, hshape, hrest⟩

/-- So many operands, in the order in which they were pushed, and what lies below them. -/
theorem Shape.Holds.exists_operands {p : Program} {shape shape' : Shape} {stack : List Value}
    (h : Shape.Holds (shape ++ shape') stack) (hstack : ∀ v ∈ stack, v.Refers p) :
    ∃ args rest : List Value, stack = args.reverse ++ rest ∧ args.length = shape.length ∧
      (∀ v ∈ args, v.Refers p) ∧ shape'.Holds rest ∧ ∀ v ∈ rest, v.Refers p := by
  obtain ⟨front, rest, rfl, hlength, hshape⟩ := h.exists_append
  obtain ⟨hfront, hrest⟩ := List.forall_mem_append.1 hstack
  exact ⟨front.reverse, rest, by rw [List.reverse_reverse], by rw [List.length_reverse, hlength],
    fun v hv => hfront v (List.mem_reverse.1 hv), hshape, hrest⟩

namespace Frame

variable {p : Program} {f : Frame} {ip : Nat} {stack : List Value} {shape : Shape} {v : Value}

/-- All references in a frame are to functions of the program. -/
structure Refers (p : Program) (f : Frame) : Prop where
  stack : ∀ v ∈ f.stack, v.Refers p
  slots : ∀ slot v, slotValue f.locals slot = some v → v.Refers p

/-- The frame stands at a safe place in a shape of its operands. -/
def Ready (p : Program) (f : Frame) : Prop :=
  ∃ shape, p.Forever f.function f.ip shape ∧ shape.Holds f.stack

/-- The frame is ready once a value is pushed. -/
def Waiting (p : Program) (f : Frame) : Prop :=
  ∀ v, Ready p { f with stack := v :: f.stack }

theorem Ready.of_into (h : Program.Into (p.Forever f.function) ip shape)
    (hstack : shape.Holds stack) : Ready p { f with ip := ip, stack := stack } := by
  obtain ⟨shape', hrefines, hsafe⟩ := h
  exact ⟨shape', hsafe, hrefines stack hstack⟩

/-- A frame that is ready stands at an instruction that was checked. -/
theorem Ready.exists_instruction (h : f.Ready p) :
    ∃ i shape, p.instruction? f.function f.ip = some i ∧
      p.Leads (p.Forever f.function) f.ip shape i ∧ shape.Holds f.stack := by
  obtain ⟨shape, hsafe, hshape⟩ := h
  obtain ⟨i, hi, hleads⟩ := hsafe.checked.resolve_left id
  exact ⟨i, shape, hi, hleads, hshape⟩

theorem Waiting.of_into (h : Program.Into (p.Forever f.function) ip (.any :: shape))
    (hstack : shape.Holds stack) : Waiting p { f with ip := ip, stack := stack } := by
  intro v
  have hready : Ready p { f with ip := ip, stack := v :: stack } := .of_into h ⟨trivial, hstack⟩
  exact hready

/-- Operands may be taken away. -/
theorem Refers.of_stack (h : Refers p f) (hstack : ∀ v ∈ stack, v.Refers p) :
    Refers p { f with ip := ip, stack := stack } :=
  ⟨hstack, h.slots⟩

/-- A new frame holds nothing but the arguments. -/
theorem refers_enter {id slots : Nat} {args : List Value} (hargs : ∀ v ∈ args, v.Refers p) :
    Refers p (.enter id slots args) := by
  refine ⟨by simp [enter], fun slot v hv => ?_⟩
  cases slot with
  | zero => simp [slotValue, enter, Array.getElem?_append] at hv -- The first slot is not used.
  | succ k =>
    rw [slotValue_enter] at hv
    exact hargs v (List.mem_of_getElem? hv)

theorem Refers.setLocal {slot : Nat} (h : Refers p f) (hv : v.Refers p)
    (hstack : ∀ v ∈ stack, v.Refers p) :
    Refers p { f with
      ip := ip, stack := stack, locals := Program.setFilling none f.locals slot (some v) } := by
  refine ⟨hstack, fun slot' w hw => ?_⟩
  rw [slotValue_setFilling] at hw
  split at hw
  · exact Option.some.inj hw ▸ hv
  · exact h.slots slot' w hw

end Frame

namespace Process

/-- The frames of a process that runs a compiled script, but for the place of the
    current one. -/
structure Running (program : Program) (p : Process) (f : Frame) (rest : List Frame) : Prop where
  program_eq : p.program = program
  quiet : p.Quiet
  waiting : ∀ g ∈ rest, g.Waiting program
  refers : ∀ g ∈ f :: rest, g.Refers program

/-- What holds of every process that runs a compiled script. -/
inductive Sound (program : Program) : Process → Prop where
  | ended {p : Process} (h : p.frames = []) : Sound program p
  | running {p : Process} {f : Frame} {rest : List Frame} (h : Running program p f rest)
      (hready : f.Ready program) : Sound program (p.onFrames (f :: rest))

/-- A step keeps the invariant, or the script is to blame for its failure. -/
def Goes (program : Program) (x : Except Raised Process) : Prop :=
  (∃ q, x = .ok q ∧ Sound program q) ∨ ∃ e, x = .error (.fault e) ∧ e.isOfScript = true

section

variable {program : Program} {p : Process} {f g : Frame} {rest : List Frame} {ip : Nat}
  {stack : List Value} {shape : Shape} {k : Kind} {i : Instruction} {v : Value}
  {policy : UnboundPolicy} {handle : Handle}

/-- The current frame goes on at a safe place. -/
theorem Running.moved (h : Running program p f rest)
    (hinto : Program.Into (program.Forever f.function) ip shape)
    (hshape : shape.Holds stack) (hstack : ∀ v ∈ stack, v.Refers program) :
    Sound program (p.onFrames ({ f with ip := ip, stack := stack } :: rest)) := by
  obtain ⟨hf, hrest⟩ := List.forall_mem_cons.1 h.refers
  refine .running ⟨h.program_eq, h.quiet, h.waiting, ?_⟩ (.of_into hinto hshape)
  exact List.forall_mem_cons.2 ⟨hf.of_stack hstack, hrest⟩

/-- All references on the stack of the current frame. -/
theorem Running.refers_stack (h : Running program p f rest) : ∀ v ∈ f.stack, v.Refers program :=
  (h.refers f List.mem_cons_self).stack

/-- A value that needs no operands is pushed. -/
theorem Running.goes_push (h : Running program p f rest)
    (hi : program.instruction? f.function f.ip = some i) (hpushed : p.pushed? f i = some (.ok v))
    (hinto : Program.Into (program.Forever f.function) (f.ip + 1) (k :: shape))
    (hk : k.Holds v) (hshape : shape.Holds f.stack) (hv : v.Refers program) :
    Goes program ((p.onFrames (f :: rest)).next ⟨[], policy⟩ handle) := by
  refine .inl ⟨_, next_push h.quiet (h.program_eq ▸ hi) hpushed, ?_⟩
  exact h.moved hinto ⟨hk, hshape⟩ (List.forall_mem_cons.2 ⟨hv, h.refers_stack⟩)

/-- There is a value in a slot, or none. -/
theorem getLocal_cases (p : Process) (f : Frame) (slot : Nat) :
    (∃ v, slotValue f.locals slot = some v ∧ (p.onFrames [f]).getLocal slot = .ok v) ∨
      (p.onFrames [f]).getLocal slot = .error (.noSuchLocal slot) := by
  simp only [getLocal, onFrames_frames, slotValue]
  rcases f.locals[slot]? with _ | _ | v
  · exact .inr rfl
  · exact .inr rfl
  · exact .inl ⟨v, rfl, rfl⟩

theorem getLocal_eq (h : p.frames = f :: rest) (slot : Nat) :
    p.getLocal slot = match slotValue f.locals slot with
      | some v => .ok v
      | none => .error (.noSuchLocal slot) := by
  simp only [getLocal, h, slotValue]
  rcases f.locals[slot]? with _ | _ | v <;> rfl

/-- The value of a slot is pushed if there is one. -/
theorem Running.goes_getLocal (h : Running program p f rest)
    (hi : program.instruction? f.function f.ip = some i) (hop : i.opcode = .getLocal)
    (hinto : Program.Into (program.Forever f.function) (f.ip + 1) (.any :: shape))
    (hshape : shape.Holds f.stack) :
    Goes program ((p.onFrames (f :: rest)).next ⟨[], policy⟩ handle) := by
  have hpushed : p.pushed? f i = some ((p.onFrames [f]).getLocal i.index) := by
    simp only [pushed?, hop]
  rcases getLocal_cases p f i.index with ⟨v, hv, hget⟩ | hget
  · rw [hget] at hpushed
    exact h.goes_push hi hpushed hinto trivial hshape
      ((h.refers f List.mem_cons_self).slots i.index v hv)
  · rw [hget] at hpushed
    exact .inr ⟨_, next_push_fault (h.program_eq ▸ hi) hpushed, rfl⟩

/-- Two operands are replaced by a result. -/
theorem Running.goes_operation {op : Value → Value → Except Fault Value} {k' : Kind}
    (h : Running program p f rest) (hi : program.instruction? f.function f.ip = some i)
    (hop : i.opcode.operation? = some op)
    (hinto : Program.Into (program.Forever f.function) (f.ip + 1) (.any :: shape))
    (hshape : Shape.Holds (k :: k' :: shape) f.stack) :
    Goes program ((p.onFrames (f :: rest)).next ⟨[], policy⟩ handle) := by
  obtain ⟨right, below, hf, -, -, hshape, hbelow⟩ := hshape.exists_operand h.refers_stack
  obtain ⟨left, stack, rfl, -, -, hshape, hstack⟩ := hshape.exists_operand hbelow
  rcases Opcode.operation?_sensible hop left right with ⟨v, hv, htype⟩ | ⟨e, he, hscript⟩
  · refine .inl ⟨_, next_operation h.quiet (h.program_eq ▸ hi) hop hf hv, ?_⟩
    exact h.moved hinto ⟨trivial, hshape⟩
      (List.forall_mem_cons.2 ⟨Value.refers_of_type_ne htype, hstack⟩)
  · exact .inr ⟨e, next_operation_fault (h.program_eq ▸ hi) hop hf he, hscript⟩

theorem Running.goes_not (h : Running program p f rest)
    (hi : program.instruction? f.function f.ip = some i) (hop : i.opcode = .not)
    (hinto : Program.Into (program.Forever f.function) (f.ip + 1) (.any :: shape))
    (hshape : Shape.Holds (k :: shape) f.stack) :
    Goes program ((p.onFrames (f :: rest)).next ⟨[], policy⟩ handle) := by
  obtain ⟨v, stack, hf, -, -, hshape, hstack⟩ := hshape.exists_operand h.refers_stack
  rcases Value.not_sensible v with ⟨w, hw, htype⟩ | ⟨e, he, hscript⟩
  · refine .inl ⟨_, next_not h.quiet (h.program_eq ▸ hi) hop hf hw, ?_⟩
    exact h.moved hinto ⟨trivial, hshape⟩
      (List.forall_mem_cons.2 ⟨Value.refers_of_type_ne htype, hstack⟩)
  · exact .inr ⟨e, next_not_fault (h.program_eq ▸ hi) hop hf he, hscript⟩

theorem Running.goes_setLocal (h : Running program p f rest)
    (hi : program.instruction? f.function f.ip = some i) (hop : i.opcode = .setLocal)
    (hindex : i.index < maxLocals)
    (hinto : Program.Into (program.Forever f.function) (f.ip + 1) shape)
    (hshape : Shape.Holds (k :: shape) f.stack) :
    Goes program ((p.onFrames (f :: rest)).next ⟨[], policy⟩ handle) := by
  obtain ⟨v, stack, hf, -, hv, hshape, hstack⟩ := hshape.exists_operand h.refers_stack
  obtain ⟨hframe, hrest⟩ := List.forall_mem_cons.1 h.refers
  obtain ⟨shape', hrefines, hsafe⟩ := hinto
  refine .inl ⟨_, next_setLocal h.quiet (h.program_eq ▸ hi) hop hf hindex, ?_⟩
  refine .running ⟨h.program_eq, h.quiet, h.waiting, ?_⟩ ⟨shape', hsafe, hrefines stack hshape⟩
  exact List.forall_mem_cons.2 ⟨hframe.setLocal hv hstack, hrest⟩

theorem Running.goes_jump (h : Running program p f rest)
    (hi : program.instruction? f.function f.ip = some i) (hop : i.opcode = .jump)
    (hinto : Program.Into (program.Forever f.function) i.index shape)
    (hshape : shape.Holds f.stack) :
    Goes program ((p.onFrames (f :: rest)).next ⟨[], policy⟩ handle) :=
  .inl ⟨_, next_jump h.quiet (h.program_eq ▸ hi) hop, h.moved hinto hshape h.refers_stack⟩

theorem Running.goes_jumpUnless (h : Running program p f rest)
    (hi : program.instruction? f.function f.ip = some i) (hop : i.opcode = .jumpUnless)
    (hinto : Program.Into (program.Forever f.function) (f.ip + 1) shape)
    (hjump : Program.Into (program.Forever f.function) i.index shape)
    (hshape : Shape.Holds (k :: shape) f.stack) :
    Goes program ((p.onFrames (f :: rest)).next ⟨[], policy⟩ handle) := by
  obtain ⟨v, stack, hf, -, -, hshape, hstack⟩ := hshape.exists_operand h.refers_stack
  -- Only a truth value tells where to go on.
  by_cases hv : v.type = .boolean
  · obtain ⟨b, rfl⟩ : ∃ b, v = .boolean b := by cases v <;> simp [Value.type] at hv ⊢
    refine .inl ⟨_, next_jumpUnless h.quiet (h.program_eq ▸ hi) hop hf, h.moved ?_ hshape hstack⟩
    cases b with
    | true => exact hinto
    | false => exact hjump
  · exact .inr ⟨_, next_jumpUnless_fault (h.program_eq ▸ hi) hop hf hv, rfl⟩

/-- Calling a function: the caller waits for its value, and the function starts at a
    safe place. -/
theorem Running.goes_call {kinds : Shape} (hsound : program.Sound) (h : Running program p f rest)
    (hi : program.instruction? f.function f.ip = some i) (hop : i.opcode = .call)
    (hkinds : kinds.length = i.index)
    (hinto : Program.Into (program.Forever f.function) (f.ip + 1) (.any :: shape))
    (hshape : Shape.Holds (k :: (kinds ++ shape)) f.stack) :
    Goes program ((p.onFrames (f :: rest)).next ⟨[], policy⟩ handle) := by
  obtain ⟨v, below, hf, -, hv, hshape, hbelow⟩ := hshape.exists_operand h.refers_stack
  obtain ⟨args, stack, rfl, hargs, hargsRefer, hshape, hstack⟩ := hshape.exists_operands hbelow
  by_cases htype : v.type = .functionRef
  · obtain ⟨id, rfl⟩ : ∃ id, v = .functionRef id := by cases v <;> simp [Value.type] at htype ⊢
    obtain ⟨body, hbody, hslots⟩ := hsound.entry id hv
    by_cases hdepth : rest.length + 1 = p.maxDepth
    · -- There is no room for another frame.
      refine .inr ⟨_, next_call_enter_fault (e := .stackOverflow p.maxDepth) (h.program_eq ▸ hi) hop hf
        (hargs.trans hkinds) ?_, rfl⟩
      simp [entered, hdepth]
    · -- The caller waits below a new frame, which has no operands.
      have hcallee : (p.onFrames (f :: rest)).entered id args = .ok (.enter id body.slots args) := by
        simp [entered, hdepth, h.program_eq, hbody, Nat.not_lt.2 hslots]
      refine .inl ⟨_, next_call h.quiet (h.program_eq ▸ hi) hop hf (hargs.trans hkinds) hcallee, ?_⟩
      obtain ⟨hframe, hrest⟩ := List.forall_mem_cons.1 h.refers
      refine .running ⟨h.program_eq, h.quiet, ?_, ?_⟩ ⟨[], hsound.safe id hv, trivial⟩
      · exact List.forall_mem_cons.2 ⟨.of_into hinto hshape, h.waiting⟩
      · exact List.forall_mem_cons.2 ⟨Frame.refers_enter hargsRefer,
          List.forall_mem_cons.2 ⟨hframe.of_stack hstack, hrest⟩⟩
  · exact .inr ⟨_, next_call_fault (h.program_eq ▸ hi) hop hf htype, rfl⟩

/-- Calling a function of the host, where there is none. -/
theorem Running.goes_external {kinds : Shape} (h : Running program p f rest)
    (hi : program.instruction? f.function f.ip = some i) (hop : i.opcode = .external)
    (hkinds : kinds.length = i.index)
    (hinto : Program.Into (program.Forever f.function) (f.ip + 1) (.any :: shape))
    (hshape : Shape.Holds (.text :: (kinds ++ shape)) f.stack) :
    Goes program ((p.onFrames (f :: rest)).next ⟨[], .pushUnit⟩ handle) := by
  obtain ⟨v, below, hf, hk, -, hshape, hbelow⟩ := hshape.exists_operand h.refers_stack
  obtain ⟨args, stack, rfl, hargs, -, hshape, hstack⟩ := hshape.exists_operands hbelow
  obtain ⟨name, rfl⟩ : ∃ name, v = .string name := by
    cases v <;> simp [Kind.Holds, Value.type] at hk ⊢
  refine .inl ⟨_, next_external h.quiet (h.program_eq ▸ hi) hop hf (hargs.trans hkinds), ?_⟩
  exact h.moved hinto ⟨trivial, hshape⟩ (List.forall_mem_cons.2 ⟨trivial, hstack⟩)

/-- Returning: the frame below was waiting for the value. -/
theorem Running.goes_ret (h : Running program p f rest)
    (hi : program.instruction? f.function f.ip = some i) (hop : i.opcode = .ret)
    (hshape : Shape.Holds (k :: shape) f.stack) :
    Goes program ((p.onFrames (f :: rest)).next ⟨[], policy⟩ handle) := by
  obtain ⟨v, stack, hf, -, hv, -, -⟩ := hshape.exists_operand h.refers_stack
  refine .inl ⟨_, next_ret h.quiet (h.program_eq ▸ hi) hop hf, ?_⟩
  cases rest with
  | nil => exact .ended rfl
  | cons g rest =>
    obtain ⟨-, hg, hrest⟩ : _ ∧ g.Refers program ∧ ∀ g ∈ rest, g.Refers program := by
      simpa using h.refers
    obtain ⟨hwaiting, hwaitingRest⟩ := List.forall_mem_cons.1 h.waiting
    have hdeliver : (p.onFrames (g :: rest)).deliver v =
        p.onFrames ({ g with stack := v :: g.stack } :: rest) := rfl
    rw [hdeliver]
    refine .running ⟨h.program_eq, h.quiet, hwaitingRest, ?_⟩ (hwaiting v)
    refine List.forall_mem_cons.2 ⟨⟨?_, hg.slots⟩, hrest⟩
    exact List.forall_mem_cons.2 ⟨hv, hg.stack⟩

/-- The next instruction calls a function of the host. -/
def AtExternal (p : Process) : Prop :=
  ∃ i, p.current = .ok (some i) ∧ i.opcode = .external

/-- The next instruction is one of the function that the process is in. -/
def InBody (p : Process) : Prop :=
  ∃ f rest body, p.frames = f :: rest ∧ p.program.function? f.function = some (.compiled body) ∧
    f.ip < body.code.size

/-- An instruction whose operands were checked keeps the invariant, or the script is to
    blame. -/
theorem Running.goes_of_leads (hsound : program.Sound) (h : Running program p f rest)
    (hi : program.instruction? f.function f.ip = some i)
    (hleads : program.Leads (program.Forever f.function) f.ip shape i)
    (hshape : shape.Holds f.stack) (hexternal : policy = .pushUnit ∨ i.opcode ≠ .external) :
    Goes program ((p.onFrames (f :: rest)).next ⟨[], policy⟩ handle) := by
  cases hop : i.opcode <;> simp only [Program.Leads, hop] at hleads
  case pushInt | pushFloat | pushBool | pushUnit =>
    obtain ⟨v, hpushed, hv⟩ : ∃ v, p.pushed? f i = some (.ok v) ∧ v.Refers program := by
      simp only [pushed?, hop]
      exact ⟨_, rfl, trivial⟩
    exact h.goes_push hi hpushed hleads trivial hshape hv
  case pushFunction =>
    obtain ⟨hindex, hinto⟩ := hleads
    have hpushed : p.pushed? f i = some (.ok (.functionRef i.index)) := by simp only [pushed?, hop]
    exact h.goes_push hi hpushed hinto trivial hshape hindex
  case pushString =>
    obtain ⟨hindex, hinto⟩ := hleads
    have hpushed : p.pushed? f i = some (.ok (.string program.strings[i.index])) := by
      simp only [pushed?, hop, string, Program.string?, h.program_eq,
        Array.getElem?_eq_getElem hindex]
      rfl
    exact h.goes_push hi hpushed hinto rfl hshape trivial
  case getLocal => exact h.goes_getLocal hi hop hleads hshape
  case add | sub | mul | div | and | or | gt | lt | gte | lte | eq =>
    obtain ⟨k, k', below, rfl, hinto⟩ := hleads
    exact h.goes_operation hi (by rw [hop]; rfl) hinto hshape
  case not =>
    obtain ⟨k, below, rfl, hinto⟩ := hleads
    exact h.goes_not hi hop hinto hshape
  case setLocal =>
    obtain ⟨hindex, k, below, rfl, hinto⟩ := hleads
    exact h.goes_setLocal hi hop hindex hinto hshape
  case jump => exact h.goes_jump hi hop hleads hshape
  case jumpUnless =>
    obtain ⟨k, below, rfl, hinto, hjump⟩ := hleads
    exact h.goes_jumpUnless hi hop hinto hjump hshape
  case call =>
    obtain ⟨k, kinds, below, rfl, hkinds, hinto⟩ := hleads
    exact h.goes_call hsound hi hop hkinds hinto hshape
  case external =>
    obtain ⟨kinds, below, rfl, hkinds, hinto⟩ := hleads
    obtain rfl := hexternal.resolve_right fun hne => hne hop
    exact h.goes_external hi hop hkinds hinto hshape
  case ret =>
    obtain ⟨k, below, rfl⟩ := hleads
    exact h.goes_ret hi hop hshape

/-- A step of a process with a frame keeps the invariant, or the script is to blame. -/
theorem Sound.goes_on (hsound : program.Sound) (h : Sound program p) (hne : p.frames ≠ [])
    (hexternal : policy = .pushUnit ∨ ¬p.AtExternal) :
    Goes program (p.next ⟨[], policy⟩ handle) := by
  cases h with
  | ended hnil => exact absurd hnil hne
  | @running p f rest h hready =>
    obtain ⟨i, shape, hi, hleads, hshape⟩ := hready.exists_instruction
    refine h.goes_of_leads hsound hi hleads hshape (hexternal.imp_right fun hno hop => hno ?_)
    exact ⟨i, current_onFrames (h.program_eq ▸ hi), hop⟩

theorem Sound.inBody (h : Sound program p) (hne : p.frames ≠ []) : p.InBody := by
  cases h with
  | ended hnil => exact absurd hnil hne
  | @running p f rest h hready =>
    obtain ⟨i, -, hi, -⟩ := hready.exists_instruction
    rw [Program.instruction?] at hi
    split at hi
    · next body hbody =>
      obtain ⟨hlt, -⟩ := Array.getElem?_eq_some_iff.1 hi
      exact ⟨f, rest, body, rfl, by rw [onFrames_program, h.program_eq, hbody], hlt⟩
    · simp at hi

/-- A run keeps the invariant. -/
theorem Sound.steps {q : Process} {n : Nat} (hsound : program.Sound) (h : Sound program p)
    (hsteps : Steps ⟨[], policy⟩ handle n p q)
    (hexternal : policy = .pushUnit ∨
      ∀ m r, m < n → Steps ⟨[], policy⟩ handle m p r → ¬r.AtExternal) :
    Sound program q := by
  induction hsteps with
  | refl p => exact h
  | @step n p q r hnext hsteps ih =>
    have hne : p.frames ≠ [] := fun hnil => by simp [next_of_frames_eq_nil hnil] at hnext
    -- What is assumed of the steps of the run holds of the first one and of the others.
    have hfirst : policy = .pushUnit ∨ ¬p.AtExternal :=
      hexternal.imp_right fun hno => hno 0 p (Nat.succ_pos n) (.refl p)
    rcases h.goes_on hsound hne hfirst with ⟨q', hq', hq⟩ | ⟨e, he, -⟩
    · rw [hnext, Except.ok.injEq] at hq'
      refine ih (hq' ▸ hq) (hexternal.imp_right fun hno m r' hm hr' => ?_)
      exact hno (m + 1) r' (Nat.succ_lt_succ hm) (.step hnext hr')
    · simp [hnext] at he

end

end Process

namespace Script

open Process

variable {s : Script} {program : Program} {id : Nat}

/-- The program that a script is compiled to is sound, if its numbers fit. -/
theorem Compiled.sound (hs : s.Compiled program) (hfits : program.Fits) : program.Sound := by
  refine ⟨fun id hid => ?_, fun id hid => hs.safe hfits hid⟩
  rw [hs.size] at hid
  obtain ⟨code, -, -, hbody⟩ := hs.code id _ (List.getElem?_eq_getElem hid)
  exact ⟨_, hbody, (hfits.bodies id _ hbody).2⟩

/-- A process that enters a function of a compiled script fails to do so only if no frame
    may be entered at all. From then on, while it has a frame, its next instruction is
    one of the function that it is in, and if that instruction fails then the script is
    to blame. This holds after any number of steps of which none called a function of the
    host, and after any number of steps at all if the host has no functions and pushes
    unit values. -/
theorem compiled_safe (hs : s.compile = .ok program) (hfits : program.Fits)
    (hid : id < s.functions.length) (args : List Value) (hargs : ∀ v ∈ args, v.Refers program)
    (policy : UnboundPolicy) (handle : Handle) (maxDepth : Nat) :
    (∀ e, (Process.new program maxDepth).enter id args = .error e → e = .stackOverflow maxDepth) ∧
    ∀ p, (Process.new program maxDepth).enter id args = .ok p →
      ∀ n q, Steps ⟨[], policy⟩ handle n p q →
        (policy = .pushUnit ∨
          ∀ m r, m < n → Steps ⟨[], policy⟩ handle m p r → ¬r.AtExternal) →
        q.frames ≠ [] →
        q.InBody ∧
          ((policy = .pushUnit ∨ ¬q.AtExternal) →
            ∀ raised, q.next ⟨[], policy⟩ handle = .error raised →
              ∃ e, raised = .fault e ∧ e.isOfScript = true) := by
  have hcompiled := compiled_of_compile hs
  have hsound := hcompiled.sound hfits
  rw [← hcompiled.size] at hid
  obtain ⟨body, hbody, hslots⟩ := hsound.entry id hid
  have hentered : (Process.new program maxDepth).entered id args =
      if maxDepth = 0 then .error (.stackOverflow maxDepth) else .ok (.enter id body.slots args) := by
    simp [entered, Process.new, hbody, Nat.not_lt.2 hslots, eq_comm]
  rw [enter_eq, hentered]
  -- Without any depth, not even the first frame can be entered.
  by_cases hdepth : maxDepth = 0
  · rw [if_pos hdepth]
    refine ⟨fun e he => (Except.error.inj he).symm, fun p hp => ?_⟩
    simp [Except.map] at hp
  · rw [if_neg hdepth]
    refine ⟨fun e he => by simp [Except.map] at he, fun p hp n q hsteps hexternal hne => ?_⟩
    have hstart : Sound program p := by
      obtain rfl := Except.ok.inj hp
      refine .running ⟨rfl, ⟨rfl, rfl⟩, fun _ hg => absurd hg List.not_mem_nil, ?_⟩
        ⟨[], hsound.safe id hid, trivial⟩
      exact List.forall_mem_singleton.2 (Frame.refers_enter hargs)
    have hq := hstart.steps hsound hsteps hexternal
    refine ⟨hq.inBody hne, fun hlast raised hraised => ?_⟩
    have hgoes : Goes program (q.next ⟨[], policy⟩ handle) := hq.goes_on hsound hne hlast
    rw [hraised] at hgoes
    rcases hgoes with ⟨q', hq', -⟩ | ⟨e, he, hscript⟩
    · simp at hq'
    · exact ⟨e, Except.error.inj he, hscript⟩

/-- A script that calls a function of the host and then divides by zero. -/
def quotient : Script where
  functions := [
    { name := "main", params := ["x"],
      body := [
        .call .external "log" [.ident "x"],
        .give (some (.binary .divide (.literal (.int 1)) (.literal (.int 0))))] }]

/-- What that script is compiled to. -/
def quotientProgram : Program where
  strings := #["log"]
  functions := #[
    .compiled (.ofCode #[.ofNat .getLocal 1, .ofNat .pushString 0, .ofNat .external 1,
      .ofInt .pushInt 1, .ofInt .pushInt 0, .bare .div, .bare .ret])]
  names := [("main", 0)]

theorem quotient_compile : quotient.compile = .ok quotientProgram := by
  have h : quotient.compile.toOption = some quotientProgram := by decide +kernel
  cases hcompile : quotient.compile with
  | error e => simp [hcompile, Except.toOption] at h
  | ok p => simpa [hcompile, Except.toOption] using h

theorem quotientProgram_fits : quotientProgram.Fits := by
  refine ⟨by decide, by decide, fun id body h => ?_⟩
  rcases id with _ | id
  · obtain rfl := FunctionEntry.compiled.inj (Option.some.inj h)
    decide
  · simp [quotientProgram] at h

/-- The process that enters the function of that script with itself as the argument. -/
def quotientProcess : Process :=
  (Process.new quotientProgram 256).onFrames [.enter 0 2 [.functionRef 0]]

theorem compiled_safe_quotient :
    (Process.new quotientProgram 256).enter 0 [.functionRef 0] = .ok quotientProcess ∧
      ∃ q, Steps ⟨[], .pushUnit⟩ ⟨0⟩ 5 quotientProcess q ∧ q.InBody ∧
        ∃ e, q.next ⟨[], .pushUnit⟩ ⟨0⟩ = .error (.fault e) ∧ e.isOfScript = true := by
  obtain ⟨q, hsteps, hne, hfault⟩ : ∃ q, Steps ⟨[], .pushUnit⟩ ⟨0⟩ 5 quotientProcess q ∧
      q.frames ≠ [] ∧ q.next ⟨[], .pushUnit⟩ ⟨0⟩ = .error (.fault .divisionByZero) :=
    ⟨_, .step rfl (.step rfl (.step rfl (.step rfl (.step rfl (.refl _))))), List.cons_ne_nil _ _,
      rfl⟩
  have hid : 0 < quotient.functions.length := by decide
  obtain ⟨hbody, hscript⟩ := (compiled_safe quotient_compile quotientProgram_fits hid
    [.functionRef 0] (by simp [Value.Refers, quotientProgram]) .pushUnit ⟨0⟩ 256).2 quotientProcess
    rfl 5 q hsteps (.inl rfl) hne
  obtain ⟨e, he, hblame⟩ := hscript (.inl rfl) _ hfault
  exact ⟨rfl, q, hsteps, hbody, e, he ▸ hfault, hblame⟩

end Script

end ScriptMachine
