import ScriptMachine.Proofs.Stepping

/-!
# What the current frame does

Unless an instruction calls a function of the host, what it does is a matter of the current
frame: of its operands and of its slots. The frames below matter only in their number, which
decides whether another function can be entered. This module says so by an equation: what a
frame does is computed from the frame (`Process.deed`), and a step of the process carries it
out above the frames that are there (`Process.next_eq_deed`).

Thus two processes whose current frames are the same take the same step, whatever lies below
(`Process.deed_congr`). The same holds if further operands lie below those that an instruction
of an expression takes, and if slots differ that it does not read (`Process.uniform_of_takes`).

* `Process.does_deed`: what a deed can be, with regard to places and slots.
-/

namespace ScriptMachine

/-- What the current frame does. -/
inductive Deed where
  | fail (e : Fault)
  /-- The frame is replaced. -/
  | go (f : Frame)
  /-- The frame is replaced, and that of another function comes to lie above it. -/
  | call (callee f : Frame)
  /-- The frame is left, and gives a value to the one below. -/
  | give (v : Value)

/-- The frame goes on behind its instruction. -/
def Frame.onward (f : Frame) (stack : List Value) : Frame :=
  { f with ip := f.ip + 1, stack := stack }

namespace Deed

/-- The frame goes on with a further operand, unless there is a fault. -/
def ofResult (f : Frame) (stack : List Value) : Except Fault Value → Deed
  | .ok v => .go (f.onward (v :: stack))
  | .error e => .fail e

/-- The process after a deed of the frame above `rest`. -/
def apply (p : Process) (rest : List Frame) : Deed → Except Raised Process
  | .fail e => .error (.fault e)
  | .go f => .ok (p.onFrames (f :: rest))
  | .call callee f => .ok (p.onFrames (callee :: f :: rest))
  | .give v => .ok ((p.onFrames rest).deliver v)

end Deed

namespace Process

variable {p : Process} {f : Frame} {rest rest' : List Frame} {i : Instruction} {v w : Value}
  {stack : List Value} {host : Host Unit} {handle : Handle}

/-- The deed of a frame at a call, once the called value is taken from the operands. -/
def callDeed (p : Process) (rest : List Frame) (f : Frame) (n : Nat) (stack : List Value) :
    Value → Deed
  | .functionRef id =>
    if stack.length < n then .fail .stackUnderflow
    else
      match (p.onFrames (f :: rest)).entered id (stack.take n).reverse with
      | .ok callee => .call callee (f.onward (stack.drop n))
      | .error e => .fail e
  | v => .fail (.unexpectedType .call .functionRef v.type)

/-- The deed of a frame at a conditional jump, once the condition is taken from the operands. -/
def branchDeed (f : Frame) (i : Instruction) (stack : List Value) (expected : Bool) : Value → Deed
  | .boolean b => .go { f with ip := if b = expected then i.index else f.ip + 1, stack := stack }
  | v => .fail (.unexpectedType i.opcode .boolean v.type)

/-- The deed of a frame, at an instruction that takes one operand before all else. -/
def operandDeed (p : Process) (rest : List Frame) (f : Frame) (i : Instruction)
    (stack : List Value) (v : Value) : Deed :=
  match i.opcode with
  | .not => .ofResult f stack v.not
  | .jumpIf => branchDeed f i stack true v
  | .jumpUnless => branchDeed f i stack false v
  | .call => p.callDeed rest f i.index stack v
  | .setLocal =>
    if maxLocals ≤ i.index then .fail (.localOutOfRange i.index maxLocals)
    else
      .go { f.onward stack with
        locals := Program.setFilling none f.locals i.index (some v) }
  | .ret => .give v
  | _ => .fail .stackUnderflow

/-- The deed of a frame at an operation on two values. -/
def operationDeed (f : Frame) (op : Value → Value → Except Fault Value) : Deed :=
  match f.stack with
  | right :: left :: stack => .ofResult f stack (op left right)
  | _ => .fail .stackUnderflow

/-- The deed of a frame at the other instructions. -/
def otherDeed (p : Process) (rest : List Frame) (f : Frame) (i : Instruction) : Deed :=
  match i.opcode with
  | .nop => .go (f.onward f.stack)
  | .jump => .go { f with ip := i.index }
  | .invalid => .fail (.invalidOpcode i.opcode.code.toNat)
  | _ =>
    match f.stack with
    | [] => .fail .stackUnderflow
    | v :: stack => p.operandDeed rest f i stack v

/-- What the frame above `rest` does at an instruction, unless that is a call of a function of the
    host. -/
def deed (p : Process) (rest : List Frame) (f : Frame) (i : Instruction) : Deed :=
  match p.pushed? f i with
  | some x => .ofResult f f.stack x
  | none =>
    match i.opcode.operation? with
    | some op => operationDeed f op
    | none => p.otherDeed rest f i

/-! ## Steps are deeds -/

theorem next_ofResult (hp : p.Quiet) (hi : p.program.instruction? f.function f.ip = some i)
    {x : Except Fault Value}
    (h : (p.onFrames (f :: rest)).execute i =
      (p.onFrames ({ f with stack := stack } :: rest)).pushResult x) :
    (p.onFrames (f :: rest)).next host handle = (Deed.ofResult f stack x).apply p rest := by
  cases x with
  | error e => exact next_of_fault hi h
  | ok v => exact next_of_execute (g := { f with stack := v :: stack }) hp hi h

/-- Without an operand an instruction that takes one fails. -/
theorem next_of_underflow (hi : p.program.instruction? f.function f.ip = some i)
    {next : Value → Process → Executed} (hf : f.stack = [])
    (h : (p.onFrames (f :: rest)).execute i = (p.onFrames (f :: rest)).withOperand next) :
    (p.onFrames (f :: rest)).next host handle = .error (.fault .stackUnderflow) := by
  refine next_of_fault (q := p.onFrames (f :: rest)) hi ?_
  rw [h, withOperand, pop, onFrames_frames]
  simp only [hf]

theorem next_operationDeed (hp : p.Quiet) (hi : p.program.instruction? f.function f.ip = some i)
    {op : Value → Value → Except Fault Value} (hop : i.opcode.operation? = some op) :
    (p.onFrames (f :: rest)).next host handle = (operationDeed f op).apply p rest := by
  have hexecute := execute_operation (p := p.onFrames (f :: rest)) hop
  unfold operationDeed
  split
  · next right left stack hf =>
    refine next_ofResult hp hi (hexecute.trans ?_)
    simp [binary, withOperand, pop, hf, onFrames]
  · next hf =>
    cases hstack : f.stack with
    | nil => exact next_of_underflow hi hstack hexecute
    | cons right stack =>
      cases stack with
      | nil =>
        refine next_of_fault (q := p.onFrames ({ f with stack := [] } :: rest)) hi ?_
        rw [hexecute]
        simp [binary, withOperand, pop, hstack, onFrames]
      | cons left stack => exact absurd hstack (hf right left stack)

theorem next_branchDeed (hp : p.Quiet) (hi : p.program.instruction? f.function f.ip = some i)
    {expected : Bool} (hf : f.stack = v :: stack)
    (h : (p.onFrames (f :: rest)).execute i = (p.onFrames (f :: rest)).branch i expected) :
    (p.onFrames (f :: rest)).next host handle =
      (branchDeed f i stack expected v).apply p rest := by
  unfold branchDeed
  split
  · next b =>
    by_cases hb : b = expected
    · rw [if_pos hb]
      refine next_of_jump (g := { f with stack := stack }) hp hi (h.trans ?_)
      simp [branch, withOperand, pop, hf, hb, onFrames]
    · rw [if_neg hb]
      refine next_of_execute (g := { f with stack := stack }) hp hi (h.trans ?_)
      simp [branch, withOperand, pop, hf, hb, onFrames]
  · next hv =>
    refine next_of_fault (q := p.onFrames ({ f with stack := stack } :: rest)) hi (h.trans ?_)
    cases v with
    | boolean b => exact absurd rfl (hv b)
    | _ => simp [branch, withOperand, pop, hf, onFrames]

/-- The last operands are the arguments of a call, in the order in which they were pushed. -/
theorem calls_of_stack {id : Nat} (hi : p.program.instruction? f.function f.ip = some i)
    (hop : i.opcode = .call) (hf : f.stack = .functionRef id :: stack)
    (hlength : ¬stack.length < i.index) :
    f.Calls p.program id (stack.take i.index).reverse (stack.drop i.index) ∧
      (stack.take i.index).reverse.length = i.index := by
  have hargs : (stack.take i.index).reverse.length = i.index := by
    rw [List.length_reverse, List.length_take]
    omega
  refine ⟨⟨⟨i, hi, hop, hargs⟩, ?_⟩, hargs⟩
  rw [hf, List.reverse_reverse, List.take_append_drop]

theorem next_callDeed (hp : p.Quiet) (hi : p.program.instruction? f.function f.ip = some i)
    (hop : i.opcode = .call) (hf : f.stack = v :: stack) :
    (p.onFrames (f :: rest)).next host handle =
      (p.callDeed rest f i.index stack v).apply p rest := by
  unfold callDeed
  split
  · next id =>
    split
    · next hlength =>
      refine next_of_fault (q := p.onFrames ({ f with stack := stack } :: rest)) hi ?_
      simp [execute, hop, withOperand, pop, hf, withOperands, popN, hlength, onFrames]
    · next hlength =>
      obtain ⟨hcalls, hargs⟩ := calls_of_stack hi hop hf hlength
      split
      · next callee hcallee => exact next_call hp hi hop hcalls.operands hargs hcallee
      · next e he => exact next_call_enter_fault hi hop hcalls.operands hargs he
  · next hv =>
    refine next_call_fault hi hop hf fun htype => ?_
    cases v with
    | functionRef id => exact hv id rfl
    | _ => cases htype

theorem next_operandDeed (hp : p.Quiet) (hi : p.program.instruction? f.function f.ip = some i)
    (hop : i.opcode ∈ [.not, .jumpIf, .jumpUnless, .call, .setLocal, .ret])
    (hf : f.stack = v :: stack) :
    (p.onFrames (f :: rest)).next host handle =
      (p.operandDeed rest f i stack v).apply p rest := by
  simp only [List.mem_cons, List.not_mem_nil, or_false] at hop
  rcases hop with hop | hop | hop | hop | hop | hop <;> simp only [operandDeed, hop]
  · refine next_ofResult hp hi ?_
    simp [execute, hop, withOperand, pop, hf, onFrames]
  · exact next_branchDeed hp hi hf (by simp [execute, hop])
  · exact next_branchDeed hp hi hf (by simp [execute, hop])
  · exact next_callDeed hp hi hop hf
  · split
    · next hslot =>
      refine next_of_fault (q := p.onFrames ({ f with stack := stack } :: rest)) hi ?_
      simp [execute, hop, withOperand, pop, hf, finish, setLocal, hslot, onFrames]
    · next hslot => exact next_setLocal hp hi hop hf (Nat.lt_of_not_le hslot)
  · exact next_ret hp hi hop hf

theorem next_otherDeed (hp : p.Quiet) (hi : p.program.instruction? f.function f.ip = some i)
    (hpushed : p.pushed? f i = none) (hoperation : i.opcode.operation? = none)
    (hop : i.opcode ≠ .external) :
    (p.onFrames (f :: rest)).next host handle = (p.otherDeed rest f i).apply p rest := by
  have hoperand (next : Value → Process → Executed)
      (hexecute : (p.onFrames (f :: rest)).execute i = (p.onFrames (f :: rest)).withOperand next)
      (hmem : i.opcode ∈ [.not, .jumpIf, .jumpUnless, .call, .setLocal, .ret]) :
      (p.onFrames (f :: rest)).next host handle = (match f.stack with
        | [] => Deed.fail .stackUnderflow
        | v :: stack => p.operandDeed rest f i stack v).apply p rest := by
    split
    · next hf => exact next_of_underflow hi hf hexecute
    · next v stack hf => exact next_operandDeed hp hi hmem hf
  unfold otherDeed
  cases hcode : i.opcode with
  | pushInt | pushFloat | pushString | pushBool | pushFunction | pushUnit | getLocal =>
    simp [pushed?, hcode] at hpushed
  | add | sub | mul | div | and | or | gt | lt | gte | lte | eq =>
    simp [hcode, Opcode.operation?] at hoperation
  | external => exact absurd hcode hop
  | nop => exact next_of_execute hp hi (by simp [execute, hcode])
  | jump => exact next_jump hp hi hcode
  | invalid => exact next_of_fault (q := p.onFrames (f :: rest)) hi (by simp only [execute, hcode])
  | not | jumpIf | jumpUnless | call | setLocal | ret =>
    rw [hcode] at hoperand
    exact hoperand _ (by simp only [execute, hcode, branch]; rfl) (by simp)

/-- A step carries out what the current frame does. -/
theorem next_eq_deed (hp : p.Quiet) (hi : p.program.instruction? f.function f.ip = some i)
    (hop : i.opcode ≠ .external) :
    (p.onFrames (f :: rest)).next host handle = (p.deed rest f i).apply p rest := by
  unfold deed
  split
  · next x hx => exact next_ofResult hp hi (execute_pushed hx)
  · next hpushed =>
    split
    · next op hoperation => exact next_operationDeed hp hi hoperation
    · next hoperation => exact next_otherDeed hp hi hpushed hoperation hop

/-! ## What deeds can be -/

/-- What a deed can be, with regard to places, slots and called functions. -/
inductive Does (p : Process) (rest : List Frame) (f : Frame) (i : Instruction) : Deed → Prop where
  | fail (e : Fault) : Does p rest f i (.fail e)
  | go {f' : Frame} (hfunction : f'.function = f.function)
      (hreaches : Program.Reaches i f.ip f'.ip)
      (hlocals : f'.locals = f.locals ∨ i.opcode = .setLocal ∧
        ∃ v, f'.locals = Program.setFilling none f.locals i.index (some v)) :
      Does p rest f i (.go f')
  | call {id : Nat} {args : List Value} {callee f' : Frame}
      (hcallee : (p.onFrames (f :: rest)).entered id args = .ok callee)
      (hfunction : f'.function = f.function) (hreaches : Program.Reaches i f.ip f'.ip)
      (hlocals : f'.locals = f.locals) : Does p rest f i (.call callee f')
  | give (hop : i.opcode = .ret) (v : Value) : Does p rest f i (.give v)

theorem does_onward (hret : i.opcode ≠ .ret) (hjump : i.opcode ≠ .jump) :
    Does p rest f i (.go (f.onward stack)) :=
  .go rfl (.inl ⟨hret, hjump, rfl⟩) (.inl rfl)

theorem does_ofResult (hret : i.opcode ≠ .ret) (hjump : i.opcode ≠ .jump)
    (x : Except Fault Value) : Does p rest f i (.ofResult f stack x) := by
  cases x with
  | error e => exact .fail e
  | ok v => exact does_onward hret hjump

theorem does_branchDeed {expected : Bool} (hret : i.opcode ≠ .ret) (hjump : i.opcode ≠ .jump)
    (hop : i.opcode.isJump = true) : Does p rest f i (branchDeed f i stack expected v) := by
  unfold branchDeed
  split
  · refine .go rfl ?_ (.inl rfl)
    dsimp only
    split
    · exact .inr ⟨hop, rfl⟩
    · exact .inl ⟨hret, hjump, rfl⟩
  · exact .fail _

theorem does_callDeed (hop : i.opcode = .call) :
    Does p rest f i (p.callDeed rest f i.index stack v) := by
  unfold callDeed
  split
  · split
    · exact .fail _
    · split
      · next callee hcallee =>
        exact .call hcallee rfl (.inl ⟨by simp [hop], by simp [hop], rfl⟩) rfl
      · exact .fail _
  · exact .fail _

theorem does_operandDeed : Does p rest f i (p.operandDeed rest f i stack v) := by
  unfold operandDeed
  split
  · next hop => exact does_ofResult (by simp [hop]) (by simp [hop]) _
  · next hop => exact does_branchDeed (by simp [hop]) (by simp [hop]) (by rw [hop]; rfl)
  · next hop => exact does_branchDeed (by simp [hop]) (by simp [hop]) (by rw [hop]; rfl)
  · next hop => exact does_callDeed hop
  · next hop =>
    split
    · exact .fail _
    · exact .go rfl (.inl ⟨by simp [hop], by simp [hop], rfl⟩) (.inr ⟨hop, v, rfl⟩)
  · next hop => exact .give hop v
  · exact .fail _

theorem does_deed : Does p rest f i (p.deed rest f i) := by
  unfold deed
  split
  · next x hx =>
    refine does_ofResult ?_ ?_ x
    · intro hop
      simp [pushed?, hop] at hx
    · intro hop
      simp [pushed?, hop] at hx
  · split
    · next op hoperation =>
      unfold operationDeed
      split
      · refine does_ofResult ?_ ?_ _
        · intro hop
          simp [hop, Opcode.operation?] at hoperation
        · intro hop
          simp [hop, Opcode.operation?] at hoperation
      · exact .fail _
    · unfold otherDeed
      split
      · next hop => exact does_onward (by simp [hop]) (by simp [hop])
      · next hop => exact .go rfl (.inr ⟨by rw [hop]; rfl, rfl⟩) (.inl rfl)
      · exact .fail _
      · split
        · exact .fail _
        · exact does_operandDeed

/-! ## Deeds of frames that are alike -/

/-- Of the frames below, only the number matters. -/
theorem deed_congr (h : rest.length = rest'.length) : p.deed rest f i = p.deed rest' f i := by
  have hentered (id : Nat) (args : List Value) :
      (p.onFrames (f :: rest)).entered id args = (p.onFrames (f :: rest')).entered id args :=
    entered_onFrames (by rw [List.length_cons, List.length_cons, h]) id args
  simp only [deed, otherDeed, operandDeed, callDeed, hentered]

end Process

/-- The number of operands that an instruction of an expression takes; it gives one back. -/
def Instruction.takes? (i : Instruction) : Option Nat :=
  match i.opcode with
  | .pushInt | .pushFloat | .pushString | .pushBool | .pushFunction | .pushUnit | .getLocal =>
    some 0
  | .not => some 1
  | .call | .external => some (i.index + 1)
  | op => op.operation?.map fun _ => 2

namespace Frame

/-- The frame with other slots, and with further operands below its own. -/
def rebase (f : Frame) (stack : List Value) (locals : Array (Option Value)) : Frame :=
  { f with stack := f.stack ++ stack, locals := locals }

/-- The slots are as good for the instruction as those of the frame. -/
def Suits (f : Frame) (i : Instruction) (locals : Array (Option Value)) : Prop :=
  i.opcode = .getLocal → slotValue locals i.index = slotValue f.locals i.index

end Frame

namespace Process

variable {p : Process} {f : Frame} {rest : List Frame} {i : Instruction} {n : Nat}

/-- What a frame does at an instruction of an expression, whatever lies below its operands and
    whatever is in the slots that the instruction does not read. -/
inductive Uniform (p : Process) (rest : List Frame) (f : Frame) (i : Instruction) (n : Nat) :
    Prop where
  | fail (e : Fault)
      (h : ∀ stack locals, f.Suits i locals → p.deed rest (f.rebase stack locals) i = .fail e)
  | push (v : Value)
      (h : ∀ stack locals, f.Suits i locals → p.deed rest (f.rebase stack locals) i =
        .go ((f.onward (v :: f.stack.drop n)).rebase stack locals))
  | call {id : Nat} {args : List Value} {callee : Frame}
      (hcallee : (p.onFrames (f :: rest)).entered id args = .ok callee)
      (h : ∀ stack locals, f.Suits i locals → p.deed rest (f.rebase stack locals) i =
        .call callee ((f.onward (f.stack.drop n)).rebase stack locals))

/-- A result is pushed above all operands but those that were taken. -/
theorem uniform_ofResult {x : Except Fault Value}
    (h : ∀ stack locals, f.Suits i locals → p.deed rest (f.rebase stack locals) i =
      .ofResult (f.rebase stack locals) (f.stack.drop n ++ stack) x) : p.Uniform rest f i n := by
  cases x with
  | error e => exact .fail e h
  | ok v => exact .push v h

theorem uniform_pushed {x : Except Fault Value} (hx : p.pushed? f i = some x) :
    p.Uniform rest f i 0 := by
  refine uniform_ofResult (x := x) fun stack locals hsuits => ?_
  have hpushed : p.pushed? (f.rebase stack locals) i = some x := by
    rw [← hx]
    by_cases hop : i.opcode = .getLocal
    · have hget (f : Frame) : (p.onFrames [f]).getLocal i.index = _ := getLocal_eq rfl i.index
      simp only [pushed?, hop, hget, Frame.rebase, hsuits hop]
    · unfold pushed?
      split <;> first | rfl | contradiction
  simp only [deed, hpushed]
  rfl

theorem uniform_operation {op : Value → Value → Except Fault Value}
    (hpushed : ∀ f, p.pushed? f i = none) (hop : i.opcode.operation? = some op)
    (hn : 2 ≤ f.stack.length) : p.Uniform rest f i 2 := by
  obtain ⟨right, left, operands, hf⟩ : ∃ right left operands,
      f.stack = right :: left :: operands := by
    match hstack : f.stack with
    | [] | [_] => simp [hstack] at hn
    | right :: left :: operands => exact ⟨right, left, operands, rfl⟩
  refine uniform_ofResult (x := op left right) fun stack locals hsuits => ?_
  simp only [deed, hpushed, hop, operationDeed, Frame.rebase, hf, List.cons_append,
    List.drop_succ_cons, List.drop_zero]

theorem uniform_not (hop : i.opcode = .not) (hn : 1 ≤ f.stack.length) : p.Uniform rest f i 1 := by
  obtain ⟨v, operands, hf⟩ := List.exists_cons_of_length_pos hn
  refine uniform_ofResult (x := v.not) fun stack locals hsuits => ?_
  simp only [deed, pushed?, hop, Opcode.operation?, otherDeed, operandDeed, Frame.rebase, hf,
    List.cons_append, List.drop_succ_cons, List.drop_zero]

theorem uniform_call (hop : i.opcode = .call) (hn : i.index + 1 ≤ f.stack.length) :
    p.Uniform rest f i (i.index + 1) := by
  have hpos : 0 < f.stack.length := Nat.lt_of_lt_of_le (Nat.succ_pos _) hn
  obtain ⟨v, operands, hf⟩ := List.exists_cons_of_length_pos hpos
  have hlength : i.index ≤ operands.length := by simpa [hf] using hn
  have hdeed (stack : List Value) (locals : Array (Option Value)) :
      p.deed rest (f.rebase stack locals) i =
        p.callDeed rest (f.rebase stack locals) i.index (operands ++ stack) v := by
    simp only [deed, pushed?, hop, Opcode.operation?, otherDeed, operandDeed, Frame.rebase, hf,
      List.cons_append]
  cases v with
  | functionRef id =>
    have hentered (stack : List Value) (locals : Array (Option Value)) (args : List Value) :
        (p.onFrames (f.rebase stack locals :: rest)).entered id args =
          (p.onFrames (f :: rest)).entered id args := entered_onFrames rfl id args
    have hshort (stack : List Value) : ¬(operands ++ stack).length < i.index := by
      rw [List.length_append]
      omega
    have hcall (stack : List Value) (locals : Array (Option Value)) :
        p.deed rest (f.rebase stack locals) i =
          match (p.onFrames (f :: rest)).entered id (operands.take i.index).reverse with
          | .ok callee =>
            .call callee ((f.onward (f.stack.drop (i.index + 1))).rebase stack locals)
          | .error e => .fail e := by
      simp only [hdeed, callDeed, if_neg (hshort stack), hentered, hf, List.drop_succ_cons,
        List.take_append_of_le_length hlength, List.drop_append_of_le_length hlength]
      rfl
    cases hcallee : (p.onFrames (f :: rest)).entered id (operands.take i.index).reverse with
    | ok callee => exact .call hcallee fun stack locals _ => by rw [hcall, hcallee]
    | error e => exact .fail e fun stack locals _ => by rw [hcall, hcallee]
  | _ => exact .fail _ fun stack locals _ => hdeed stack locals

/-- An instruction of an expression that finds its operands does the same in all such frames. -/
theorem uniform_of_takes (h : i.takes? = some n) (hn : n ≤ f.stack.length)
    (hinternal : i.opcode ≠ .external) : p.Uniform rest f i n := by
  cases hop : i.opcode with
  | pushInt | pushFloat | pushString | pushBool | pushFunction | pushUnit | getLocal =>
    obtain rfl : 0 = n := by simpa [Instruction.takes?, hop] using h
    exact uniform_pushed (by rw [pushed?, hop])
  | add | sub | mul | div | and | or | gt | lt | gte | lte | eq =>
    obtain rfl : 2 = n := by simpa [Instruction.takes?, hop, Opcode.operation?] using h
    exact uniform_operation (fun f => by rw [pushed?, hop]) (by rw [hop]; rfl) hn
  | not =>
    obtain rfl : 1 = n := by simpa [Instruction.takes?, hop] using h
    exact uniform_not hop hn
  | call =>
    obtain rfl : i.index + 1 = n := by simpa [Instruction.takes?, hop] using h
    exact uniform_call hop hn
  | external => exact absurd hop hinternal
  | nop | jumpIf | jumpUnless | jump | ret | setLocal | invalid =>
    simp [Instruction.takes?, hop, Opcode.operation?] at h

end Process

end ScriptMachine
