import ScriptMachine.Proofs.Safety

/-!
# What a step can do

A process may execute any code, also such that no compiler would write. Under a host
without functions a step then does one of a few things to the frames: the current frame
goes on, sets one of its slots, calls a function, or is left; or the step fails, with some
operands of the current frame gone. All other frames stay as they are, but for the value
that is returned to the one below.

`Process.Stepped` lists these cases, and `Process.stepped` says that there are no others.
It asks for two things: that nothing waits in the process (`Process.Quiet`), and that the
function of the current frame has a body. Of the faults it separates those that would mean
that the frames are not in order (`Fault.isOfLayout`): a step has them only from setting a
slot that is out of range, and from entering a function that cannot be entered.

The instructions are put together from a few operations, and there is one lemma for each
of these (`concludes_withOperand` and the like). From the list follows what all steps have in
common, such as that nothing waits after them (`Process.Stepped.quiet`).
-/

namespace ScriptMachine

/-- Does a fault say that the frames of the process are not in order? -/
def Fault.isOfLayout : Fault → Bool
  | localOutOfRange _ _ | invalidFunctionEntry _ | noActiveFrame => true
  | _ => false

theorem Fault.isOfLayout_of_isOfScript {e : Fault} (h : e.isOfScript = true) :
    e.isOfLayout = false := by
  cases e <;> first | rfl | simp [isOfScript] at h

/-- Operations on values know nothing of frames. -/
theorem Sensible.isOfLayout_eq_false {x : Except Fault Value} {e : Fault} (h : Sensible x)
    (he : x = .error e) : e.isOfLayout = false := by
  rcases h with ⟨v, hv, -⟩ | ⟨e', he', hscript⟩
  · simp [hv] at he
  · obtain rfl : e' = e := by simpa [he'] using he
    exact Fault.isOfLayout_of_isOfScript hscript

/-- The frame stands at a call of a function, with the operands for it; the other operands
    are left. -/
structure Frame.Calls (program : Program) (f : Frame) (id : Nat) (args left : List Value) :
    Prop where
  instruction : ∃ i, program.instruction? f.function f.ip = some i ∧ i.opcode = .call ∧
    args.length = i.index
  operands : f.stack = .functionRef id :: (args.reverse ++ left)

namespace Process

variable {p q : Process} {f : Frame} {rest : List Frame} {i : Instruction} {stack : List Value}
  {e : Fault} {v : Value} {policy : UnboundPolicy} {handle : Handle}

/-- What a step can make of a process with the current frame `f` above the frames `rest`. -/
inductive Stepped (p : Process) (f : Frame) (rest : List Frame) : Turn Unit → Prop where
  | moved (ip : Nat) (stack : List Value) :
      Stepped p f rest ⟨p.onFrames ({ f with ip := ip, stack := stack } :: rest), (), [], .ok ()⟩
  | stored {i : Instruction} {v : Value} {stack : List Value}
      (hi : p.program.instruction? f.function f.ip = some i) (hop : i.opcode = .setLocal)
      (hf : f.stack = v :: stack) (hslot : i.index < maxLocals) :
      Stepped p f rest ⟨p.onFrames ({ f with
        ip := f.ip + 1
        stack := stack
        locals := Program.setFilling none f.locals i.index (some v) } :: rest), (), [], .ok ()⟩
  | called {id : Nat} {args stack : List Value} {callee : Frame}
      (hcalls : f.Calls p.program id args stack)
      (hcallee : (p.onFrames (f :: rest)).entered id args = .ok callee) :
      Stepped p f rest
        ⟨p.onFrames (callee :: { f with ip := f.ip + 1, stack := stack } :: rest), (), [], .ok ()⟩
  | returned {i : Instruction} {v : Value} {stack : List Value}
      (hi : p.program.instruction? f.function f.ip = some i) (hop : i.opcode = .ret)
      (hf : f.stack = v :: stack) :
      Stepped p f rest ⟨(p.onFrames rest).deliver v, (), [], .ok ()⟩
  /-- There is no further instruction. -/
  | ended {q : Process} (hi : p.program.instruction? f.function f.ip = none)
      (hq : (p.onFrames (f :: rest)).popFrame = .ok q) :
      Stepped p f rest ⟨q, (), [], .ok ()⟩
  | failed (stack : List Value) {e : Fault} (he : e.isOfLayout = false) :
      Stepped p f rest
        ⟨p.onFrames ({ f with stack := stack } :: rest), (), [], .error (.fault e)⟩
  | unstored {i : Instruction} (stack : List Value)
      (hi : p.program.instruction? f.function f.ip = some i) (hop : i.opcode = .setLocal)
      (hslot : maxLocals ≤ i.index) :
      Stepped p f rest ⟨p.onFrames ({ f with stack := stack } :: rest), (), [],
        .error (.fault (.localOutOfRange i.index maxLocals))⟩
  | refused {id : Nat} {args stack : List Value} {e : Fault}
      (hcalls : f.Calls p.program id args stack)
      (he : (p.onFrames (f :: rest)).entered id args = .error e) :
      Stepped p f rest
        ⟨p.onFrames ({ f with stack := stack } :: rest), (), [], .error (.fault e)⟩

/-- Whatever the instruction that was executed has left to do leads to one of the cases. -/
def Concludes (policy : UnboundPolicy) (handle : Handle) (p : Process) (f : Frame)
    (rest : List Frame) : Executed → Prop
  | (q, .error e) => Stepped p f rest ⟨q, (), [], .error (.fault e)⟩
  | (q, .ok .done) => Stepped p f rest (settle (rest.length + 1) ⟨q, (), [], .ok ()⟩)
  | (q, .ok (.request name args)) =>
    Stepped p f rest (settle (rest.length + 1) (Host.call ⟨[], policy⟩ handle name args q ()))

theorem Concludes.step (hi : p.program.instruction? f.function f.ip = some i)
    (h : Concludes policy handle p f rest ((p.onFrames (f :: rest)).execute i)) :
    Stepped p f rest ((p.onFrames (f :: rest)).step ⟨[], policy⟩ handle ()) := by
  simp only [Process.step, current_onFrames hi, perform]
  rcases hx : (p.onFrames (f :: rest)).execute i with ⟨q, e | ⟨⟩ | ⟨name, args⟩⟩ <;> rw [hx] at h
  · exact h
  · exact h
  · exact h

/-! ## The operations of instructions -/

theorem concludes_fault (stack : List Value) (he : e.isOfLayout = false) :
    Concludes policy handle p f rest (p.onFrames ({ f with stack := stack } :: rest), .error e) :=
  .failed stack he

/-- The frame goes on behind the instruction. -/
theorem concludes_done (hp : p.Quiet) (stack : List Value) :
    Concludes policy handle p f rest
      (p.onFrames ({ f with stack := stack } :: rest), .ok .done) := by
  have h : Stepped p f rest _ := .moved (f.ip + 1) stack
  simpa [Concludes, settle, proceed, setIp, onFrames, hp.transfer] using h

theorem concludes_jump (hp : p.Quiet) (stack : List Value) (ip : Nat) :
    Concludes policy handle p f rest
      ((p.onFrames ({ f with stack := stack } :: rest)).jumpTo ip, .ok .done) := by
  have h : Stepped p f rest _ := .moved ip stack
  simpa [Concludes, settle, proceed, setIp, jumpTo, onFrames, hp.transfer] using h

theorem concludes_pushResult (hp : p.Quiet) (stack : List Value) {x : Except Fault Value}
    (hx : ∀ e, x = .error e → e.isOfLayout = false) :
    Concludes policy handle p f rest
      ((p.onFrames ({ f with stack := stack } :: rest)).pushResult x) := by
  cases x with
  | ok v => exact concludes_done hp (v :: stack)
  | error e => exact concludes_fault stack (hx e rfl)

/-- An operand is taken if there is one. -/
theorem concludes_withOperand {next : Value → Process → Executed}
    (h : ∀ v left, stack = v :: left →
      Concludes policy handle p f rest (next v (p.onFrames ({ f with stack := left } :: rest)))) :
    Concludes policy handle p f rest
      ((p.onFrames ({ f with stack := stack } :: rest)).withOperand next) := by
  cases stack with
  | nil => exact concludes_fault [] rfl
  | cons v left => exact h v left rfl

/-- Operands are taken if there are so many. -/
theorem concludes_withOperands {n : Nat} {next : List Value → Process → Executed}
    (h : ∀ args left, stack = args.reverse ++ left → args.length = n →
      Concludes policy handle p f rest
        (next args (p.onFrames ({ f with stack := left } :: rest)))) :
    Concludes policy handle p f rest
      ((p.onFrames ({ f with stack := stack } :: rest)).withOperands n next) := by
  by_cases hn : stack.length < n
  · have hpop : (p.onFrames ({ f with stack := stack } :: rest)).popN n = .error .stackUnderflow :=
      if_pos hn
    rw [withOperands, hpop]
    exact concludes_fault stack rfl
  · have hargs : (stack.take n).reverse.length = n := by
      rw [List.length_reverse, List.length_take]
      omega
    have hstack : stack = (stack.take n).reverse.reverse ++ stack.drop n := by
      rw [List.reverse_reverse, List.take_append_drop]
    rw [hstack, withOperands, popN_reverse hargs]
    exact h _ _ hstack hargs

theorem concludes_binary (hp : p.Quiet) {op : Value → Value → Except Fault Value}
    (hop : i.opcode.operation? = some op) :
    Concludes policy handle p f rest ((p.onFrames (f :: rest)).binary op) := by
  refine concludes_withOperand fun right left _ => concludes_withOperand fun left' left'' _ => ?_
  exact concludes_pushResult hp _ fun e =>
    (Opcode.operation?_sensible hop left' right).isOfLayout_eq_false

theorem concludes_branch (hp : p.Quiet) (expected : Bool) :
    Concludes policy handle p f rest ((p.onFrames (f :: rest)).branch i expected) := by
  refine concludes_withOperand fun v left _ => ?_
  cases v with
  | boolean b =>
    by_cases hb : b = expected
    · simp only [hb, if_true]
      exact concludes_jump hp left i.index
    · simp only [hb, if_false]
      exact concludes_done hp left
  | _ => exact concludes_fault left rfl

/-- What is pushed without operands is there, or the fault is none of the frames. -/
theorem pushed?_isOfLayout {x : Except Fault Value} (hx : p.pushed? f i = some x)
    (he : x = .error e) : e.isOfLayout = false := by
  subst he
  unfold pushed? at hx
  split at hx <;> simp at hx
  · unfold string at hx
    split at hx <;> cases hx
    rfl
  · rcases getLocal_cases p f i.index with ⟨v, -, hget⟩ | hget <;> rw [hget] at hx <;> cases hx
    rfl

/-- A call of a function that the host does not have. -/
theorem concludes_request (hp : p.Quiet) (name : String) (args : List Value) :
    Concludes policy handle p f rest
      (p.onFrames ({ f with stack := stack } :: rest), .ok (.request name args)) := by
  cases policy with
  | ignore =>
    have h : Concludes .ignore handle p f rest _ := concludes_done hp stack
    exact h
  | pushUnit =>
    have h : Concludes .pushUnit handle p f rest _ := concludes_done hp (.unit :: stack)
    exact h
  | fault => exact .failed stack rfl

theorem concludes_external (hp : p.Quiet) (hop : i.opcode = .external) :
    Concludes policy handle p f rest ((p.onFrames (f :: rest)).execute i) := by
  simp only [execute, hop]
  refine concludes_withOperand fun v left _ => ?_
  cases v with
  | string name => exact concludes_withOperands fun args _ _ _ => concludes_request hp name args
  | _ => exact concludes_fault left rfl

theorem concludes_call (hp : p.Quiet) (hi : p.program.instruction? f.function f.ip = some i)
    (hop : i.opcode = .call) :
    Concludes policy handle p f rest ((p.onFrames (f :: rest)).execute i) := by
  simp only [execute, hop]
  refine concludes_withOperand fun v left hf => ?_
  cases v with
  | functionRef id =>
    refine concludes_withOperands fun args left' hleft hargs => ?_
    have hcalls : f.Calls p.program id args left' := ⟨⟨i, hi, hop, hargs⟩, hleft ▸ hf⟩
    have hentered : (p.onFrames ({ f with stack := left' } :: rest)).entered id args =
        (p.onFrames (f :: rest)).entered id args := entered_onFrames rfl id args
    rw [enter_eq, hentered]
    cases hcallee : (p.onFrames (f :: rest)).entered id args with
    | ok callee =>
      have h := Stepped.called hcalls hcallee
      simpa [Concludes, Except.map, finish, settle, proceed, setIp, onFrames, hp.transfer] using h
    | error e => exact .refused hcalls hcallee
  | _ => exact concludes_fault left rfl

theorem concludes_ret (hp : p.Quiet) (hi : p.program.instruction? f.function f.ip = some i)
    (hop : i.opcode = .ret) :
    Concludes policy handle p f rest ((p.onFrames (f :: rest)).execute i) := by
  simp only [execute, hop]
  refine concludes_withOperand fun v left hf => ?_
  have h : Stepped p f rest _ := .returned hi hop hf
  cases rest with
  | nil =>
    simpa [Concludes, settle, proceed, popFrame, exitFunction, setReturnValue, deliver, onFrames,
      hp.transfer] using h
  | cons caller rest =>
    simpa [Concludes, settle, proceed, popFrame, exitFunction, setReturnValue, deliver, onFrames,
      hp.transfer, hp.returnValue] using h

theorem concludes_setLocal (hp : p.Quiet) (hi : p.program.instruction? f.function f.ip = some i)
    (hop : i.opcode = .setLocal) :
    Concludes policy handle p f rest ((p.onFrames (f :: rest)).execute i) := by
  simp only [execute, hop]
  refine concludes_withOperand fun v left hf => ?_
  by_cases hslot : maxLocals ≤ i.index
  · have h : Stepped p f rest _ := .unstored left hi hop hslot
    simpa [Concludes, finish, setLocal, hslot] using h
  · have h : Stepped p f rest _ := .stored hi hop hf (Nat.lt_of_not_le hslot)
    simpa [Concludes, finish, setLocal, hslot, settle, proceed, setIp, onFrames, hp.transfer]
      using h

/-! ## Steps -/

theorem concludes_execute (hp : p.Quiet)
    (hi : p.program.instruction? f.function f.ip = some i) :
    Concludes policy handle p f rest ((p.onFrames (f :: rest)).execute i) := by
  have hpushed : ∀ x, p.pushed? f i = some x →
      Concludes policy handle p f rest ((p.onFrames (f :: rest)).execute i) := by
    intro x hx
    rw [execute_pushed hx]
    exact concludes_pushResult hp f.stack fun e => pushed?_isOfLayout hx
  have hoperation : ∀ op, i.opcode.operation? = some op →
      Concludes policy handle p f rest ((p.onFrames (f :: rest)).execute i) := by
    intro op hop
    rw [execute_operation hop]
    exact concludes_binary hp hop
  cases hop : i.opcode with
  | pushInt | pushFloat | pushString | pushBool | pushFunction | pushUnit | getLocal =>
    exact hpushed _ (by rw [pushed?, hop])
  | add | sub | mul | div | and | or | gt | lt | gte | lte | eq =>
    exact hoperation _ (by rw [hop]; rfl)
  | nop =>
    simp only [execute, hop]
    exact concludes_done hp f.stack
  | not =>
    simp only [execute, hop]
    refine concludes_withOperand fun v left _ => ?_
    exact concludes_pushResult hp left fun e => (Value.not_sensible v).isOfLayout_eq_false
  | jumpIf | jumpUnless =>
    simp only [execute, hop]
    exact concludes_branch hp _
  | jump =>
    simp only [execute, hop]
    exact concludes_jump hp f.stack i.index
  | external => exact concludes_external hp hop
  | call => exact concludes_call hp hi hop
  | ret => exact concludes_ret hp hi hop
  | setLocal => exact concludes_setLocal hp hi hop
  | invalid =>
    simp only [execute, hop]
    exact concludes_fault f.stack rfl

/-- Every step of a process is one of the cases. -/
theorem stepped (hp : p.Quiet) {body : Body}
    (hbody : p.program.function? f.function = some (.compiled body)) :
    Stepped p f rest ((p.onFrames (f :: rest)).step ⟨[], policy⟩ handle ()) := by
  cases hi : p.program.instruction? f.function f.ip with
  | some i => exact (concludes_execute hp hi).step hi
  | none =>
    have hcurrent : (p.onFrames (f :: rest)).current = .ok none := by
      simpa [current, hbody, Program.instruction?] using hi
    obtain ⟨q, hq⟩ : ∃ q, (p.onFrames (f :: rest)).popFrame = .ok q := by
      cases rest with
      | nil => exact ⟨_, rfl⟩
      | cons caller rest => simp [popFrame, hp.returnValue]
    simp only [Process.step, hcurrent, hq]
    exact .ended hi hq

/-- Without frames a step changes nothing. -/
theorem step_of_frames_eq_nil (h : p.frames = []) (host : Host Unit) :
    p.step host handle () = ⟨p, (), [], .error (.fault .noActiveFrame)⟩ := by
  simp [step, current, h]

/-- A frame that is left is gone; the others stay. -/
theorem popFrame_of_quiet (hp : p.Quiet) (hq : (p.onFrames (f :: rest)).popFrame = .ok q) :
    q.frames = rest ∧ q.program = p.program ∧ (rest ≠ [] → q.Quiet) := by
  cases rest with
  | nil =>
    cases hq
    exact ⟨rfl, rfl, fun h => absurd rfl h⟩
  | cons caller rest =>
    have hpop : (p.onFrames (f :: caller :: rest)).popFrame =
        .ok (p.onFrames (caller :: rest)) := by
      simp [popFrame, onFrames, hp.returnValue]
    obtain rfl : p.onFrames (caller :: rest) = q := Except.ok.inj (hpop.symm.trans hq)
    exact ⟨rfl, rfl, fun _ => hp.onFrames _⟩

/-- Between steps nothing waits in a process that has frames. -/
theorem Stepped.quiet {t : Turn Unit} (h : Stepped p f rest t) (hp : p.Quiet) :
    t.process.program = p.program ∧ (t.process.frames ≠ [] → t.process.Quiet) := by
  cases h with
  | moved | stored | called | failed | unstored | refused => exact ⟨rfl, fun _ => hp.onFrames _⟩
  | returned =>
    cases rest with
    | nil => exact ⟨rfl, fun h => absurd rfl h⟩
    | cons caller rest => exact ⟨rfl, fun _ => hp.onFrames _⟩
  | ended _ hq =>
    obtain ⟨hframes, hprogram, hquiet⟩ := popFrame_of_quiet hp hq
    exact ⟨hprogram, fun h => hquiet (hframes ▸ h)⟩

end Process

end ScriptMachine
