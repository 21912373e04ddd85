import ScriptMachine.Process

/-!
# Execution

An instruction takes its operands from the current frame, the last one first, and
pushes its result. A fault leaves the process as it is at that moment: operands
that were taken stay taken.

Only one instruction needs more than the process: a call of a function of the
host takes its operands and then waits for the host (`Effect.request`). All other
instructions are finished when their operands are used up and their result is
pushed (`Effect.done`).
-/

namespace ScriptMachine

/-- What remains to be done for an instruction. -/
inductive Effect where
  | done
  /-- The host is asked for a function, by name. -/
  | request (name : String) (args : List Value)
deriving DecidableEq, Inhabited

/-- A process, and how the instruction that it executed went. -/
abbrev Executed := Process × Except Fault Effect

namespace Process

/-- An instruction is finished, or fails without a trace. -/
def finish (p : Process) : Except Fault Process → Executed
  | .ok p' => (p', .ok .done)
  | .error f => (p, .error f)

/-- Takes an operand. -/
def withOperand (p : Process) (next : Value → Process → Executed) : Executed :=
  match p.pop with
  | .ok (v, p') => next v p'
  | .error f => (p, .error f)

/-- Takes operands, and gives them in the order in which they were pushed. -/
def withOperands (p : Process) (n : Nat) (next : List Value → Process → Executed) : Executed :=
  match p.popN n with
  | .ok (vs, p') => next vs p'
  | .error f => (p, .error f)

/-- Pushes a result, unless there is none. -/
def pushResult (p : Process) : Except Fault Value → Executed
  | .ok v => p.finish (p.push v)
  | .error f => (p, .error f)

/-- Takes two operands and pushes a result. -/
def binary (p : Process) (op : Value → Value → Except Fault Value) : Executed :=
  p.withOperand fun right p => p.withOperand fun left p => p.pushResult (op left right)

/-- Takes a truth value, and jumps if it is `expected`. -/
def branch (p : Process) (i : Instruction) (expected : Bool) : Executed :=
  p.withOperand fun v p =>
    match v with
    | .boolean b => (if b = expected then p.jumpTo i.index else p, .ok .done)
    | v => (p, .error (.unexpectedType i.opcode .boolean v.type))

/-- Executes one instruction. -/
def execute (p : Process) (i : Instruction) : Executed :=
  match i.opcode with
  | .nop => (p, .ok .done)
  | .pushInt => p.finish (p.push (.int i.int))
  | .pushFloat => p.finish (p.push (.float i.float))
  | .pushString => p.pushResult (.string <$> p.string i.index)
  | .pushBool => p.finish (p.push (.boolean (i.data != 0)))
  | .pushFunction => p.finish (p.push (.functionRef i.index))
  | .pushUnit => p.finish (p.push .unit)
  | .add => p.binary Value.add
  | .sub => p.binary Value.sub
  | .mul => p.binary Value.mul
  | .div => p.binary Value.div
  | .and => p.binary Value.and
  | .or => p.binary Value.or
  | .gt => p.binary (Value.compare .gt)
  | .lt => p.binary (Value.compare .lt)
  | .gte => p.binary (Value.compare .gte)
  | .lte => p.binary (Value.compare .lte)
  | .eq => p.binary fun left right => .ok (left.equals right)
  | .not => p.withOperand fun v p => p.pushResult v.not
  | .jumpIf => p.branch i true
  | .jumpUnless => p.branch i false
  | .jump => (p.jumpTo i.index, .ok .done)
  | .external =>
    p.withOperand fun v p =>
      match v with
      | .string name => p.withOperands i.index fun args p => (p, .ok (.request name args))
      | v => (p, .error (.unexpectedType .external .string v.type))
  | .call =>
    p.withOperand fun v p =>
      match v with
      | .functionRef id => p.withOperands i.index fun args p => p.finish (p.enter id args)
      | v => (p, .error (.unexpectedType .call .functionRef v.type))
  | .ret => p.withOperand fun v p => ((p.setReturnValue v).exitFunction, .ok .done)
  | .getLocal => p.pushResult (p.getLocal i.index)
  | .setLocal => p.withOperand fun v p => p.finish (p.setLocal i.index v)
  | .invalid => (p, .error (.invalidOpcode i.opcode.code.toNat))

/-- The next instruction of the current frame; none behind the last one. -/
def current (p : Process) : Except Fault (Option Instruction) :=
  match p.frames with
  | [] => .error .noActiveFrame
  | f :: _ =>
    match p.program.function? f.function with
    | some (.compiled body) => .ok body.code[f.ip]?
    | _ => .error (.invalidFunctionEntry f.function)

/-- Sets the place of the frame that has `depth` frames up to itself, if there is
    one. -/
def setIp (p : Process) (depth : Nat) (ip : Nat → Nat) : Process :=
  if depth ≤ p.frames.length then
    { p with
      frames := p.frames.modify (p.frames.length - depth) fun f => { f with ip := ip f.ip } }
  else p

/-- Moves control behind an instruction of the frame at `depth`, as far as that
    instruction has asked for it. Frames entered by the instruction lie above
    that frame. -/
def proceed (p : Process) (depth : Nat) : Except Fault Process :=
  let settled := { p with transfer := none }
  match p.transfer with
  | some .exit => settled.popFrame
  | some (.jump ip) => .ok (settled.setIp depth fun _ => ip)
  | none => .ok (settled.setIp depth (· + 1))

end Process

end ScriptMachine
