import ScriptMachine.Program
import ScriptMachine.Value.Arithmetic

/-!
# Processes

A process is one instance of a program: the frames of the functions that it is
in, the last one entered first, with what it needs to be scheduled. A frame holds
a place in a function, a stack of operands (the last one pushed first) and the
local slots. Arguments fill the slots from the first on; slot zero belongs to no
argument.

An operation either gives the process after it or a fault, in which case the
process is as it was. An instruction may ask for control to move elsewhere once
it is finished (`Transfer`); without such a request the frame goes on to the next
instruction.

The value that a function returns waits in the process (`returnValue`) until the
frame of the function is gone. Then the frame below takes it as an operand; if
there is none, the process has ended and the value is left to the host.
-/

namespace ScriptMachine

/-- The life of a process. -/
inductive Status where
  | inactive
  | running
  | sleeping
  /-- About to be removed. -/
  | finalizing
deriving DecidableEq, Inhabited

namespace Status

/-- The status in words. -/
def text : Status → String
  | inactive => "Inactive"
  | running => "Running"
  | sleeping => "Sleeping"
  | finalizing => "Finalizing"

end Status

/-- Where control goes once an instruction is finished. -/
inductive Transfer where
  | jump (ip : Nat)
  | exit
deriving DecidableEq, Inhabited

/-- One activation of a function. -/
structure Frame where
  function : Nat
  /-- The index of the next instruction. -/
  ip : Nat
  /-- The operands, the last one pushed first. -/
  stack : List Value
  locals : Array (Option Value)
deriving DecidableEq, Inhabited

namespace Frame

/-- The frame at the start of a function with `slots` local slots. All arguments
    find a place, also if the function does not use it. -/
def enter (function slots : Nat) (args : List Value) : Frame where
  function := function
  ip := 0
  stack := []
  locals := (none :: args.map some).toArray ++ Array.replicate (slots - (args.length + 1)) none

/-- The frame with its operands and slots. -/
def describe (f : Frame) : String :=
  let slot : Option Value → String
    | none => "None"
    | some v => "Some(" ++ v.describe ++ ")"
  "Frame \x7b function: " ++ toString f.function ++ ", ip: " ++ toString f.ip ++
    ", stack: [" ++ ", ".intercalate (f.stack.reverse.map Value.describe) ++
    "], locals: [" ++ ", ".intercalate (f.locals.toList.map slot) ++ "] \x7d"

end Frame

/-- What a host may attach to a process for its own functions. -/
inductive Attachment where
  | text (s : String)
  | number (n : Int)
deriving DecidableEq, Inhabited

/-- A process. -/
structure Process where
  program : Program
  /-- The frames, the last one entered first. -/
  frames : List Frame
  status : Status
  /-- A value that a function has returned and nobody has taken yet. -/
  returnValue : Option Value
  /-- The move that the last instruction has asked for. -/
  transfer : Option Transfer
  attachment : Option Attachment
  /-- No more frames than this are entered. -/
  maxDepth : Nat
deriving DecidableEq, Inhabited

namespace Process

/-- A process that has not been started. -/
def new (program : Program) (maxDepth : Nat) : Process where
  program := program
  frames := []
  status := .inactive
  returnValue := none
  transfer := none
  attachment := none
  maxDepth := maxDepth

/-- The process with its frames, in the order in which they were entered. -/
def describe (p : Process) : String :=
  let value := match p.returnValue with
    | none => "None"
    | some v => "Some(" ++ v.describe ++ ")"
  "ProcessState \x7b frames: [" ++ ", ".intercalate (p.frames.reverse.map Frame.describe) ++
    "], status: " ++ p.status.text ++ ", return_value: " ++ value ++ ", .. \x7d"

/-! ## Frames -/

/-- Enters a function. -/
def enter (p : Process) (id : Nat) (args : List Value) : Except Fault Process :=
  if p.frames.length = p.maxDepth then
    .error (.stackOverflow p.maxDepth)
  else
    match p.program.function? id with
    | some (.compiled body) =>
      if maxLocals < body.slots then .error (.localOutOfRange (body.slots - 1) maxLocals)
      else .ok { p with frames := .enter id body.slots args :: p.frames }
    | some (.imported file name) => .error (.importedUnsupported file name)
    | some .unset => .error (.invalidFunctionEntry id)
    | none => .error (.badFunctionId id)

/-- Asks to leave the function of the current frame. -/
def exitFunction (p : Process) : Process := { p with transfer := some .exit }

/-- Asks to go on at another instruction. -/
def jumpTo (p : Process) (ip : Nat) : Process := { p with transfer := some (.jump ip) }

/-- Leaves the current frame. A value that waits goes to the frame below; without
    such a frame the process has ended and keeps the value. -/
def popFrame (p : Process) : Except Fault Process :=
  match p.frames with
  | [] => .error .noActiveFrame
  | [_] => .ok { p with frames := [], status := .inactive, transfer := none }
  | _ :: caller :: rest =>
    match p.returnValue with
    | none => .ok { p with frames := caller :: rest }
    | some v =>
      .ok { p with
        frames := { caller with stack := v :: caller.stack } :: rest
        returnValue := none }

/-- The process after a fault: without frames, and inactive. -/
def halt (p : Process) : Process :=
  { p with frames := [], status := .inactive, transfer := none }

/-- The process before a start: without frames, and without anything that an
    earlier run has left. -/
def reset (p : Process) : Process :=
  { p with frames := [], returnValue := none, transfer := none }

/-! ## Operands and local slots -/

/-- Pushes an operand. -/
def push (p : Process) (v : Value) : Except Fault Process :=
  match p.frames with
  | [] => .error .noActiveFrame
  | f :: rest => .ok { p with frames := { f with stack := v :: f.stack } :: rest }

/-- Pops an operand. -/
def pop (p : Process) : Except Fault (Value × Process) :=
  match p.frames with
  | [] => .error .noActiveFrame
  | f :: rest =>
    match f.stack with
    | [] => .error .stackUnderflow
    | v :: stack => .ok (v, { p with frames := { f with stack := stack } :: rest })

/-- Pops `n` operands, and gives them in the order in which they were pushed. -/
def popN (p : Process) (n : Nat) : Except Fault (List Value × Process) :=
  match p.frames with
  | [] => .error .noActiveFrame
  | f :: rest =>
    if f.stack.length < n then .error .stackUnderflow
    else
      .ok ((f.stack.take n).reverse,
        { p with frames := { f with stack := f.stack.drop n } :: rest })

/-- The value of a local slot. -/
def getLocal (p : Process) (slot : Nat) : Except Fault Value :=
  match p.frames with
  | [] => .error .noActiveFrame
  | f :: _ =>
    match f.locals[slot]? with
    | some (some v) => .ok v
    | _ => .error (.noSuchLocal slot)

/-- Sets a local slot; slots up to it come into being if they are missing. -/
def setLocal (p : Process) (slot : Nat) (v : Value) : Except Fault Process :=
  if maxLocals ≤ slot then .error (.localOutOfRange slot maxLocals)
  else
    match p.frames with
    | [] => .error .noActiveFrame
    | f :: rest =>
      let locals := Program.setFilling none f.locals slot (some v)
      .ok { p with frames := { f with locals := locals } :: rest }

/-- A string of the program. -/
def string (p : Process) (id : Nat) : Except Fault String :=
  match p.program.string? id with
  | some s => .ok s
  | none => .error (.badStringId id)

/-! ## For the host -/

/-- Leaves a value to whoever takes it when the current function is left. -/
def setReturnValue (p : Process) (v : Value) : Process := { p with returnValue := some v }

/-- The process after its waiting value was taken. -/
def takeReturnValue (p : Process) : Option Value × Process :=
  (p.returnValue, { p with returnValue := none })

/-- Puts a running process to sleep. -/
def pause (p : Process) : Process :=
  if p.status = .running then { p with status := .sleeping } else p

/-- Wakes a sleeping process. -/
def wake (p : Process) : Process :=
  if p.status = .sleeping then { p with status := .running } else p

/-- Attaches data of the host. -/
def attach (p : Process) (a : Attachment) : Process := { p with attachment := some a }

end Process

/-- A process of the program that has not been started. -/
def Program.instance (program : Program) (maxDepth : Nat) : Process := .new program maxDepth

end ScriptMachine
