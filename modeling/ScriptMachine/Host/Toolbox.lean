import ScriptMachine.Host

/-!
# A toolbox for hosts

Functions that a host can give to its scripts, each for one thing that a function
of a host may do: use the arguments, push results, write to a journal, look at the
process or at what is attached to it, move control, enter and leave functions,
put the process to sleep, and fail.

The journal has a line for every remark, with the handle of the process that made
it. A process that goes to sleep leaves its handle with the host, which can wake it
later.
-/

namespace ScriptMachine

/-- The state of a host that keeps a journal and wakes sleepers. -/
structure Desk where
  journal : Array String := #[]
  /-- The processes that have gone to sleep and left word how to wake them. -/
  sleepers : List Handle := []
deriving DecidableEq, Inhabited

namespace Desk

/-- Writes a remark of a process to the journal. -/
def note (d : Desk) (h : Handle) (remark : String) : Desk :=
  { d with journal := d.journal.push (h.text ++ ":" ++ remark) }

/-- Remembers a sleeper. -/
def expect (d : Desk) (h : Handle) : Desk :=
  if h ∈ d.sleepers then d else { d with sleepers := h :: d.sleepers }

end Desk

/-- The functions of the toolbox. -/
inductive Tool where
  /-- Notes the arguments. -/
  | print
  /-- Pushes the first argument. -/
  | echo
  /-- Pushes the number of arguments. -/
  | args
  /-- Pushes the text of the arguments. -/
  | join
  /-- Pushes the double of its only argument, a number. -/
  | double
  /-- Fails with the text of the arguments. -/
  | fail
  /-- Breaks down. -/
  | boom
  /-- Breaks down with the text of the arguments. -/
  | boomText
  /-- Breaks down without a message. -/
  | boomSilent
  /-- Puts the process to sleep until the host wakes it. -/
  | sleep
  /-- Puts the process to sleep until the next sweep. -/
  | nap
  /-- Pushes the attached text. -/
  | owner
  /-- Counts on in the attached number, and pushes it. -/
  | count
  /-- Enters the function that the first argument refers to. -/
  | call
  /-- Goes on at the instruction with the given index. -/
  | jump
  /-- Leaves the function with a value. -/
  | quit
  /-- Leaves the function. -/
  | exit
  /-- Leaves a value without leaving the function. -/
  | setReturn
  /-- Pushes the value of a slot. -/
  | getLocal
  /-- Sets a slot. -/
  | setLocal
  /-- Pushes a string of the program. -/
  | string
  /-- Pops an operand and notes it. -/
  | pop
  /-- Pushes the number of frames. -/
  | depth
  /-- Pushes the handle of the process. -/
  | handle
  /-- Pushes the status of the process. -/
  | status
deriving DecidableEq, Inhabited

namespace Tool

/-- The names of the functions. -/
def names : Table String Tool :=
  [("print", print), ("echo", echo), ("args", args), ("join", join), ("double", double),
   ("fail", fail), ("boom", boom), ("boom_fmt", boomText), ("boom_any", boomSilent),
   ("sleep", sleep), ("nap", nap), ("owner", owner), ("count", count), ("call", call),
   ("jump", jump), ("quit", quit), ("exit", exit), ("setret", setReturn), ("getl", getLocal),
   ("setl", setLocal), ("str", string), ("pop", pop), ("depth", depth), ("handle", handle),
   ("status", status)]

/-- The function with the given name. -/
def named? (name : String) : Option Tool := names.get? name

/-- A natural number as a value. -/
def natural (n : Nat) : Value := .int (Int32.ofNat n)

/-- The first argument as an index. -/
def index : List Value → Except Fault Nat
  | .int n :: _ => if n < 0 then .error (.external "bad index") else .ok n.toInt.toNat
  | _ => .error (.external "bad index")

/-- The first argument. -/
def first (args : List Value) : Value := args.headD .unit

/-- The double of a number, if that is the only argument. -/
def doubled : List Value → Except Fault Value
  | [.int n] => .ok (.int (n + n))
  | _ => .error (.external "double takes one INT")

/-- The attached text, if there is one. -/
def ownerOf (p : Process) : Value :=
  match p.attachment with
  | some (.text s) => .string s
  | _ => .unit

/-- Counts on in the attached number, if there is one. -/
def countOn (p : Process) : Except Fault Process :=
  match p.attachment with
  | some (.number n) => (p.attach (.number (n + 1))).push (.int (Int32.ofInt (n + 1)))
  | _ => p.push (.int (-1))

/-- Enters the function that the first argument refers to, with the others. -/
def enterFirst (p : Process) : List Value → Except Fault Process
  | .functionRef id :: rest => p.enter id rest
  | _ => .error (.external "call needs a FUNCTIONREF")

/-- A turn that breaks down. -/
def breakdown (p : Process) (d : Desk) (message : Option String) : Turn Desk :=
  ⟨p, d, [], .error (.breakdown message)⟩

/-- Pops an operand and notes it. -/
def popNoted (h : Handle) (p : Process) (d : Desk) : Turn Desk :=
  match p.pop with
  | .ok (v, p') => Host.ofResult p' (d.note h ("pop " ++ v.text)) (.ok p')
  | .error f => Host.ofResult p d (.error f)

/-- The function itself. -/
def function (tool : Tool) : HostFunction Desk := fun h args p d =>
  let act := Host.ofResult p d
  match tool with
  | print => Host.ofResult p (d.note h (Value.joined args)) (.ok p)
  | echo => act (p.push (first args))
  | .args => act (p.push (natural args.length))
  | join => act (p.push (.string (Value.joined args)))
  | double => act (do p.push (← doubled args))
  | fail => act (.error (.external (Value.joined args)))
  | boom => breakdown p d (some "external blew up")
  | boomText => breakdown p d (some ("boom " ++ Value.joined args))
  | boomSilent => breakdown p d none
  | sleep => Host.ofResult p.pause ((d.expect h).note h "sleep") (p.pause.push (.string "slept"))
  | nap => { act (.ok p.pause) with wakes := [h] }
  | owner => act (p.push (ownerOf p))
  | count => act (countOn p)
  | call => act (enterFirst p args)
  | jump => act (p.jumpTo <$> index args)
  | quit => act (.ok (p.setReturnValue (first args)).exitFunction)
  | exit => act (.ok p.exitFunction)
  | setReturn => act (.ok (p.setReturnValue (first args)))
  | getLocal => act (do p.push (← p.getLocal (← index args)))
  | setLocal => act (do p.setLocal (← index args) ((args[1]?).getD .unit))
  | string => act (do p.push (.string (← p.string (← index args))))
  | pop => popNoted h p d
  | depth => act (p.push (natural p.frames.length))
  | handle => act (p.push (natural h.number))
  | status => act (p.push (.string p.status.text))

end Tool

end ScriptMachine
