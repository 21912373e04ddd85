import ScriptMachine.Compile
import ScriptMachine.Files
import ScriptMachine.Machine.Schedule

/-!
# Managers

A manager runs scripts from files on a machine of its own. Clients know a process
by a short id. A program is loaded from a file when it is first asked for and kept
for all later processes of that file; a file that could not be loaded is tried
again.

To execute a function, a client starts the process (`call`), waits for the exit of
that invocation, and takes its value (`conclude`). Between these three anything may
happen to the process, by other clients too. `execute` does them in one go.
-/

namespace ScriptMachine

/-- Why a manager could not do what it was asked for. -/
inductive ManagerError where
  | read (path : String) (cause : FileError)
  | compile (path : String) (cause : CompileError)
  | load (path : String) (cause : FormatError)
  | machine (cause : MachineError)
  | script (cause : Fault)
deriving DecidableEq, Inhabited

namespace ManagerError

/-- The error in words. -/
def message : ManagerError → String
  | read path cause => "cannot read " ++ path ++ ": " ++ cause.message
  | compile path cause => "cannot compile " ++ path ++ ": " ++ cause.message
  | load path cause => "cannot load " ++ path ++ ": " ++ cause.message
  | machine cause => cause.message
  | script cause => "script fault: " ++ cause.message

end ManagerError

/-- What the execution of a function gives. -/
inductive Outcome where
  /-- There is no such process, or it was closed meanwhile. -/
  | noResult
  | success (v : Value)
deriving DecidableEq, Inhabited

/-- An invocation that a client waits for. -/
structure Call where
  handle : Handle
  ticket : Ticket
deriving DecidableEq, Inhabited

/-- The extension of files with stored programs. -/
def storedExtension : String := "ternc"

/-- Loads a program from a file: a stored program, or else a source, which is
    compiled and stored on the way. -/
def Files.loadProgram (fs : Files) (path : String) : Except ManagerError Program := do
  if (Route.ofPath path).hasExtension storedExtension then
    let contents ← (fs.read path).mapError fun e => .load path (.io e.message)
    (Program.ofFile contents).mapError (.load path)
  else
    let source ← (fs.readText path).mapError (.read path)
    let bytes ← (Program.bytesOfSource source).mapError (.compile path)
    (Program.ofBytes bytes).mapError (.load path)

/-- A manager; `σ` is the state of the host. -/
structure Manager (σ : Type) where
  machine : Machine σ
  /-- The processes that clients know, by their ids. -/
  ids : Table String Handle
  /-- The programs that have been loaded, by the routes of their paths. -/
  programs : Table Route Program
  /-- The number from which on ids are made up. -/
  nextId : Nat

namespace Manager

variable {σ : Type}

/-- A manager without processes, whose scheduler has not been started. -/
def new (settings : Settings) (host : σ) : Manager σ := ⟨.new settings host, [], [], 0⟩

/-! ## Ids -/

/-- The characters of ids. -/
def idAlphabet : List Char := "ABCDEFGHIJKLMNOPQRSTUVWXYZ0123456789".toList

/-- The number of characters of an id. -/
def idLength : Nat := 10

/-- A number written in the characters of ids, with the given number of places. -/
def idDigits : (places : Nat) → Nat → List Char
  | 0, _ => []
  | places + 1, n =>
    idDigits places (n / idAlphabet.length) ++ [idAlphabet.getD (n % idAlphabet.length) 'A']

/-- The id with the given number. -/
def idOf (n : Nat) : String := String.ofList (idDigits idLength n)

/-- A number for a new process whose id is not taken: of one more number than
    there are ids, the first one that is free. -/
def freeNumber (m : Manager σ) : Nat :=
  let numbers := (List.range (m.ids.length + 1)).map (m.nextId + ·)
  (numbers.find? fun n => (m.ids.get? (idOf n)).isNone).getD m.nextId

/-! ## Processes -/

/-- Gives a function to scripts. -/
def bind (m : Manager σ) (name : String) (f : HostFunction σ) :
    Except ManagerError (Manager σ) := do
  return { m with machine := ← (m.machine.bind name f).mapError .machine }

/-- Starts the scheduler. -/
def start (m : Manager σ) : Except ManagerError (Manager σ) := do
  return { m with machine := ← m.machine.run.mapError .machine }

/-- The program of a file, which is loaded once only. -/
def program (m : Manager σ) (fs : Files) (path : String) :
    Except ManagerError (Program × Manager σ) := do
  let route := Route.ofPath path
  match m.programs.get? route with
  | some p => return (p, m)
  | none =>
    let p ← fs.loadProgram path
    return (p, { m with programs := m.programs.insert route p })

/-- A new process of the program in a file. -/
def newProcess (m : Manager σ) (fs : Files) (path : String) :
    Except ManagerError (String × Manager σ) := do
  let (p, m) ← m.program fs path
  let (h, machine) := m.machine.create p
  let n := m.freeNumber
  return (idOf n, { m with machine, ids := m.ids.insert (idOf n) h, nextId := n + 1 })

/-- Starts a function, if there is a process with the id. -/
def call (m : Manager σ) (id function : String) :
    Except ManagerError (Option Call) × Manager σ :=
  match m.ids.get? id with
  | none => (.ok none, m)
  | some h =>
    match m.machine.start h function with
    | (.ok t, machine) => (.ok (some ⟨h, t⟩), { m with machine })
    | (.error e, machine) => (.error (.machine e), { m with machine })

/-- The result of an invocation with the given exit. -/
def conclude (m : Manager σ) (c : Call) : Exit → Except ManagerError Outcome × Manager σ
  | .completed =>
    match m.machine.takeResult c.handle with
    | .ok (v, machine) => (.ok (.success (v.getD .unit)), { m with machine })
    | .error e => (.error (.machine e), m)
  | .faulted f => (.error (.script f), m)
  | .closed => (.ok .noResult, m)

/-- Waits for an invocation, for so many ticks, and gives its result. -/
def await (m : Manager σ) (ticks : Nat) (c : Call) :
    Option (Except ManagerError Outcome) × Manager σ :=
  match (m.machine.runUntil (·.isSettled c.ticket) ticks).poll c.ticket with
  | (none, machine) => (none, { m with machine })
  | (some exit, machine) =>
    let (r, m) := conclude { m with machine } c exit
    (some r, m)

/-- Executes a function and waits for its end, for so many ticks. -/
def execute (m : Manager σ) (ticks : Nat) (id function : String) :
    Option (Except ManagerError Outcome) × Manager σ :=
  match m.call id function with
  | (.error e, m) => (some (.error e), m)
  | (.ok none, m) => (some (.ok .noResult), m)
  | (.ok (some c), m) => m.await ticks c

/-- Does something with a process; says whether there is one with the id. -/
def withId (m : Manager σ) (id : String)
    (op : Machine σ → Handle → Except MachineError (Machine σ)) :
    Except ManagerError (Bool × Manager σ) :=
  match m.ids.get? id with
  | none => .ok (false, m)
  | some h => do return (true, { m with machine := ← (op m.machine h).mapError .machine })

/-- Puts a running process to sleep. -/
def sleep (m : Manager σ) (id : String) : Except ManagerError (Bool × Manager σ) :=
  m.withId id Machine.pause

/-- Wakes a sleeping process. -/
def wake (m : Manager σ) (id : String) : Except ManagerError (Bool × Manager σ) :=
  m.withId id Machine.wake

/-- The manager without an id. -/
def forget (m : Manager σ) (id : String) : Manager σ := { m with ids := m.ids.erase id }

/-- Closes a process. Its id is forgotten, also if the machine does not have the
    process any more. -/
def close (m : Manager σ) (id : String) (force : Bool) :
    Except ManagerError Bool × Manager σ :=
  match m.withId id fun machine h => machine.close h force with
  | .ok (found, m) => (.ok found, m.forget id)
  | .error e => (.error e, m.forget id)

/-- Is the process running? -/
def isBusy (m : Manager σ) (id : String) : Bool :=
  match m.ids.get? id with
  | none => false
  | some h => (m.machine.isActive h).toOption.getD false

end Manager

end ScriptMachine
