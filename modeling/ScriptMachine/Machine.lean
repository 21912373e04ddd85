import ScriptMachine.MachineError
import ScriptMachine.Settings

/-!
# Machines

A machine keeps processes for a host and shares its time among those that run.
This module has the operations of the host; `ScriptMachine.Machine.Schedule` has
the scheduler, which is at work beside them.

The host and the scheduler exchange signals: the handles of processes to be woken
(`wakes`), and a mark that something has become able to run (`kicked`). A
scheduler that finds nothing to do blocks until it is notified. Every operation
of the host is made of sections that nothing can come between: one that changes
the processes, and, if something has become able to run, one that leaves a signal
and notifies the scheduler (`kick`).

Starting a process gives a ticket, for which the host gets to know how that
invocation ended (`poll`). The ticket is held by the entry of the process. When
the invocation ends, its exit is deposited and the entry lets go of the ticket. A
ticket that no entry holds and for which nothing has been deposited stands for an
invocation that was closed.

Processes have ascending handles, and no handle is given twice. A process that is
closed by force leaves the table at once. If the scheduler has already picked it
for the current sweep, it still has its turn there (`picked`).
-/

namespace ScriptMachine

/-- The number of an invocation. -/
structure Ticket where
  number : Nat
deriving DecidableEq, Inhabited

/-- How an invocation ended. -/
inductive Exit where
  /-- Its last frame was left. -/
  | completed
  | faulted (f : Fault)
  /-- The process was removed, or started anew, before. -/
  | closed
deriving DecidableEq, Inhabited

/-- A process in the care of a machine. -/
structure Entry where
  process : Process
  /-- The invocation that has not ended. -/
  ticket : Option Ticket
deriving DecidableEq, Inhabited

namespace Entry

/-- The entry after an operation on its process, and the exit of its invocation
    if the operation has left the last frame. -/
def update (e : Entry) (p : Process) : Entry × Option Exit :=
  if e.process.frames ≠ [] ∧ p.frames = [] then (⟨p, none⟩, some .completed)
  else (⟨p, e.ticket⟩, none)

/-- The entry after a turn of its process, and the exit of its invocation if the
    turn has ended it. -/
def afterTurn {σ : Type} (e : Entry) (t : Turn σ) : Entry × Option Exit :=
  match t.result with
  | .ok _ => e.update t.process
  | .error r => (⟨t.process.halt, none⟩, some (.faulted r.toFault))

end Entry

/-- Where the scheduler stands, between two of its sections. -/
inductive Phase where
  /-- Before a sweep: is the machine to stop? -/
  | top
  /-- About to take the signals. -/
  | collect
  /-- About to wake processes and to pick those of this sweep. -/
  | waking (woken : List Handle)
  /-- In the middle of a sweep; `awake` says whether some process has run. -/
  | turns (left : List Handle) (awake : Bool)
  /-- About to remove the processes that are finalizing. -/
  | pruning (awake : Bool)
  /-- Behind a sweep: is there anything to do? -/
  | resting (awake : Bool)
  /-- Waiting for a notification. -/
  | blocked
  | stopped
deriving DecidableEq, Inhabited

namespace Phase

/-- The processes that still have their turn in the current sweep. -/
def left : Phase → List Handle
  | turns left _ => left
  | _ => []

end Phase

/-- A machine; `σ` is the state of the host. -/
structure Machine (σ : Type) where
  settings : Settings
  /-- The functions that the host has given to scripts. -/
  functions : Table String (HostFunction σ)
  /-- The processes, by ascending handles. -/
  processes : Table Handle Entry
  nextHandle : Nat
  /-- Processes that are no longer in the table but still have a turn. -/
  picked : Table Handle Entry
  wakes : List Handle
  kicked : Bool
  /-- Once the machine was told to stop, no scheduler sweeps any more. -/
  stopping : Bool
  /-- The scheduler, if there is one. -/
  scheduler : Option Phase
  /-- The exits that were deposited and that nobody has seen yet. -/
  exits : Table Ticket Exit
  nextTicket : Nat
  host : σ

namespace Machine

variable {σ : Type}

/-- A machine without processes and without a scheduler. -/
def new (settings : Settings) (host : σ) : Machine σ where
  settings := settings
  functions := []
  processes := []
  nextHandle := 0
  picked := []
  wakes := []
  kicked := false
  stopping := false
  scheduler := none
  exits := []
  nextTicket := 0
  host := host

/-! ## The scheduler as seen by the host -/

/-- Has the scheduler been started, and not been shut down since? -/
def isRunning (m : Machine σ) : Bool := m.scheduler.isSome

/-- Gives a function to scripts. -/
def bind (m : Machine σ) (name : String) (f : HostFunction σ) :
    Except MachineError (Machine σ) :=
  if m.isRunning then .error (.boundTooLate name)
  else .ok { m with functions := m.functions.insert name f }

/-- Starts the scheduler. -/
def run (m : Machine σ) : Except MachineError (Machine σ) :=
  if m.isRunning then .error .schedulerRunning
  else .ok { m with scheduler := some .top }

/-- Ends the wait of a scheduler that is blocked. -/
def notify (m : Machine σ) : Machine σ :=
  match m.scheduler with
  | some .blocked => { m with scheduler := some .top }
  | _ => m

/-- Says that something has become able to run. -/
def kick (m : Machine σ) : Machine σ := notify { m with kicked := true }

/-- Asks for a process to be woken at the start of the next sweep. -/
def queueWake (m : Machine σ) (h : Handle) : Machine σ :=
  notify { m with wakes := m.wakes ++ [h] }

/-! ## Processes -/

/-- A new process of the program. -/
def create (m : Machine σ) (program : Program) : Handle × Machine σ :=
  let h : Handle := ⟨m.nextHandle⟩
  let e : Entry := ⟨program.instance m.settings.maxStackDepth, none⟩
  (h, { m with processes := m.processes ++ [(h, e)], nextHandle := m.nextHandle + 1 })

/-- The entry of a process. -/
def entry (m : Machine σ) (h : Handle) : Except MachineError Entry :=
  match m.processes.get? h with
  | some e => .ok e
  | none => .error (.noSuchProcess h)

/-- Sets the entry of a process. -/
def setEntry (m : Machine σ) (h : Handle) (e : Entry) : Machine σ :=
  { m with processes := m.processes.insert h e }

/-- Deposits the exit of an invocation. -/
def deposit (m : Machine σ) : Option Ticket → Option Exit → Machine σ
  | some t, some exit => { m with exits := m.exits.insert t exit }
  | _, _ => m

/-- The function at which a process can be started. -/
def entryPoint (m : Machine σ) (h : Handle) (name : String) :
    Except MachineError (Entry × Nat) := do
  let e ← m.entry h
  match e.process.status with
  | .running | .sleeping => throw (.alreadyRunning h)
  | .finalizing => throw (.noSuchProcess h)
  | .inactive =>
    match e.process.program.functionId? name with
    | some id => return (e, id)
    | none => throw (.noSuchFunction name)

/-- The section of a start that changes the process. Everything that an earlier
    invocation has left is gone before the function is entered, also if the
    function then cannot be entered. -/
def launch (m : Machine σ) (h : Handle) (name : String) :
    Except MachineError Ticket × Machine σ :=
  match m.entryPoint h name with
  | .error e => (.error e, m)
  | .ok (e, id) =>
    let t : Ticket := ⟨m.nextTicket⟩
    let m := { m with nextTicket := m.nextTicket + 1 }
    let p := e.process.reset
    match p.enter id [] with
    | .error f => (.error (.invalidEntry name f), m.setEntry h ⟨p, some t⟩)
    | .ok p => (.ok t, m.setEntry h ⟨{ p with status := .running }, some t⟩)

/-- Starts a process at one of its functions. -/
def start (m : Machine σ) (h : Handle) (name : String) :
    Except MachineError Ticket × Machine σ :=
  match m.launch h name with
  | (.ok t, m) => (.ok t, m.kick)
  | (.error e, m) => (.error e, m)

/-- How the invocation of a ticket ended; nothing while it goes on. An exit is
    given once only. -/
def poll (m : Machine σ) (t : Ticket) : Option Exit × Machine σ :=
  match m.exits.get? t with
  | some exit => (some exit, { m with exits := m.exits.erase t })
  | none =>
    if (m.processes ++ m.picked).any fun (_, e) => e.ticket = some t then (none, m)
    else (some .closed, m)

/-- Is there an answer for the ticket? -/
def isSettled (m : Machine σ) (t : Ticket) : Bool := (m.poll t).1.isSome

/-- Carries out an operation on a process. -/
def visit {α : Type} (m : Machine σ) (h : Handle) (op : Process → α × Process) :
    Except MachineError (α × Machine σ) := do
  let e ← m.entry h
  let (a, p) := op e.process
  let (e', exit) := e.update p
  return (a, (m.setEntry h e').deposit e.ticket exit)

/-- Takes the value that the last completed invocation has left. -/
def takeResult (m : Machine σ) (h : Handle) : Except MachineError (Option Value × Machine σ) :=
  m.visit h Process.takeReturnValue

/-- The status of a process. -/
def status (m : Machine σ) (h : Handle) : Except MachineError Status := do
  return (← m.entry h).process.status

/-- Is the process running? -/
def isActive (m : Machine σ) (h : Handle) : Except MachineError Bool := do
  return (← m.status h) = .running

/-- Puts a running process to sleep. -/
def pause (m : Machine σ) (h : Handle) : Except MachineError (Machine σ) := do
  return (← m.visit h fun p => ((), p.pause)).2

/-- The section of a wake that changes the process; says whether it was
    asleep. -/
def rouse (m : Machine σ) (h : Handle) : Except MachineError (Bool × Machine σ) :=
  m.visit h fun p => (p.status = .sleeping, p.wake)

/-- Wakes a sleeping process. -/
def wake (m : Machine σ) (h : Handle) : Except MachineError (Machine σ) := do
  let (woken, m) ← m.rouse h
  return if woken then m.kick else m

/-- Attaches data of the host to a process. -/
def attach (m : Machine σ) (h : Handle) (a : Attachment) : Except MachineError (Machine σ) := do
  return (← m.visit h fun p => ((), p.attach a)).2

/-- Removes a process at once. If it was picked for the current sweep and has not
    had its turn, it is kept for that turn. -/
def remove (m : Machine σ) (h : Handle) : Except MachineError (Machine σ) := do
  let e ← m.entry h
  let left := m.scheduler.elim [] Phase.left
  return { m with
    processes := m.processes.erase h
    picked := if h ∈ left then m.picked.insert h e else m.picked }

/-- The section of a close that changes the process: it does not run any more and
    waits for its removal. -/
def finalize (m : Machine σ) (h : Handle) : Except MachineError (Machine σ) := do
  let e ← m.entry h
  return m.setEntry h { e with process := { e.process with status := .finalizing } }

/-- Closes a process: by force, which removes it now, or else at the end of a
    sweep. -/
def close (m : Machine σ) (h : Handle) (force : Bool) : Except MachineError (Machine σ) :=
  if force then m.remove h
  else do return (← m.finalize h).kick

end Machine

end ScriptMachine
