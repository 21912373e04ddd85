import ScriptMachine.Machine

/-!
# The scheduler

The scheduler sweeps over the processes again and again. A sweep takes the
signals, wakes the processes that were asked for, and picks all processes of the
table. By ascending handles, each of these that is running when its turn comes
executes so many instructions as the settings allow. A fault, or a function of
the host that breaks down, ends the invocation of that process only. At the end
of the sweep the processes that are finalizing are removed, and if no process was
awake the scheduler blocks, unless there is a signal.

One `tick` is one section of this: whatever the host does happens between two
ticks. `sweep` makes all ticks of one sweep, and `runUntil` makes ticks until
something has come about that the host waits for.
-/

namespace ScriptMachine

namespace Machine

variable {σ : Type}

/-- Moves the scheduler. -/
def moveTo (m : Machine σ) (phase : Phase) : Machine σ := { m with scheduler := some phase }

/-- The functions of the host, as a process of the machine sees them. -/
def hostFunctions (m : Machine σ) : Host σ := ⟨m.functions, m.settings.unbound⟩

/-- Takes the signals. -/
def takeSignals (m : Machine σ) : Machine σ :=
  { m with wakes := [], kicked := false, scheduler := some (.waking m.wakes) }

/-- Wakes a process of the table. -/
def wakeIn (table : Table Handle Entry) (h : Handle) : Table Handle Entry :=
  match table.get? h with
  | some e => table.insert h { e with process := e.process.wake }
  | none => table

/-- Wakes the processes that were asked for, and picks all processes. -/
def pickAll (m : Machine σ) (woken : List Handle) : Machine σ :=
  let table := woken.foldl wakeIn m.processes
  { m with processes := table, scheduler := some (.turns (table.map Prod.fst) false) }

/-- The entry of a process that was picked, wherever it is. -/
def pickedEntry? (m : Machine σ) (h : Handle) : Option Entry :=
  (m.processes.get? h).or (m.picked.get? h)

/-- What the turn of an entry leaves behind. -/
def turnOf (m : Machine σ) (h : Handle) (e : Entry) : Turn σ :=
  Process.slice m.hostFunctions h m.settings.timeSlice (.start e.process m.host)

/-- Writes the outcome of a turn to the machine. A process that is no longer in
    the table is gone after its turn. -/
def record (m : Machine σ) (h : Handle) (e : Entry) (t : Turn σ) : Machine σ :=
  let (e', exit) := e.afterTurn t
  let m := { m with wakes := m.wakes ++ t.wakes, host := t.host }
  let m := if (m.processes.get? h).isSome then m.setEntry h e' else m
  m.deposit e.ticket exit

/-- The turn of a process that was picked. -/
def turn (m : Machine σ) (h : Handle) (left : List Handle) (awake : Bool) : Machine σ :=
  let after : Machine σ := match m.pickedEntry? h with
    | some e =>
      if e.process.status = .running then (m.record h e (m.turnOf h e)).moveTo (.turns left true)
      else m.moveTo (.turns left awake)
    | none => m.moveTo (.turns left awake)
  { after with picked := after.picked.erase h }

/-- Removes the processes that are finalizing. -/
def prune (m : Machine σ) : Machine σ :=
  { m with processes := m.processes.filter fun (_, e) => e.process.status ≠ .finalizing }

/-- Is there a reason not to block? -/
def isSignalled (m : Machine σ) : Bool := m.kicked || !m.wakes.isEmpty || m.stopping

/-- One section of the scheduler. -/
def tick (m : Machine σ) : Machine σ :=
  match m.scheduler with
  | none => m
  | some .top => m.moveTo (if m.stopping then .stopped else .collect)
  | some .collect => m.takeSignals
  | some (.waking woken) => m.pickAll woken
  | some (.turns [] awake) => m.moveTo (.pruning awake)
  | some (.turns (h :: left) awake) => m.turn h left awake
  | some (.pruning awake) => m.prune.moveTo (.resting awake)
  | some (.resting awake) =>
    m.moveTo (if awake || m.isSignalled then .top else .blocked)
  | some .blocked => m
  | some .stopped => m

/-- Does the scheduler do nothing until the host does something? -/
def isQuiet (m : Machine σ) : Bool :=
  match m.scheduler with
  | none | some .blocked | some .stopped => true
  | _ => false

/-- Makes ticks until `done`, or until no tick does anything, but not more than
    the given number. -/
def runUntil (done : Machine σ → Bool) : (ticks : Nat) → Machine σ → Machine σ
  | 0, m => m
  | n + 1, m => if done m || m.isQuiet then m else runUntil done n m.tick

/-- A sweep is over after at most so many ticks. -/
def sweepLength (m : Machine σ) : Nat :=
  m.processes.length + (m.scheduler.elim 0 fun phase => phase.left.length) + 6

/-- Makes the ticks that are left of a sweep. -/
def sweep (m : Machine σ) : Machine σ :=
  m.tick.runUntil (fun m => m.scheduler = some .top) m.sweepLength

/-- Stops the scheduler, after it has finished its sweep. -/
def shutdown (m : Machine σ) : Machine σ :=
  if m.isRunning then
    let m := kick { m with stopping := true }
    { m.runUntil (fun _ => false) m.sweepLength with scheduler := none }
  else m

end Machine

end ScriptMachine
