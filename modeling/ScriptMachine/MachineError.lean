import ScriptMachine.Host

/-!
# Errors of a machine

What a machine refuses to do for its host, and how the host is told. Unlike a
fault, such an error is no concern of any process.
-/

namespace ScriptMachine

/-- A refusal of a machine. -/
inductive MachineError where
  | noSuchProcess (h : Handle)
  | noSuchFunction (name : String)
  /-- A function was found, but it cannot be entered. -/
  | invalidEntry (name : String) (cause : Fault)
  | alreadyRunning (h : Handle)
  /-- The functions of the host are fixed while the scheduler is at work. -/
  | boundTooLate (name : String)
  | schedulerRunning
deriving DecidableEq, Inhabited

namespace MachineError

/-- The error in words. -/
def message : MachineError → String
  | noSuchProcess h => "no process with handle " ++ h.text
  | noSuchFunction name => "no function named `" ++ name ++ "`"
  | invalidEntry name cause => "cannot start entry point `" ++ name ++ "`: " ++ cause.message
  | alreadyRunning h => "process " ++ h.text ++ " is already running"
  | boundTooLate name => "cannot bind external `" ++ name ++ "` after the VM has started"
  | schedulerRunning => "the scheduler is already running"

end MachineError

end ScriptMachine
