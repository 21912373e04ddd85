import ScriptMachine.Compile
import ScriptMachine.Console.Options
import ScriptMachine.Diagnostic.Document
import ScriptMachine.Diagnostic.Terminal
import ScriptMachine.Files
import ScriptMachine.Machine.Schedule
import ScriptMachine.Program.Listing
import ScriptMachine.Script.Document

/-!
# The command line

A command line compiles a script. The stored program goes to a file beside the
script, unless the tree of the script or the listing of the program is to be
printed or a function is to be executed; of these, the first one counts.

`Options.task` says what remains to be done once the file has been read. To
execute a function takes a `Session`: a machine with one process, in which scripts
have a function that prints its arguments as a line. Problems are reported as
diagnostics (`report`).

`Console.perform` carries out a whole command line on given files.
-/

namespace ScriptMachine

namespace Console

/-! ## Fixed texts -/

/-- The name and the number of this version. -/
def versionText : String := "tern 0.1.0\n"

/-- How the command is used. -/
def usageText : String := "Usage: tern [OPTIONS] <FILE>\n"

/-- All that the command can do. -/
def helpText : String :=
  "Compile tern scripts to bytecode, or run them\n\n" ++ usageText ++
  "\nArguments:\n" ++
  "  <FILE>  Script to compile\n" ++
  "\nOptions:\n" ++
  "  -p, --print-disasm  Print the disassembly instead of writing the compiled file\n" ++
  "      --emit <EMIT>   Print an intermediate form instead of compiling " ++
  "[possible values: ast]\n" ++
  "      --run <FN>      Run FN and print its return value\n" ++
  "      --json          Report diagnostics as JSON lines\n" ++
  "  -h, --help          Print help\n" ++
  "  -V, --version       Print version\n"

/-! ## Tasks -/

/-- What remains to be done once the file has been read. -/
inductive Task where
  | display (text : String)
  | execute (program : Program) (entry : String)
  | save (path : String) (contents : Bytes)
deriving DecidableEq, Inhabited

/-- Problems, each with its diagnostic. -/
abbrev Problems := List Diagnostic

/-- The problem that a file cannot be read or written. -/
def fileProblem (verb path : String) (e : FileError) : Problems :=
  [.error ("cannot " ++ verb ++ " " ++ path ++ ": " ++ e.message)]

/-- The problems of a source that cannot be compiled. -/
def sourceProblems (source : String) (e : CompileError) : Problems :=
  (Diagnostic.ofCompileError e).map fun d => d.withSource source

/-- The file to which the stored program of a script goes. -/
def storedPath (path : String) : String := path ++ "c"

namespace Options

/-- What remains to be done with the contents of the file. -/
def task (o : Options) (contents : Except FileError Bytes) : Except Problems Task := do
  let source ← (contents.bind Bytes.toText).mapError (fileProblem "read" o.file)
  let script ← (Script.ofSource source).mapError (sourceProblems source)
  if o.tree then
    return .display (script.document.pretty ++ "\n")
  let program ← script.compile.mapError (sourceProblems source)
  let bytes ← program.toBytes.mapError fun e => [Diagnostic.ofFormatError e]
  if o.listing then
    let reloaded ← (Program.ofBytes bytes).mapError fun e => [Diagnostic.ofFormatError e]
    return .display reloaded.listing
  match o.entry with
  | some entry => return .execute program entry
  | none => return .save (storedPath o.file) bytes

end Options

/-! ## Sessions -/

/-- The execution of one function. The state of the host is the output that has
    not been shown yet. -/
structure Session where
  machine : Machine String
  handle : Handle
  ticket : Ticket

/-- Prints the arguments as a line. -/
def printLine : HostFunction String := fun _ args p output =>
  Host.ofResult p (output ++ Value.joined args ++ "\n") (.ok p)

namespace Session

/-- Starts a function of a program. -/
def start (program : Program) (entry : String) : Except MachineError Session := do
  let m ← (Machine.new .standard "").bind "print" printLine
  let m ← m.run
  let (h, m) := m.create program
  let (r, m) := m.start h entry
  return ⟨m, h, ← r⟩

/-- One tick of the machine. -/
def tick (s : Session) : Session := { s with machine := s.machine.tick }

/-- Makes ticks until the function has ended, but not more than given. -/
def run (s : Session) (ticks : Nat) : Session :=
  { s with machine := s.machine.runUntil (·.isSettled s.ticket) ticks }

/-- Takes the output that has not been shown yet. -/
def takeOutput (s : Session) : String × Session :=
  (s.machine.host, { s with machine := { s.machine with host := "" } })

/-- The result of the function, once it has ended. -/
def result? (s : Session) : Option (Except Problems Value) :=
  match s.machine.poll s.ticket with
  | (none, _) => none
  | (some .completed, m) =>
    some (match m.takeResult s.handle with
      | .ok (v, _) => .ok (v.getD .unit)
      | .error e => .error [.ofMachineError e])
  | (some (.faulted f), _) => some (.error [.ofFault f])
  | (some .closed, _) => some (.error [.error "process was closed before it finished"])

end Session

/-! ## Whole command lines -/

/-- What a command line has written, and how it has ended. -/
structure Transcript where
  exitCode : UInt32
  output : String := ""
  errors : String := ""
deriving DecidableEq, Inhabited

/-- Problems as text: a document for each, a line long, or as for a terminal. -/
def report (json : Bool) (style : Style) (problems : Problems) : String :=
  String.join (problems.map fun d =>
    if json then d.documentLine ++ "\n" else d.terminal style)

/-- The end of a command line that has failed. -/
def failure (o : Options) (style : Style) (output : String) (problems : Problems) : Transcript :=
  { exitCode := 1, output, errors := report o.json style problems }

/-- The end of a session. -/
def Session.transcript (s : Session) (o : Options) (style : Style) : Transcript :=
  let output := s.takeOutput.1
  match s.result? with
  | none => failure o style output []
  | some (.ok v) => { exitCode := 0, output := output ++ v.text ++ "\n" }
  | some (.error problems) => failure o style output problems

/-- Does what the options ask for; a function is executed for so many ticks at
    most. -/
def Options.perform (o : Options) (style : Style) (fs : Files) (ticks : Nat) :
    Transcript × Files :=
  match o.task (fs.read o.file) with
  | .error problems => (failure o style "" problems, fs)
  | .ok (.display text) => ({ exitCode := 0, output := text }, fs)
  | .ok (.execute program entry) =>
    match Session.start program entry with
    | .error e => (failure o style "" [.ofMachineError e], fs)
    | .ok s => ((s.run ticks).transcript o style, fs)
  | .ok (.save path contents) =>
    match fs.write path contents with
    | .error e => (failure o style "" (fileProblem "write" path e), fs)
    | .ok fs => ({ exitCode := 0 }, fs)

/-- Carries out a command line. -/
def perform (args : List String) (style : Style) (fs : Files) (ticks : Nat) :
    Transcript × Files :=
  match Invocation.ofArguments args with
  | .work o => o.perform style fs ticks
  | .version => ({ exitCode := 0, output := versionText }, fs)
  | .help => ({ exitCode := 0, output := helpText }, fs)
  | .usageError => ({ exitCode := 2, errors := usageText }, fs)

end Console

end ScriptMachine
