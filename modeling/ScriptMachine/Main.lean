import ScriptMachine.Console

/-!
# The command

The outer layer of the command line: it reads the file, does what
`ScriptMachine.Console` says is to be done, and shows output as it comes about.
-/

namespace ScriptMachine

namespace Console

/-- The error that the system knows by a number. -/
def fileErrorOfCode (code : UInt32) (details : String) : FileError :=
  match code with
  | 2 => .missing
  | 20 => .notDirectory
  | 21 => .isDirectory
  | 36 => .nameTooLong
  | _ => .other (details ++ " (os error " ++ toString code ++ ")")

/-- An error of the system as one of a file. -/
def fileErrorOf : IO.Error → FileError
  | .noFileOrDirectory _ code details => fileErrorOfCode code details
  | .inappropriateType _ code details => fileErrorOfCode code details
  | .permissionDenied _ code details => fileErrorOfCode code details
  | .invalidArgument _ code details => fileErrorOfCode code details
  | .resourceExhausted _ code details => fileErrorOfCode code details
  | .otherError code details => fileErrorOfCode code details
  | e => .other (toString e)

/-- Reads a file. -/
def readBytes (path : String) : IO (Except FileError Bytes) := do
  match ← (IO.FS.readBinFile path).toBaseIO with
  | .ok contents => return .ok contents.toList
  | .error e => return .error (fileErrorOf e)

/-- Writes a file. -/
def writeBytes (path : String) (contents : Bytes) : IO (Except FileError Unit) := do
  match ← (IO.FS.writeBinFile path ⟨contents.toArray⟩).toBaseIO with
  | .ok _ => return .ok ()
  | .error e => return .error (fileErrorOf e)

/-- Shows a transcript. -/
def Transcript.show (t : Transcript) : IO UInt32 := do
  (← IO.getStdout).putStr t.output
  (← IO.getStdout).flush
  (← IO.getStderr).putStr t.errors
  return t.exitCode

/-- Runs a session to its end, which it may never reach. -/
partial def Session.follow (s : Session) (o : Options) (style : Style) : IO UInt32 := do
  if s.result?.isSome then
    (s.transcript o style).show
  else
    let (output, s) := s.takeOutput
    unless output.isEmpty do
      (← IO.getStdout).putStr output
      (← IO.getStdout).flush
    s.tick.follow o style

/-- Does what the options ask for. -/
def Options.run (o : Options) (style : Style) : IO UInt32 := do
  match o.task (← readBytes o.file) with
  | .error problems => (failure o style "" problems).show
  | .ok (.display text) => Transcript.show { exitCode := 0, output := text }
  | .ok (.execute program entry) =>
    match Session.start program entry with
    | .error e => (failure o style "" [.ofMachineError e]).show
    | .ok s => s.follow o style
  | .ok (.save path contents) =>
    match ← writeBytes path contents with
    | .error e => (failure o style "" (fileProblem "write" path e)).show
    | .ok _ => return 0

end Console

end ScriptMachine

/-- The command. -/
def main (args : List String) : IO UInt32 := do
  let style : ScriptMachine.Style := ⟨← (← IO.getStderr).isTty⟩
  match ScriptMachine.Console.Invocation.ofArguments args with
  | .work o => o.run style
  | _ => (ScriptMachine.Console.perform args style .empty 0).1.show
