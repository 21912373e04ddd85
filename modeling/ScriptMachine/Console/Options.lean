/-!
# Options of the command line

A command line names one file and says what is to be done with it. Options stand
before or behind the file; those with a value have it behind an equals sign or in
the next argument, which then must not look like an option; single letters can be
written together. Behind two hyphens everything is a file. Nothing may be given
twice, and an empty name is no file.

A request for help or for the version is answered as soon as it is met; what
follows it is not looked at.
-/

namespace ScriptMachine

namespace Console

/-- What a command line asks for. -/
structure Options where
  file : String
  /-- Print the listing of the program. -/
  listing : Bool := false
  /-- Print the tree of the script. -/
  tree : Bool := false
  /-- Execute this function. -/
  entry : Option String := none
  /-- Report problems as JSON documents. -/
  json : Bool := false
deriving DecidableEq, Inhabited

/-- How a command line can be understood. -/
inductive Invocation where
  | work (o : Options)
  | version
  | help
  | usageError
deriving DecidableEq, Inhabited

/-- What has been read of a command line; an option that has not been met is
    missing. -/
structure Reading where
  file : Option String := none
  listing : Option Unit := none
  tree : Option Unit := none
  entry : Option String := none
  json : Option Unit := none
deriving DecidableEq, Inhabited

/-- The options that say something about the file. -/
inductive Switch where
  | listing | tree | entry | json
deriving DecidableEq, Inhabited

namespace Switch

/-- The option with a long name. -/
def named? : String → Option Switch
  | "print-disasm" => some listing
  | "emit" => some tree
  | "run" => some entry
  | "json" => some json
  | _ => none

/-- Does the option have a value? -/
def takesValue : Switch → Bool
  | tree | entry => true
  | listing | json => false

end Switch

namespace Reading

/-- Sets what has not been set. -/
def once {α : Type} (old : Option α) (a : α) : Option (Option α) :=
  match old with
  | none => some (some a)
  | some _ => none

/-- Adds a file. -/
def addFile? (r : Reading) (name : String) : Option Reading :=
  if name.isEmpty then none
  else (once r.file name).map fun file => { r with file }

/-- Adds an option, with its value if it has one. The only tree that can be
    printed is that of the script. -/
def add? (r : Reading) (s : Switch) (value : String) : Option Reading :=
  match s with
  | .listing => (once r.listing ()).map fun listing => { r with listing }
  | .tree =>
    if value = "ast" then (once r.tree ()).map fun tree => { r with tree } else none
  | .entry => (once r.entry value).map fun entry => { r with entry }
  | .json => (once r.json ()).map fun json => { r with json }

/-- What has been read, at the end of a command line. -/
def finish (r : Reading) : Invocation :=
  match r.file with
  | none => .usageError
  | some file =>
    .work ⟨file, r.listing.isSome, r.tree.isSome, r.entry, r.json.isSome⟩

/-- Goes on with what has been read, unless there was an error. -/
def andThen (r : Option Reading) (next : Reading → Invocation) : Invocation :=
  match r with
  | some r => next r
  | none => .usageError

/-- Reads files only. -/
def files (r : Reading) : List String → Invocation
  | [] => r.finish
  | name :: rest => andThen (r.addFile? name) fun r => r.files rest

/-- Reads single letters that are written together. -/
def letters (r : Reading) (next : Reading → Invocation) : List Char → Invocation
  | [] => next r
  | 'p' :: rest => andThen (r.add? .listing "") fun r => r.letters next rest
  | 'V' :: _ => .version
  | 'h' :: _ => .help
  | _ => .usageError

end Reading

/-- The kinds of arguments. -/
inductive Argument where
  | plain (text : String)
  /-- Two hyphens. -/
  | separator
  /-- A long name, with what stands behind an equals sign. -/
  | long (name : String) (value : Option String)
  | letters (cs : List Char)
deriving DecidableEq, Inhabited

/-- The kind of an argument. A single hyphen is a name like others. -/
def Argument.ofText (text : String) : Argument :=
  match text.toList with
  | ['-', '-'] => .separator
  | '-' :: '-' :: cs =>
    let name := String.ofList (cs.takeWhile (· ≠ '='))
    match cs.dropWhile (· ≠ '=') with
    | [] => .long name none
    | _ :: value => .long name (some (String.ofList value))
  | '-' :: c :: cs => .letters (c :: cs)
  | _ => .plain text

namespace Reading

/-- Reads arguments. -/
def arguments (r : Reading) : List String → Invocation
  | [] => r.finish
  | arg :: rest =>
    match Argument.ofText arg with
    | .plain name => andThen (r.addFile? name) fun r => r.arguments rest
    | .separator => r.files rest
    | .letters cs => r.letters (fun r => r.arguments rest) cs
    | .long "version" none => .version
    | .long "help" none => .help
    | .long name value =>
      match Switch.named? name with
      | none => .usageError
      | some s =>
        match s.takesValue, value with
        | false, none => andThen (r.add? s "") fun r => r.arguments rest
        | false, some _ => .usageError
        | true, some v => andThen (r.add? s v) fun r => r.arguments rest
        | true, none =>
          match rest with
          | [] => .usageError
          | v :: rest =>
            match Argument.ofText v with
            | .plain v => andThen (r.add? s v) fun r => r.arguments rest
            | _ => .usageError

end Reading

/-- Understands a command line. -/
def Invocation.ofArguments (args : List String) : Invocation := Reading.arguments {} args

end Console

end ScriptMachine
