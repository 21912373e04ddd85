import ScriptMachine.Program.Binary

/-!
# Files

The files from which scripts and stored programs are read, and to which stored
programs are written: a table from places to nodes, where a node is a file with
its contents or a directory. Everything lies below one directory, which has the
empty place.

A path is followed step by step (`Files.walk`). Every step needs a directory to
start from; it goes to a node of that directory, stays there, or goes up. What lies
above or beside the directory of all files is not known: it is a directory in which
nothing is found. A path that ends in a slash ends with a step that stays.

Two paths with the same `Route` are taken for the same path, without a look at the
files: empty parts and steps that stay do not matter, steps that go up do.
-/

namespace ScriptMachine

/-- Why a file cannot be read or written. -/
inductive FileError where
  | missing
  | isDirectory
  /-- The path leads through a file. -/
  | notDirectory
  | nameTooLong
  /-- The path has a character that no path may have. -/
  | zeroInName
  /-- The contents are not the bytes of a text. -/
  | notText
  /-- Any other cause, in the words of the system. -/
  | other (text : String)
deriving DecidableEq, Inhabited

namespace FileError

/-- The error in words. -/
def message : FileError → String
  | missing => "No such file or directory (os error 2)"
  | isDirectory => "Is a directory (os error 21)"
  | notDirectory => "Not a directory (os error 20)"
  | nameTooLong => "File name too long (os error 36)"
  | zeroInName => "file name contained an unexpected NUL byte"
  | notText => "stream did not contain valid UTF-8"
  | other text => text

end FileError

/-- The text with the given bytes. -/
def Bytes.toText (bytes : Bytes) : Except FileError String :=
  match String.fromUTF8? ⟨bytes.toArray⟩ with
  | some s => .ok s
  | none => .error .notText

/-! ## Paths -/

/-- The steps of a path. -/
def pathSteps (path : String) : List String :=
  (path.splitOn "/").filter (· ≠ "") ++ if path.endsWith "/" then ["."] else []

/-- No name may have more bytes than this. -/
def maxNameSize : Nat := 255

/-- A path has fewer bytes than this. -/
def maxPathSize : Nat := 4096

/-- What the form of a path alone makes impossible. -/
def checkPath (path : String) : Except FileError Unit :=
  if path.toList.contains (Char.ofNat 0) then .error .zeroInName
  else if maxPathSize ≤ path.utf8ByteSize then .error .nameTooLong
  else .ok ()

/-- The steps of a path that do not stay where they are. -/
abbrev Route := List String

namespace Route

/-- The route of a path. One that starts at the top differs from all others. -/
def ofPath (path : String) : Route :=
  (if path.startsWith "/" then ["/"] else []) ++ (pathSteps path).filter (· ≠ ".")

/-- Does the last name end in a dot and the given extension, behind something
    else? -/
def hasExtension (route : Route) (extension : String) : Bool :=
  match route.getLast? with
  | some name =>
    let ending := ("." ++ extension).toList
    ending.length < name.toList.length && ending.isSuffixOf name.toList
  | none => false

end Route

/-! ## Nodes -/

/-- A place: the names on the way down to it. -/
abbrev Place := List String

/-- What can be at a place. -/
inductive FileNode where
  | file (contents : Bytes)
  | directory
deriving DecidableEq, Inhabited

/-- All files. -/
structure Files where
  nodes : Table Place FileNode
deriving DecidableEq, Inhabited

namespace Files

/-- No files. -/
def empty : Files := ⟨[]⟩

/-- The node at a place. -/
def node? (fs : Files) : Place → Option FileNode
  | [] => some .directory
  | place => fs.nodes.get? place

/-- Puts a node at a place. -/
def put (fs : Files) (place : Place) (node : FileNode) : Files :=
  ⟨fs.nodes.insert place node⟩

/-- Puts a directory at a place, unless there is something. -/
def putDirectory (fs : Files) (place : Place) : Files :=
  if (fs.node? place).isSome then fs else fs.put place .directory

/-- Adds a node at the end of a path, and the directories on the way to it. -/
def add (fs : Files) (path : String) (node : FileNode) : Files :=
  let step (place : Place) (name : String) : Place :=
    if name = "." then place else if name = ".." then place.dropLast else place ++ [name]
  let place := (pathSteps path).foldl step []
  let above := (List.range place.length).map place.take
  (above.foldl putDirectory fs).put place node

/-! ## Walking -/

/-- The node at a place; `none` stands for the directories that are not known. -/
def nodeAt? (fs : Files) : Option Place → Option FileNode
  | none => some .directory
  | some place => fs.node? place

/-- One step from a directory. -/
def follow (fs : Files) (dir : Option Place) (step : String) : Except FileError (Option Place) :=
  if step = "." then .ok dir
  else if step = ".." then
    match dir with
    | some (name :: names) => .ok (some (name :: names).dropLast)
    | _ => .ok none
  else if maxNameSize < step.utf8ByteSize then .error .nameTooLong
  else
    match dir with
    | none => .error .missing
    | some place =>
      let next := place ++ [step]
      if (fs.node? next).isSome then .ok (some next) else .error .missing

/-- Follows steps; each of them needs a directory. -/
def walk (fs : Files) : Option Place → List String → Except FileError (Option Place)
  | here, [] => .ok here
  | here, step :: rest => do
    if fs.nodeAt? here ≠ some .directory then
      throw .notDirectory
    walk fs (← fs.follow here step) rest

/-- Where a path starts. -/
def origin (path : String) : Option Place := if path.startsWith "/" then none else some []

/-- The contents of a file. -/
def read (fs : Files) (path : String) : Except FileError Bytes := do
  checkPath path
  match fs.nodeAt? (← fs.walk (origin path) (pathSteps path)) with
  | some (.file contents) => return contents
  | some .directory => throw .isDirectory
  | none => throw .missing

/-- The text of a file. -/
def readText (fs : Files) (path : String) : Except FileError String := do
  (← fs.read path).toText

/-- Writes a file: in a directory that exists, and not in the place of one. -/
def write (fs : Files) (path : String) (contents : Bytes) : Except FileError Files := do
  checkPath path
  let steps := pathSteps path
  let dir ← fs.walk (origin path) steps.dropLast
  match fs.nodeAt? dir, dir, steps.getLast? with
  | some .directory, some place, some name =>
    match fs.follow dir name with
    | .ok found =>
      if fs.nodeAt? found = some .directory then throw .isDirectory
      else return fs.put (place ++ [name]) (.file contents)
    | .error .missing => return fs.put (place ++ [name]) (.file contents)
    | .error e => throw e
  | some .directory, _, _ => throw .missing
  | _, _, _ => throw .notDirectory

end Files

end ScriptMachine
