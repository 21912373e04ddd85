import ScriptMachine.Program

/-!
# Stored programs

A program is stored as bytes: five bytes that mark the format, the strings, the
names of the functions with their numbers, and the functions themselves. Numbers
are stored with the highest byte first, lengths and function numbers in four
bytes and instructions in eight; texts and tables come behind their length.

`Program.toBytes` writes a program whose tables fit together, the names in the
order of their numbers. `Program.ofBytes` reads one from the front of a sequence
of bytes; it says at which byte it stops when it fails, and it takes no notice of
what follows the program.
-/

namespace ScriptMachine

/-- A sequence of bytes. -/
abbrev Bytes := List UInt8

/-- The bytes of a text. -/
def textBytes (s : String) : Bytes := s.toUTF8.toList

namespace Program

/-- The bytes that every stored program starts with. -/
def magic : Bytes := textBytes "TRN01"

/-- The marker of a function with a body. -/
def compiledMarker : UInt8 := 1

/-- The marker of a function of another file. -/
def importedMarker : UInt8 := 2

/-! ## Writing -/

/-- The lowest `count` bytes of a natural number, the highest of them first. -/
def bigEndian : (count : Nat) → Nat → Bytes
  | 0, _ => []
  | count + 1, n => UInt8.ofNat (n / Nat.pow 256 count) :: bigEndian count n

/-- A length or a function number. -/
def lengthBytes (n : Nat) : Bytes := bigEndian 4 n

/-- A text behind its length. -/
def stringBytes (s : String) : Bytes :=
  let bytes := textBytes s
  lengthBytes bytes.length ++ bytes

/-- An instruction. -/
def instructionBytes (i : Instruction) : Bytes := bigEndian 8 i.word.toNat

/-- A function; a place that was never filled has no bytes. -/
def entryBytes : FunctionEntry → Bytes
  | .unset => []
  | .compiled body =>
    compiledMarker :: lengthBytes body.code.size ++ body.code.toList.flatMap instructionBytes
  | .imported file name => importedMarker :: stringBytes file ++ stringBytes name

/-- The stored form of a program. There must be as many names as functions, and
    every place of the function table must be filled. -/
def toBytes (p : Program) : Except FormatError Bytes :=
  if p.functions.size ≠ p.names.length then
    .error (.tableMismatch p.functions.size p.names.length)
  else
    match p.functions.findIdx? (· == .unset) with
    | some id => .error (.invalidEntry id)
    | none =>
      .ok (magic ++
        lengthBytes p.strings.size ++ p.strings.toList.flatMap stringBytes ++
        lengthBytes p.names.length ++
        p.namesById.flatMap (fun (name, id) => lengthBytes id ++ stringBytes name) ++
        p.functions.toList.flatMap entryBytes)

/-! ## Reading -/

/-- A place in a sequence of bytes. -/
structure ByteCursor where
  /-- The number of bytes taken. -/
  offset : Nat
  /-- The bytes that are left. -/
  rest : Bytes
deriving DecidableEq, Inhabited

/-- Takes bytes from a sequence, or fails. -/
abbrev ByteReader := StateT ByteCursor (Except FormatError)

namespace ByteReader

/-- The number of bytes taken so far. -/
def offset : ByteReader Nat := return (← get).offset

/-- Takes `n` bytes. -/
def bytes (n : Nat) : ByteReader Bytes := do
  let c ← get
  let taken := c.rest.take n
  if taken.length < n then
    throw (.unexpectedEnd c.offset)
  set (ByteCursor.mk (c.offset + n) (c.rest.drop n))
  return taken

/-- The natural number that bytes write, the highest first. -/
def bigEndianValue (bs : Bytes) : Nat := bs.foldl (fun n b => 256 * n + b.toNat) 0

/-- Takes a signed number of four bytes. -/
def int : ByteReader Int := return (BitVec.ofNat 32 (bigEndianValue (← bytes 4))).toInt

/-- Takes a length. -/
def length (kind : LengthKind) : ByteReader Nat := do
  let start ← offset
  let n ← int
  if n < 0 then
    throw (.negativeLength kind n start)
  return n.toNat

/-- Takes a text behind its length. -/
def string : ByteReader String := do
  let n ← length .string
  let start ← offset
  let raw ← bytes n
  match String.fromUTF8? ⟨raw.toArray⟩ with
  | some s => return s
  | none => throw (.invalidText start)

/-- Takes an instruction. -/
def instruction : ByteReader Instruction := do
  let word := BitVec.ofNat 64 (bigEndianValue (← bytes 8))
  match Instruction.ofWord word with
  | .ok i => return i
  | .error e => throw e

/-- Takes `n` things, one after the other. -/
def times {α : Type} (item : ByteReader α) : Nat → ByteReader (List α)
  | 0 => return []
  | n + 1 => do
    let first ← item
    let others ← times item n
    return first :: others

/-- Takes a name with its function number, one of `count`. -/
def name (count : Nat) : ByteReader (String × Nat) := do
  let id ← int
  let name ← string
  if id < 0 ∨ count ≤ id then
    throw (.functionIdOutOfRange id)
  return (name, id.toNat)

/-- Takes the function with number `id`. -/
def entry (id : Nat) : ByteReader FunctionEntry := do
  let start ← offset
  let marker := UInt8.ofNat (bigEndianValue (← bytes 1))
  if marker = compiledMarker then
    let count ← length .instruction
    let body := Body.ofCode (← times instruction count).toArray
    if maxLocals < body.slots then
      throw (.tooManyLocals id (body.slots - 1) maxLocals)
    return .compiled body
  else if marker = importedMarker then
    let file ← string
    let name ← string
    return .imported file name
  else
    throw (.unknownFunctionKind marker start)

/-- Takes the functions with the numbers from `id` on, `n` of them. -/
def entries (id : Nat) : (n : Nat) → ByteReader (List FunctionEntry)
  | 0 => return []
  | n + 1 => do
    let first ← entry id
    let others ← entries (id + 1) n
    return first :: others

/-- Takes a program. -/
def program : ByteReader Program := do
  let found ← bytes magic.length
  if found ≠ magic then
    throw (.badMagic found)
  let stringCount ← length .stringTable
  let strings ← times string stringCount
  let functionCount ← length .functionTable
  let names ← times (name functionCount) functionCount
  let functions ← entries 0 functionCount
  return {
    strings := strings.toArray
    functions := functions.toArray
    names := names.foldl (fun t (n, id) => t.insert n id) [] }

end ByteReader

/-- Reads the program at the front of a sequence of bytes, and says what follows
    it. -/
def readBytes (bytes : Bytes) : Except FormatError (Program × ByteCursor) :=
  ByteReader.program.run ⟨0, bytes⟩

/-- Reads the program at the front of a sequence of bytes. -/
def ofBytes (bytes : Bytes) : Except FormatError Program :=
  (readBytes bytes).map Prod.fst

/-- No file larger than this is loaded. -/
def maxFileSize : Nat := 2 * 1024 * 1024

/-- Reads a program from the contents of a file. -/
def ofFile (contents : Bytes) : Except FormatError Program :=
  let size := contents.length
  if maxFileSize < size then .error (.fileTooLarge size maxFileSize)
  else ofBytes contents

end Program

end ScriptMachine
