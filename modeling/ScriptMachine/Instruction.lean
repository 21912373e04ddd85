import ScriptMachine.FormatError
import ScriptMachine.Text.Shown

/-!
# Instructions

An instruction is an operation with fifty-six bits of payload. It is stored as a
word of sixty-four bits, the code of the operation in the highest byte and the
payload below it. What the payload means depends on the operation: a signed
integer, the bits of a number with a fraction, or an index (of a slot, a string,
a function, an instruction to jump to, or a number of arguments); each of these
takes the lowest thirty-two bits.
-/

namespace ScriptMachine

/-- The operations of a process. -/
inductive Opcode where
  | nop | pushInt | pushFloat | pushString | pushBool
  | add | sub | mul | div | not | and | or
  | gt | lt | gte | lte | eq
  | jumpIf | jumpUnless | jump
  | external | call | pushFunction | getLocal | setLocal | ret | pushUnit
  /-- An operation that no process can carry out. -/
  | invalid
deriving DecidableEq, Inhabited

namespace Opcode

/-- All operations. -/
def all : List Opcode :=
  [nop, pushInt, pushFloat, pushString, pushBool, add, sub, mul, div, not, and, or, gt, lt, gte,
   lte, eq, jumpIf, jumpUnless, jump, external, call, pushFunction, getLocal, setLocal, ret,
   pushUnit, invalid]

/-- The code of an operation in a stored instruction. -/
def code : Opcode → BitVec 8
  | nop => 0
  | pushInt => 1
  | pushFloat => 2
  | pushString => 3
  | pushBool => 4
  | add => 5
  | sub => 6
  | mul => 7
  | div => 8
  | not => 9
  | and => 10
  | or => 11
  | gt => 12
  | lt => 13
  | gte => 14
  | lte => 15
  | eq => 16
  | jumpIf => 17
  | jumpUnless => 18
  | jump => 19
  | external => 20
  | call => 21
  | pushFunction => 22
  | getLocal => 23
  | setLocal => 24
  | ret => 25
  | pushUnit => 26
  | invalid => 127

/-- The operation with the given code. -/
def ofCode? (c : BitVec 8) : Option Opcode := all.find? (·.code == c)

/-- The name of an operation in listings. -/
def mnemonic : Opcode → String
  | nop => "NOP"
  | pushInt => "PUSHI"
  | pushFloat => "PUSHF"
  | pushString => "PUSHS"
  | pushBool => "PUSHB"
  | add => "ADD"
  | sub => "SUB"
  | mul => "MUL"
  | div => "DIV"
  | not => "NOT"
  | and => "AND"
  | or => "OR"
  | gt => "GT"
  | lt => "LT"
  | gte => "GTE"
  | lte => "LTE"
  | eq => "EQ"
  | jumpIf => "JE"
  | jumpUnless => "JNE"
  | jump => "J"
  | external => "EXT"
  | call => "CALL"
  | pushFunction => "PUSHFNREF"
  | getLocal => "GETL"
  | setLocal => "SETL"
  | ret => "RETN"
  | pushUnit => "PUSHUNIT"
  | invalid => "INVALID_OP"

/-- The operation with the given name. -/
def ofMnemonic? (name : String) : Option Opcode := all.find? (·.mnemonic == name)

/-- Does the operation move control to the index in its payload? -/
def isJump : Opcode → Bool
  | jumpIf | jumpUnless | jump => true
  | _ => false

/-- Does the operation read or write the local slot in its payload? -/
def isLocalAccess : Opcode → Bool
  | getLocal | setLocal => true
  | _ => false

end Opcode

/-- An operation and its payload. -/
structure Instruction where
  opcode : Opcode
  data : BitVec 56
deriving DecidableEq, Inhabited

namespace Instruction

/-- The instruction that carries the lowest fifty-six bits of an integer. -/
def ofInt (opcode : Opcode) (data : Int) : Instruction := ⟨opcode, BitVec.ofInt 56 data⟩

/-- The instruction that carries an index. -/
def ofNat (opcode : Opcode) (index : Nat) : Instruction := ⟨opcode, BitVec.ofNat 56 index⟩

/-- The instruction without payload. -/
def bare (opcode : Opcode) : Instruction := ⟨opcode, 0⟩

/-- The instruction that carries the bits of a number. -/
def ofFloat (opcode : Opcode) (x : Binary32) : Instruction := ⟨opcode, x.bits.setWidth 56⟩

/-- The same operation with another payload. -/
def setData (i : Instruction) (data : Int) : Instruction := ofInt i.opcode data

/-- The payload as a signed integer. -/
def int (i : Instruction) : Int32 := Int32.ofBitVec (i.data.setWidth 32)

/-- The payload as a number with a fraction. -/
def float (i : Instruction) : Binary32 := ⟨i.data.setWidth 32⟩

/-- The payload as an index. -/
def index (i : Instruction) : Nat := (i.data.setWidth 32).toNat

/-- The stored form of the instruction. -/
def word (i : Instruction) : BitVec 64 := i.opcode.code ++ i.data

/-- The instruction that is stored as the given word. -/
def ofWord (w : BitVec 64) : Except FormatError Instruction :=
  let code : BitVec 8 := w.extractLsb' 56 8
  match Opcode.ofCode? code with
  | some opcode => .ok ⟨opcode, w.setWidth 56⟩
  | none => .error (.unknownOpcode code.toNat)

/-- The instruction in a listing. -/
def text (i : Instruction) : String :=
  i.opcode.mnemonic ++ " " ++
    match i.opcode with
    | .pushFloat => Text.shown i.float
    | .pushInt => toString i.int.toInt
    | _ => toString i.data.toNat

end Instruction

end ScriptMachine
