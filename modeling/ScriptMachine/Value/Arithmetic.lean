import ScriptMachine.Fault

/-!
# Operations on values

The left operand decides how two numbers are combined: to an integer on the left
the right operand is made an integer, to a number with a fraction on the left the
right operand is made such a number. Integers wrap around at thirty-two bits. A
text on the left of a sum takes the text of the right operand, whatever that is.
All other combinations are faults, except that any two values can be tested for
equality: values of different types are never equal.
-/

namespace ScriptMachine

/-- The operations that combine two numbers to a number. -/
inductive Arithmetic where
  | add | sub | mul | div
deriving DecidableEq, Inhabited

namespace Arithmetic

/-- The instruction that carries out the operation. -/
def opcode : Arithmetic → Opcode
  | add => .add
  | sub => .sub
  | mul => .mul
  | div => .div

/-- The operation on integers. -/
def onInts : Arithmetic → Int32 → Int32 → Except Fault Int32
  | add, a, b => .ok (a + b)
  | sub, a, b => .ok (a - b)
  | mul, a, b => .ok (a * b)
  | div, a, b => if b = 0 then .error .divisionByZero else .ok (a / b)

/-- The operation on numbers with a fraction. -/
def onFloats : Arithmetic → Binary32 → Binary32 → Binary32
  | add => Binary32.add
  | sub => Binary32.sub
  | mul => Binary32.mul
  | div => Binary32.div

end Arithmetic

/-- The comparisons of two numbers. -/
inductive Comparison where
  | gt | lt | gte | lte
deriving DecidableEq, Inhabited

namespace Comparison

/-- The instruction that carries out the comparison. -/
def opcode : Comparison → Opcode
  | gt => .gt
  | lt => .lt
  | gte => .gte
  | lte => .lte

/-- The comparison of integers. -/
def onInts : Comparison → Int → Int → Bool
  | gt, a, b => decide (b < a)
  | lt, a, b => decide (a < b)
  | gte, a, b => decide (b ≤ a)
  | lte, a, b => decide (a ≤ b)

/-- The comparison of numbers with a fraction. -/
def onFloats (c : Comparison) : Binary32 → Binary32 → Bool := Binary32.related c.onInts

end Comparison

namespace Value

/-- The integer to which a number with a fraction is rounded: the floor of the
    number plus one half, where the sum is itself a rounded one, and the nearest
    integer of thirty-two bits if that is out of range. -/
def roundToInt (x : Binary32) : Except Fault Int32 :=
  if x.isNaN then .error .notANumber else .ok (x.add .half).floorToWord

/-- An integer as a number with a fraction. -/
def toFloat (n : Int32) : Binary32 := .ofInt n.toInt

/-- Two values combined to a number. -/
def arithmetic (op : Arithmetic) (left right : Value) : Except Fault Value :=
  match left, right with
  | int a, int b => int <$> op.onInts a b
  | int a, float y => do return int (← op.onInts a (← roundToInt y))
  | float x, float y => .ok (float (op.onFloats x y))
  | float x, int b => .ok (float (op.onFloats x (toFloat b)))
  | _, _ => .error (.typeError op.opcode left.type right.type)

/-- The sum of two values; texts are put together. -/
def add (left right : Value) : Except Fault Value :=
  match left with
  | string s => .ok (string (s ++ right.text))
  | _ => arithmetic .add left right

/-- The difference of two values. -/
def sub : Value → Value → Except Fault Value := arithmetic .sub

/-- The product of two values. -/
def mul : Value → Value → Except Fault Value := arithmetic .mul

/-- The quotient of two values. -/
def div : Value → Value → Except Fault Value := arithmetic .div

/-- Two values compared as numbers. -/
def compare (c : Comparison) (left right : Value) : Except Fault Value :=
  match left, right with
  | int a, int b => .ok (boolean (c.onInts a.toInt b.toInt))
  | int a, float y => do return boolean (c.onInts a.toInt (← roundToInt y).toInt)
  | float x, float y => .ok (boolean (c.onFloats x y))
  | float x, int b => .ok (boolean (c.onFloats x (toFloat b)))
  | _, _ => .error (.typeError c.opcode left.type right.type)

/-- Are two values equal? -/
def isEqual : Value → Value → Bool
  | int a, int b => a == b
  | float x, float y => x.eq y
  | boolean a, boolean b => a == b
  | string s, string t => s == t
  | functionRef a, functionRef b => a == b
  | unit, unit => true
  | _, _ => false

/-- The equality of two values as a value. -/
def equals (left right : Value) : Value := boolean (isEqual left right)

/-- The conjunction of two truth values. -/
def and (left right : Value) : Except Fault Value :=
  match left, right with
  | boolean a, boolean b => .ok (boolean (a && b))
  | _, _ => .error (.typeError .and left.type right.type)

/-- The disjunction of two truth values. -/
def or (left right : Value) : Except Fault Value :=
  match left, right with
  | boolean a, boolean b => .ok (boolean (a || b))
  | _, _ => .error (.typeError .or left.type right.type)

/-- The negation of a truth value. -/
def not : Value → Except Fault Value
  | boolean b => .ok (boolean (!b))
  | v => .error (.unaryTypeError .not v.type)

end Value

end ScriptMachine
