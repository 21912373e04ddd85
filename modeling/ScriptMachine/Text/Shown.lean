import ScriptMachine.Binary32.Decimal
import ScriptMachine.Text.Quoted

/-!
# Numbers in listings and messages

Listings, messages about tokens and dumps of a process show a number with a
fraction in one way: positionally from a ten-thousandth to below ten
quadrillions, otherwise scientifically with as short an exponent as possible.
-/

namespace ScriptMachine.Text

/-- The layout of numbers in listings and messages. -/
def shownLayout : Binary32.Layout where
  least := -4
  greatest := 15
  wholeMantissa := ""
  upwards := "e"
  downwards := "e-"
  tie := .up
  infinite := "inf"
  negativeInfinite := "-inf"
  notANumber := "NaN"

/-- A number in a listing or message. -/
def shown (x : Binary32) : String := shownLayout.render x

end ScriptMachine.Text
