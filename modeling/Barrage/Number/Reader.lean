import Barrage.Number
import Barrage.Decimal.Reader

/-!
Grammar of numeric fields: a decimal fraction, or one behind the letter b, p or c, or two of them
behind the letter R with a minus between. The sign of the lower bound is part of it, so the
separator is looked for after its first character. All values have to be finite.
-/

namespace Barrage.Number

def finite? (text : List Char) : Option Float32 :=
  (Decimal.single? text).filter Float32.isFinite

def splitAtMinus (text : List Char) : Option (List Char × List Char) :=
  match text.span (· ≠ '-') with
  | (before, _ :: after) => some (before, after)
  | (_, []) => none

def range? : List Char → Option (Number Float32)
  | [] => none
  | c :: text => do
    let (before, after) ← splitAtMinus text
    return random (← finite? (c :: before)) (← finite? after)

def read? : List Char → Option (Number Float32)
  | 'R' :: text => range? text
  | 'b' :: text => (finite? text).map beats
  | 'p' :: text => (finite? text).map pi
  | 'c' :: text => (finite? text).map turn
  | text => (finite? text).map literal

end Barrage.Number
