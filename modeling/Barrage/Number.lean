import Barrage.Random.Words

/-!
Numeric fields of a script. A field is read when the script loads and resolved when its instruction
runs: beats and turns depend on the tempo in force at that moment, and random values are drawn anew
every time.
-/

namespace Barrage

inductive Number (α : Type) where
  | literal (value : α)
  /-- Uniform from `lo` up to `hi`. -/
  | random (lo hi : α)
  | beats (count : α)
  /-- A multiple of the circle number. -/
  | pi (factor : α)
  /-- The angular speed of a full turn in a number of beats. -/
  | turn (count : α)
  deriving DecidableEq, Repr

namespace Number

variable {α : Type} [Scalar α]

/-- A tempo that is not positive has beats without length. -/
def secondsPerBeat (tempo : α) : α := if 0 < tempo then 60 / tempo else 0

def resolve (tempo : α) : Number α → Chance α
  | literal value => return value
  | random lo hi => if lo < hi then Chance.uniform lo hi else return lo
  | beats count => return count * secondsPerBeat tempo
  | pi factor => return factor * Scalar.pi
  | turn count =>
    let seconds := count * secondsPerBeat tempo
    return if Scalar.isZero seconds then 0 else 2 * Scalar.pi / seconds

end Number

end Barrage
