/-!
Scalars of the engine: times, distances, angles and tempos. A scalar type offers the operations
below and promises no law, so every rule is written once and read twice: over single precision
numbers, which is what runs, and over exact numbers, in which the theory is stated. A number that is
not comparable with itself is undefined.
-/

namespace Barrage

/-- Arithmetic refuses two things: a random range too wide to measure, and bounds that have no
order. -/
inductive Fault where
  | unboundedRange
  | unorderedBounds
  deriving DecidableEq, Repr

class Scalar (α : Type) extends Add α, Sub α, Mul α, Div α, Neg α, LT α, LE α where
  decLt (a b : α) : Decidable (a < b)
  decLe (a b : α) : Decidable (a ≤ b)
  ofNat : Nat → α
  infinity : α
  isFinite : α → Bool
  abs : α → α
  /-- Remainder of the division truncated toward zero; it has the sign of the dividend. -/
  remainder : α → α → α
  /-- The whole part held between zero and a bound; an undefined number counts as zero. -/
  truncate (bound : Nat) : α → Nat

attribute [reducible, instance] Scalar.decLt Scalar.decLe

/-- The functions whose exact values are seldom rational; theories in exact numbers leave them
arbitrary. -/
class Elementary (α : Type) where
  sqrt : α → α
  sin : α → α
  cos : α → α
  /-- Angle of the point with the given height and width, in radians. -/
  atan2 : α → α → α

namespace Scalar

variable {α : Type} [Scalar α]

@[inline]
instance (priority := low) instOfNat (n : Nat) : OfNat α n := ⟨Scalar.ofNat n⟩

@[inline]
def isZero (x : α) : Bool := decide (x ≤ 0) && decide (0 ≤ x)

/-- The larger number; beside an undefined number, the other one. -/
@[inline]
def max (a b : α) : α :=
  if a ≤ b then b else if b ≤ a then a else if a ≤ a then a else b

@[inline]
def min (a b : α) : α :=
  if a ≤ b then a else if b ≤ a then b else if a ≤ a then a else b

/-- Holds `x` between two bounds, which have to be in order. -/
def clamp (x lo hi : α) : Except Fault α :=
  if lo ≤ hi then .ok (if x < lo then lo else if hi < x then hi else x)
  else .error .unorderedBounds

/-- Two to the power `n - bias`. -/
def doublings (n bias : Nat) : α :=
  if bias ≤ n then ofNat (Nat.pow 2 (n - bias)) else 1 / ofNat (Nat.pow 2 (bias - n))

def pi : α := ofNat 13176795 / ofNat 4194304

def radians (degrees : α) : α := degrees * (pi / 180)

/-- Multiplies by the 24 bit neighbour of `180 / π`. -/
def degrees (radians : α) : α := radians * (ofNat 15019745 / ofNat 262144)

end Scalar

end Barrage
