import Barrage.Scalar
import Mathlib

/-!
Exact numbers: the rationals, two infinite numbers and an undefined one. They follow the conventions
of the numbers that run, without rounding and without a sign of zero. What does not depend on
rounding, such as when a scheduler fires or how far a shot turns, is stated in them.
-/

namespace Barrage

inductive Exact where
  | finite (value : ℚ)
  | infinite (negative : Bool)
  | undefined
  deriving DecidableEq

namespace Exact

def neg : Exact → Exact
  | finite a => finite (-a)
  | infinite s => infinite (!s)
  | undefined => undefined

def add : Exact → Exact → Exact
  | finite a, finite b => finite (a + b)
  | finite _, infinite t => infinite t
  | infinite s, finite _ => infinite s
  | infinite s, infinite t => if s = t then infinite s else undefined
  | _, _ => undefined

def sub : Exact → Exact → Exact
  | finite a, finite b => finite (a - b)
  | a, b => add a (neg b)

/-- Zero times an infinite number is undefined. -/
def mul : Exact → Exact → Exact
  | finite a, finite b => finite (a * b)
  | finite a, infinite t => if a = 0 then undefined else infinite (decide (a < 0) != t)
  | infinite s, finite b => if b = 0 then undefined else infinite (s != decide (b < 0))
  | infinite s, infinite t => infinite (s != t)
  | _, _ => undefined

/-- A quotient by zero is infinite, with the sign of the dividend. -/
def div : Exact → Exact → Exact
  | finite a, finite b =>
    if b ≠ 0 then finite (a / b) else if a = 0 then undefined else infinite (decide (a < 0))
  | finite _, infinite _ => finite 0
  | infinite s, finite b => infinite (s != decide (b < 0))
  | _, _ => undefined

def blt : Exact → Exact → Bool
  | finite a, finite b => a < b
  | finite _, infinite t => !t
  | infinite s, finite _ => s
  | infinite s, infinite t => s && !t
  | _, _ => false

def ble : Exact → Exact → Bool
  | finite a, finite b => a ≤ b
  | finite _, infinite t => !t
  | infinite s, finite _ => s
  | infinite s, infinite t => s || !t
  | _, _ => false

def isFinite : Exact → Bool
  | finite _ => true
  | _ => false

def abs : Exact → Exact
  | finite a => finite |a|
  | infinite _ => infinite false
  | undefined => undefined

/-- The whole number next to a rational on the side of zero. -/
def wholePart (a : ℚ) : ℤ := if 0 ≤ a then ⌊a⌋ else ⌈a⌉

def remainder : Exact → Exact → Exact
  | finite a, finite b => if b = 0 then undefined else finite (a - b * wholePart (a / b))
  | finite a, infinite _ => finite a
  | _, _ => undefined

def truncate (bound : ℕ) : Exact → ℕ
  | finite a => min bound ⌊a⌋₊
  | infinite negative => if negative then 0 else bound
  | undefined => 0

instance : Scalar Exact where
  add := add
  sub := sub
  mul := mul
  div := div
  neg := neg
  lt a b := blt a b
  le a b := ble a b
  decLt _ _ := inferInstanceAs (Decidable (_ = true))
  decLe _ _ := inferInstanceAs (Decidable (_ = true))
  ofNat n := finite n
  infinity := infinite false
  isFinite := isFinite
  abs := abs
  remainder := remainder
  truncate := truncate

variable (a b : ℚ) {x : Exact}

@[simp] theorem finite_add : finite a + finite b = finite (a + b) := rfl

@[simp] theorem finite_sub : finite a - finite b = finite (a - b) := rfl

@[simp] theorem finite_mul : finite a * finite b = finite (a * b) := rfl

@[simp] theorem finite_neg : -finite a = finite (-a) := rfl

@[simp] theorem finite_div {b : ℚ} (h : b ≠ 0) : finite a / finite b = finite (a / b) := if_pos h

@[simp] theorem finite_lt : finite a < finite b ↔ a < b := decide_eq_true_iff

@[simp] theorem finite_le : finite a ≤ finite b ↔ a ≤ b := decide_eq_true_iff

@[simp] theorem ofNat_eq (n : ℕ) : (Scalar.ofNat n : Exact) = finite n := rfl

@[simp] theorem literal_eq (n : ℕ) : (OfNat.ofNat n : Exact) = finite n := rfl

@[simp] theorem isFinite_eq : Scalar.isFinite x = true ↔ ∃ q, x = finite q := by
  cases x <;> simp [Scalar.isFinite, isFinite]

end Exact

end Barrage
