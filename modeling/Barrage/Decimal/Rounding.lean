/-!
Decimal digits of an exact binary number. A quotient is rounded to the nearest whole number; digits
after the point and digits after the leading one are both quotients of that kind, and there a tie
goes to the even number.
-/

namespace Barrage.Decimal

/-- Where a quotient halfway between two whole numbers goes. -/
inductive Tie where
  | toEven
  | up
  deriving DecidableEq, Repr

def Tie.leavesUp : Tie → Nat → Bool
  | toEven, q => q % 2 = 1
  | up, _ => true

def roundDiv (tie : Tie) (n d : Nat) : Nat :=
  let q := n / d
  let r := n % d
  if 2 * r < d then q else if d < 2 * r then q + 1 else if tie.leavesUp q then q + 1 else q

/-- Numerator and denominator of `m * base ^ e`. -/
def scaled (base m : Nat) (e : Int) : Nat × Nat :=
  if 0 ≤ e then (m * Nat.pow base e.toNat, 1) else (m, Nat.pow base (-e).toNat)

def digitCount (n : Nat) : Nat := (Nat.toDigits 10 n).length

def leadingExponent (n d : Nat) : Int :=
  let k : Int := digitCount n - digitCount d
  let (up, down) := scaled 10 1 k
  if up * d ≤ n * down then k else k - 1

/-- `n / d` in units of `10 ^ unit`, rounded, a tie to the even number. -/
def roundTo (unit : Int) (n d : Nat) : Nat :=
  let (up, down) := scaled 10 1 (-unit)
  roundDiv .toEven (n * up) (d * down)

def leadingDigits (places n d : Nat) : Nat × Int :=
  let k := leadingExponent n d
  let q := roundTo (k - places) n d
  if q = Nat.pow 10 (places + 1) then (Nat.pow 10 places, k + 1) else (q, k)

/-- A digit, the point, the other digits, and the exponent behind the letter e. -/
def scientific (places n d : Nat) : String :=
  let (q, k) := leadingDigits places n d
  let digits := Nat.toDigits 10 q
  let point := if places = 0 then "" else "."
  String.ofList (digits.take 1) ++ point ++ String.ofList (digits.drop 1) ++ "e" ++ toString k

def fixed (places n d : Nat) : String :=
  let q := roundTo (-(places : Int)) n d
  let whole := toString (q / Nat.pow 10 places)
  if places = 0 then whole
  else
    let digits := Nat.toDigits 10 (q % Nat.pow 10 places)
    whole ++ "." ++ String.ofList (List.replicate (places - digits.length) '0' ++ digits)

end Barrage.Decimal
