import Barrage.Decimal.Rounding
import Barrage.Scalar.Single

/-!
Texts of single precision numbers: with a fixed number of digits after the point, with a fixed
number of significant digits, and with the fewest digits that read back as the same number.
-/

namespace Barrage.Decimal

open Barrage.Single (parts isNegative)

def signed (x : Float32) (size : Float32 → String) : String :=
  if x.isNaN then "NaN"
  else
    let text := if x.isFinite then size x else "inf"
    if isNegative x then "-" ++ text else text

def fixedText (places : Nat) (x : Float32) : String :=
  signed x fun x =>
    let (m, e) := parts x
    let (n, d) := scaled 2 m e
    fixed places n d

def scientificText (places : Nat) (x : Float32) : String :=
  signed x fun x =>
    let (m, e) := parts x
    let (n, d) := scaled 2 m e
    if m = 0 then "0" else scientific places n d

/-- Numbers between `lower` and `upper`, the ends among them only if `closed`. -/
structure Interval where
  lower : Nat
  upper : Nat
  closed : Bool

def Interval.contains (i : Interval) (n : Nat) : Bool :=
  if i.closed then i.lower ≤ n && n ≤ i.upper else i.lower < n && n < i.upper

/-- The numbers that round to `m * 2 ^ e`, in quarters of `2 ^ e`. Below a power of two the numbers
lie twice as close. -/
def roundingInterval (m : Nat) (e : Int) : Interval where
  lower := if m = 0x800000 && e ≠ -149 then 4 * m - 1 else 4 * m - 2
  upper := 4 * m + 2
  closed := m % 2 = 0

/-- The multiples of `10 ^ unit` next to `m * 2 ^ e` that read back as it, the nearer one first. -/
def neighbours (tie : Tie) (m : Nat) (e unit : Int) : List Nat :=
  let i := roundingInterval m e
  let (twos, halves) := scaled 2 1 (e - 2)
  let (tens, tenths) := scaled 10 1 unit
  -- with a common denominator, a multiple `q` of the unit is `q * step`, and the number is `4 * m *
  -- quarter`
  let step := tens * halves
  let quarter := twos * tenths
  let v := 4 * m * quarter
  let near := roundDiv tie v step
  let far := if near * step ≤ v then near + 1 else near - 1
  let scaledInterval : Interval := ⟨i.lower * quarter, i.upper * quarter, i.closed⟩
  [near, far].filter fun q => scaledInterval.contains (q * step)

/-- Fewest digits that read back: tries one digit, then two, up to nine, which always suffice. -/
def shortestFrom (tie : Tie) (m : Nat) (e leading : Int) : Nat → Nat × Int
  | 0 => (roundTo (leading - 8) (scaled 2 m e).1 (scaled 2 m e).2, leading - 8)
  | more + 1 =>
    let unit := leading - 8 + more
    match neighbours tie m e unit with
    | q :: _ => (q, unit)
    | [] => shortestFrom tie m e leading more

def dropZeros : Nat → Nat × Int → Nat × Int
  | 0, p => p
  | n + 1, (q, k) => if q % 10 = 0 then dropZeros n (q / 10, k + 1) else (q, k)

/-- The positive number `m * 2 ^ e` as digits and the exponent of the last one. -/
def shortest (tie : Tie) (m : Nat) (e : Int) : Nat × Int :=
  let (n, d) := scaled 2 m e
  dropZeros 9 (shortestFrom tie m e (leadingExponent n d) 9)

/-- How the fewest digits are chosen and laid out. -/
structure ShortestStyle where
  /-- From the lowest to the highest leading exponent digits are written in place; all others take
  an exponent. -/
  lowest : Int
  highest : Int
  /-- A positive exponent has a sign. -/
  plus : Bool
  /-- The choice between two numbers of the same length that lie equally near. -/
  tie : Tie

def ShortestStyle.exponentText (style : ShortestStyle) (e : Int) : String :=
  (if style.plus && 0 ≤ e then "e+" else "e") ++ toString e

/-- Numbers in place always show a point; numbers with an exponent show it only between digits. -/
def shortestText (style : ShortestStyle) (x : Float32) : String :=
  signed x fun x =>
    let (m, e) := parts x
    if m = 0 then "0.0"
    else
      let (q, k) := shortest style.tie m e
      let digits := Nat.toDigits 10 q
      let leading := k + digits.length - 1
      let zeros (n : Int) := List.replicate n.toNat '0'
      if style.lowest ≤ leading && leading ≤ style.highest then
        if 0 ≤ k then String.ofList (digits ++ zeros k) ++ ".0"
        else if leading < 0 then "0." ++ String.ofList (zeros (-leading - 1) ++ digits)
        else
          let whole := (leading + 1).toNat
          String.ofList (digits.take whole) ++ "." ++ String.ofList (digits.drop whole)
      else
        let point := if digits.length = 1 then "" else "."
        String.ofList (digits.take 1) ++ point ++ String.ofList (digits.drop 1) ++
          style.exponentText leading

end Barrage.Decimal
