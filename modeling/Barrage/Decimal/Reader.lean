import Barrage.Decimal.Whole

/-!
Decimal fractions in text. A number is an optional sign, digits with an optional point and an
optional exponent, or one of the words for infinite and undefined values; it is rounded once to
single precision.
-/

namespace Barrage.Decimal

/-- The number `± significand * 10 ^ exponent`, or what the words stand for. -/
inductive Notation where
  | finite (negative : Bool) (significand : Nat) (exponent : Int)
  | infinite (negative : Bool)
  | undefined
  deriving DecidableEq, Repr

def spanDigits (text : List Char) : List Char × List Char := text.span Char.isDigit

def sign : List Char → Bool × List Char
  | '-' :: rest => (true, rest)
  | '+' :: rest => (false, rest)
  | text => (false, text)

def exponent? : List Char → Option Int
  | [] => some 0
  | e :: text =>
    if e = 'e' || e = 'E' then
      let (negative, digits) := sign text
      (natural? digits).map fun n => if negative then -(n : Int) else n
    else none

/-- Digits with an optional point among them, at least one digit, then the exponent part. -/
def fraction? (negative : Bool) (text : List Char) : Option Notation :=
  let (whole, rest) := spanDigits text
  let (decimals, rest) := match rest with
    | '.' :: rest => spanDigits rest
    | _ => ([], rest)
  if whole.isEmpty && decimals.isEmpty then none
  else (exponent? rest).map fun e =>
    .finite negative (value (whole ++ decimals)) (e - decimals.length)

/-- The words are read in any case. -/
def word? (negative : Bool) (text : List Char) : Option Notation :=
  match String.ofList (text.map Char.toLower) with
  | "inf" => some (.infinite negative)
  | "infinity" => some (.infinite negative)
  | "nan" => some .undefined
  | _ => none

def Notation.read? (text : List Char) : Option Notation :=
  let (negative, rest) := sign text
  fraction? negative rest <|> word? negative rest

/-- The nearest single, an even significand on a tie. -/
def Notation.toSingle : Notation → Float32
  | finite negative m e =>
    let size :=
      if 0 ≤ e then Float32.ofScientific m false e.toNat else Float32.ofScientific m true (-e).toNat
    if negative then -size else size
  | infinite negative => Float32.ofBits (if negative then 0xff800000 else 0x7f800000)
  | undefined => Float32.ofBits 0x7fc00000

def single? (text : List Char) : Option Float32 := (Notation.read? text).map Notation.toSingle

end Barrage.Decimal
