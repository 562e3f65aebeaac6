/-!
Whole numbers in text: ASCII digits after an optional sign, within the range of their kind.
-/

namespace Barrage.Decimal

def value (digits : List Char) : Nat :=
  digits.foldl (fun v c => v * 10 + (c.toNat - '0'.toNat)) 0

def natural? (text : List Char) : Option Nat :=
  if text.isEmpty || !text.all Char.isDigit then none else some (value text)

/-- A number without a sign or with `+`, at most `limit`. -/
def unsigned? (limit : Nat) (text : List Char) : Option Nat :=
  let digits := match text with
    | '+' :: rest => rest
    | _ => text
  (natural? digits).filter (· ≤ limit)

/-- A number with an optional sign, from `-limit - 1` up to `limit`. -/
def signed? (limit : Nat) : List Char → Option Int
  | '-' :: rest => ((natural? rest).filter (· ≤ limit + 1)).map fun n => -(n : Int)
  | text => (unsigned? limit text).map fun n => (n : Int)

end Barrage.Decimal
