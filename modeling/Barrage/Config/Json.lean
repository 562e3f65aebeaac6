import Barrage.Decimal.Whole

/-!
Reader for JSON texts. Numbers keep the leading digits that fit a word of 64 bits and say whether
these are all of a whole number, since readers of settings tell the two apart. A string with half of
a surrogate pair has no text. Every part of the reader gives what it has read and the rest of the
text.
-/

namespace Barrage.Config

/-- A number of the size `significand * 10 ^ exponent`, less the digits that did not fit the
significand. -/
structure JsonNumber where
  negative : Bool
  significand : Nat
  exponent : Int
  /-- Written without a point and without an exponent, and no digit is missing. -/
  whole : Bool
  deriving DecidableEq, Repr

namespace JsonNumber

/-- Takes digits behind the significand `v` until one more would exceed a word of 64 bits; gives
also how many are left. -/
def takeDigits (v : Nat) : List Char → Nat × Nat
  | [] => (v, 0)
  | c :: digits =>
    let next := v * 10 + (c.toNat - '0'.toNat)
    if next < UInt64.size then takeDigits next digits else (v, digits.length + 1)

/-- Decimals continue the significand even behind a whole part that has lost digits. -/
def ofDigits (negative : Bool) (whole decimals : List Char) (exponent : Option Int) : JsonNumber :=
  let (v, lost) := takeDigits 0 whole
  let (v, left) := takeDigits v decimals
  let places := decimals.length - left
  ⟨negative, v, exponent.getD 0 + lost - places, decimals.isEmpty && exponent.isNone && lost = 0⟩

/-- The double nearest to `10 ^ n`, for `n` up to 308. -/
def powerOfTen (n : Nat) : Float := Float.ofScientific 1 false n

/-- The size in double precision, if it is finite. The significand is rounded first and then
multiplied or divided by a power of ten, in two steps where one power is not enough; every step
rounds. -/
def double? (n : JsonNumber) : Option Float :=
  let v := n.significand.toUInt64.toFloat
  let places := n.exponent.natAbs
  if n.significand = 0 then some 0
  else if 0 ≤ n.exponent then
    if 308 < places then none
    else
      let size := v * powerOfTen places
      if size.isFinite then some size else none
  else if places ≤ 308 then some (v / powerOfTen places)
  else if places ≤ 616 then some (v / powerOfTen 308 / powerOfTen (places - 308))
  else some 0

end JsonNumber

inductive Json where
  | null
  | bool (value : Bool)
  | number (value : JsonNumber)
  | string (text : Option String)
  | array (items : List Json)
  | object (members : List (Option String × Json))

namespace Json

def isSpace (c : Char) : Bool := c = ' ' || c = '\n' || c = '\t' || c = '\r'

def skipSpace (text : List Char) : List Char := text.dropWhile isSpace

def word? : List Char → List Char → Option (List Char)
  | [], text => some text
  | c :: word, d :: text => if c = d then word? word text else none
  | _ :: _, [] => none

def digits? (text : List Char) : Option (List Char × List Char) :=
  match text.span Char.isDigit with
  | ([], _) => none
  | p => some p

/-- A whole part has no superfluous zero in front. -/
def wholePart? (text : List Char) : Option (List Char × List Char) := do
  let (digits, rest) ← digits? text
  if 1 < digits.length && digits.head? = some '0' then none else some (digits, rest)

def decimals? : List Char → Option (List Char × List Char)
  | '.' :: text => digits? text
  | text => some ([], text)

def exponent? : List Char → Option (Option Int × List Char)
  | e :: text =>
    if e = 'e' || e = 'E' then do
      let (negative, text) := match text with
        | '-' :: text => (true, text)
        | '+' :: text => (false, text)
        | _ => (false, text)
      let (digits, rest) ← digits? text
      let size : Int := Decimal.value digits
      some (some (if negative then -size else size), rest)
    else some (none, e :: text)
  | [] => some (none, [])

def number? (text : List Char) : Option (JsonNumber × List Char) := do
  let (negative, text) := match text with
    | '-' :: text => (true, text)
    | _ => (false, text)
  let (whole, text) ← wholePart? text
  let (decimals, rest) ← decimals? text
  let (exponent, rest) ← exponent? rest
  some (JsonNumber.ofDigits negative whole decimals exponent, rest)

def hexDigit? (c : Char) : Option Nat :=
  if c.isDigit then some (c.toNat - '0'.toNat)
  else if 'a' ≤ c ∧ c ≤ 'f' then some (c.toNat - 'a'.toNat + 10)
  else if 'A' ≤ c ∧ c ≤ 'F' then some (c.toNat - 'A'.toNat + 10)
  else none

def unit? : List Char → Option (Nat × List Char)
  | a :: b :: c :: d :: rest => do
    let a ← hexDigit? a
    let b ← hexDigit? b
    let c ← hexDigit? c
    let d ← hexDigit? d
    some (((a * 16 + b) * 16 + c) * 16 + d, rest)
  | _ => none

def escaped? : Char → Option Nat
  | '"' => some 34
  | '\\' => some 92
  | '/' => some 47
  | 'b' => some 8
  | 'f' => some 12
  | 'n' => some 10
  | 'r' => some 13
  | 't' => some 9
  | _ => none

/-- UTF-16 units and, from code points beyond them, whole characters. -/
def characterUnits (c : Char) : List Nat :=
  if c.toNat < 0x10000 then [c.toNat]
  else [0xd800 + (c.toNat - 0x10000) / 1024, 0xdc00 + (c.toNat - 0x10000) % 1024]

/-- The units of a string up to its closing quote; the bound is the length of the text. -/
def units? : Nat → List Char → Option (List Nat × List Char)
  | 0, _ => none
  | _, [] => none
  | bound + 1, '\\' :: 'u' :: text => do
    let (unit, text) ← unit? text
    let (units, rest) ← units? bound text
    some (unit :: units, rest)
  | bound + 1, '\\' :: c :: text => do
    let unit ← escaped? c
    let (units, rest) ← units? bound text
    some (unit :: units, rest)
  | bound + 1, c :: text =>
    if c = '"' then some ([], text)
    else if c.toNat < 32 || c = '\\' then none
    else do
      let (units, rest) ← units? bound text
      some (characterUnits c ++ units, rest)

def characters? : List Nat → Option (List Char)
  | [] => some []
  | high :: rest =>
    if high < 0xd800 || 0xe000 ≤ high then (characters? rest).map (Char.ofNat high :: ·)
    else match rest with
      | low :: rest =>
        if high < 0xdc00 ∧ 0xdc00 ≤ low ∧ low < 0xe000 then
          (characters? rest).map
            (Char.ofNat (0x10000 + (high - 0xd800) * 1024 + (low - 0xdc00)) :: ·)
        else none
      | [] => none

def string? (text : List Char) : Option (Option String × List Char) := do
  let (units, rest) ← units? (text.length + 1) text
  some ((characters? units).map String.ofList, rest)

mutual

/-- A value and what follows it. Every step into a part reads a character, so twice the length of
the text bounds the depth of the calls. -/
def value? : Nat → List Char → Option (Json × List Char)
  | 0, _ => none
  | bound + 1, text =>
    match skipSpace text with
    | 'n' :: rest => (word? "ull".toList rest).map fun rest => (null, rest)
    | 't' :: rest => (word? "rue".toList rest).map fun rest => (bool true, rest)
    | 'f' :: rest => (word? "alse".toList rest).map fun rest => (bool false, rest)
    | '"' :: rest => (string? rest).map fun (text, rest) => (string text, rest)
    | '[' :: rest =>
      match skipSpace rest with
      | ']' :: rest => some (array [], rest)
      | rest => (items? bound rest).map fun (items, rest) => (array items, rest)
    | '\x7b' :: rest =>
      match skipSpace rest with
      | '\x7d' :: rest => some (object [], rest)
      | rest => (members? bound rest).map fun (members, rest) => (object members, rest)
    | rest => (number? rest).map fun (n, rest) => (number n, rest)

def items? : Nat → List Char → Option (List Json × List Char)
  | 0, _ => none
  | bound + 1, text => do
    let (item, rest) ← value? bound text
    match skipSpace rest with
    | ']' :: rest => some ([item], rest)
    | ',' :: rest => do
      let (items, rest) ← items? bound rest
      some (item :: items, rest)
    | _ => none

def members? : Nat → List Char → Option (List (Option String × Json) × List Char)
  | 0, _ => none
  | bound + 1, text =>
    match skipSpace text with
    | '"' :: rest => do
      let (key, rest) ← string? rest
      match skipSpace rest with
      | ':' :: rest => do
        let (item, rest) ← value? bound rest
        match skipSpace rest with
        | '\x7d' :: rest => some ([(key, item)], rest)
        | ',' :: rest => do
          let (members, rest) ← members? bound rest
          some ((key, item) :: members, rest)
        | _ => none
      | _ => none
    | _ => none

end

def read? (text : List Char) : Option Json := do
  let (value, rest) ← value? (2 * text.length + 2) text
  if (skipSpace rest).isEmpty then some value else none

end Json

end Barrage.Config
