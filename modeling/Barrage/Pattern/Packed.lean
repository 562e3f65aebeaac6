/-!
Packed shooting patterns. A pattern travels as one number whose ten lowest decimal digits are the
fields of the pattern, least significant first, and whose higher digits are the texture.
-/

namespace Barrage.Pattern

structure Packed where
  code : UInt64
  deriving DecidableEq, Repr, Inhabited

inductive Field where
  | shots
  | initialDelay
  | period
  | speed
  | spread
  | burstSpacing
  | homingSpeed
  | homingStart
  | homingDuration
  | timeToLive
  | texture
  deriving DecidableEq, Repr

namespace Field

/-- Decimal place of a digit field; the texture takes all places above them. -/
def place : Field → Option (Fin 10)
  | shots => some 0
  | initialDelay => some 1
  | period => some 2
  | speed => some 3
  | spread => some 4
  | burstSpacing => some 5
  | homingSpeed => some 6
  | homingStart => some 7
  | homingDuration => some 8
  | timeToLive => some 9
  | texture => none

def all : List Field :=
  [shots, initialDelay, period, speed, spread, burstSpacing, homingSpeed, homingStart,
    homingDuration, timeToLive, texture]

end Field

abbrev Digit := Fin 10

/-- The nearest digit: numbers above nine count as nine. -/
def Digit.ofNat (n : Nat) : Digit := ⟨min n 9, by omega⟩

inductive Change where
  | set (value : UInt64)
  | increment
  | decrement
  deriving DecidableEq, Repr

structure Edit where
  field : Field
  change : Change
  deriving DecidableEq, Repr

def saturatingAdd (a b : UInt64) : UInt64 :=
  UInt64.ofNat (min (a.toNat + b.toNat) (UInt64.size - 1))

def saturatingMul (a b : UInt64) : UInt64 :=
  UInt64.ofNat (min (a.toNat * b.toNat) (UInt64.size - 1))

def texturePlace : UInt64 := 10000000000

structure Fields where
  digits : Vector Digit 10
  texture : UInt64
  deriving DecidableEq

namespace Fields

def blank : Fields := ⟨Vector.replicate 10 0, 0⟩

/-- Fields from digits in wire order; missing digits are zero. -/
def ofDigits (digits : List Nat) (texture : UInt64) : Fields where
  digits := Vector.ofFn fun i => Digit.ofNat (digits.getD i 0)
  texture

def unpack (p : Packed) : Fields where
  digits := Vector.ofFn fun i => ⟨p.code.toNat / Nat.pow 10 i.val % 10, Nat.mod_lt _ (by decide)⟩
  texture := p.code / texturePlace

def addDigits (place : UInt64) : List Digit → UInt64 → UInt64
  | [], value => value
  | d :: digits, value =>
    addDigits (place * 10) digits (saturatingAdd value (UInt64.ofNat d.val * place))

/-- A texture too large for the number makes it the largest one. -/
def pack (f : Fields) : Packed :=
  ⟨addDigits 1 f.digits.toList (saturatingMul f.texture texturePlace)⟩

def get (f : Fields) (field : Field) : UInt64 :=
  match field.place with
  | some place => UInt64.ofNat f.digits[place].val
  | none => f.texture

/-- The digit of a field, which for the texture is its lowest one. -/
def digit (f : Fields) (field : Field) : Digit :=
  match field.place with
  | some place => f.digits[place]
  | none => ⟨f.texture.toNat % 10, Nat.mod_lt _ (by decide)⟩

def set (f : Fields) (field : Field) (value : UInt64) : Fields :=
  match field.place with
  | some place => { f with digits := f.digits.set place (Digit.ofNat value.toNat) }
  | none => { f with texture := value }

/-- Increments and decrements stop at the ends of the field's range. -/
def apply (f : Fields) (edit : Edit) : Fields :=
  let current := f.get edit.field
  match edit.change with
  | .set value => f.set edit.field value
  | .increment => f.set edit.field (saturatingAdd current 1)
  | .decrement => f.set edit.field (if current = 0 then 0 else current - 1)

end Fields

end Barrage.Pattern
