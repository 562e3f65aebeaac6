import Barrage.Scalar

/-!
Single precision numbers as scalars. Sums, products, quotients and square roots round once to 24
bits. Remainders are exact. Sines, cosines and angles are taken in double precision and rounded once
more, which gives the nearest single.
-/

namespace Barrage.Single

/-- Significand and binary exponent: a finite number is their sign times `significand * 2 ^
exponent`. -/
def parts (x : Float32) : Nat × Int :=
  let bits : Nat := x.toBits.toNat
  let fraction : Nat := bits % 0x800000
  let exponent : Nat := bits / 0x800000 % 0x100
  if exponent = 0 then (fraction, -149) else (fraction + 0x800000, exponent - 150)

def isNegative (x : Float32) : Bool := 0x80000000 ≤ x.toBits.toNat

def infinity : Float32 := Float32.ofBits 0x7f800000

def undefined : Float32 := Float32.ofBits 0x7fc00000

def power (e : Int) : Float32 :=
  if -126 ≤ e then Float32.ofBits (UInt32.ofNat ((e + 127).toNat * 0x800000))
  else Float32.ofBits (UInt32.ofNat (1 <<< (e + 149).toNat))

/-- On the finer of the two exponents both numbers are whole, and so is their remainder, which has
no more than 24 bits. -/
def remainder (x y : Float32) : Float32 :=
  if !x.isFinite || y.isNaN then undefined
  else if !y.isFinite then x
  else
    let (m, e) := parts x
    let (n, f) := parts y
    if n = 0 then undefined
    else
      let g := min e f
      let r := (m <<< (e - g).toNat) % (n <<< (f - g).toNat)
      let size := r.toUInt64.toFloat32 * power g
      if isNegative x then -size else size

instance : Scalar Float32 where
  decLt := Float32.decLt
  decLe := Float32.decLe
  ofNat n := n.toUInt64.toFloat32
  infinity := infinity
  isFinite := Float32.isFinite
  abs := Float32.abs
  remainder := remainder
  truncate bound x := min bound x.toUInt64.toNat

instance : Elementary Float32 where
  sqrt := Float32.sqrt
  sin x := x.toFloat.sin.toFloat32
  cos x := x.toFloat.cos.toFloat32
  atan2 y x := (Float.atan2 y.toFloat x.toFloat).toFloat32

end Barrage.Single
