import Barrage.Pattern.Packed
import Barrage.Scheduler

/-!
Decoded shooting patterns. Delay digits double or halve the cadence of one beat; geometry digits
pick a point between two fixed bounds. A volley repeats a burst of shots: the burst spacing passes
between the shots of a burst, and the rest of the period after the last of them.
-/

namespace Barrage.Pattern

structure Volley (α : Type) where
  packed : Packed
  /-- Shots of a burst; a volley without shots never fires. -/
  shots : Nat
  initialDelay : α
  period : α
  burstSpacing : α
  speed : α
  angularSpeed : α
  spreadStart : α
  anglePerShot : α
  homingDeclared : Bool
  homingFrom : α
  homingTo : α
  timeToLive : α
  texture : UInt64
  deriving DecidableEq

namespace Volley

variable {α : Type} [Scalar α]

/-- The point that lies `digit` of `steps` equal steps on the way between two bounds. -/
def between (digit steps : Nat) (lower upper : α) : α :=
  lower + Scalar.ofNat digit * (upper - lower) / Scalar.ofNat steps

/-- Fully spaced bursts leave at least this much between them. -/
def minDelay : α := 1 / 100

/-- The topmost speed digit lies above the scale of the others. -/
def speedOf (digit : Nat) : α := if digit = 9 then 400 else between digit 9 10 200

/-- Homing lasts one frame at least. -/
def homingTime (digit : Nat) : α := between (digit - 1) 8 (4 / 100) 10

def decode (packed : Packed) (worldWidth tempo : α) : Volley α :=
  let fields := Fields.unpack packed
  let digit (field : Field) : Nat := (fields.digit field).val
  let shots := digit .shots
  let beat : α := if 0 < tempo then 60 / tempo else 1 / 2
  let period := beat * Scalar.doublings (digit .period) 7
  let burstSpacing :=
    if shots = 0 then 0 else between (digit .burstSpacing) 9 0 (period / Scalar.ofNat shots)
  let speed := speedOf (digit .speed)
  let arc : α := 360 * Scalar.ofNat (digit .spread) / 9
  let anglePerShot := if shots = 0 then 0 else arc / Scalar.ofNat shots
  let homingFrom := between (digit .homingStart) 9 0 40 / speed
  let homingDuration := digit .homingDuration
  { packed
    shots
    initialDelay :=
      if shots = 0 then Scalar.infinity else beat * Scalar.doublings (digit .initialDelay) 5
    period
    burstSpacing
    speed
    angularSpeed := between (digit .homingSpeed) 9 0 360
    spreadStart := (arc - anglePerShot) / 2
    anglePerShot
    homingDeclared := homingDuration != 0
    homingFrom
    homingTo := if homingDuration = 0 then Scalar.infinity else
      homingFrom + homingTime homingDuration
    timeToLive := worldWidth / speed * between (digit .timeToLive) 9 (1 / 10) 3
    texture := fields.texture }

def fires (v : Volley α) : Bool := v.shots != 0

def burstGap (v : Volley α) : α :=
  let rest := v.period - v.burstSpacing * Scalar.ofNat v.shots
  if minDelay < rest then rest else Scalar.max v.burstSpacing minDelay

/-- Delay after the shot numbered `count`. -/
def nextDelay (v : Volley α) (count : Nat) : α :=
  if v.shots = 0 then Scalar.infinity
  else if count % v.shots = 0 then v.burstGap
  else v.burstSpacing

/-- A trigger fires a shot at each firing and collects the firings. -/
def rhythm (v : Volley α) : Rhythm α (Array (Firing α)) where
  delay count _ fired := (v.nextDelay count, fired)
  act firing fired := (true, fired.push firing)

def trigger (v : Volley α) : Scheduler α := Scheduler.ofDelay v.initialDelay

/-- Heading of a shot relative to that of its burst, in degrees; shots are numbered from zero. -/
def spreadOffset (v : Volley α) (index : Nat) : α :=
  if !Scalar.isZero v.spreadStart && !Scalar.isZero v.anglePerShot then
    -v.spreadStart + v.anglePerShot * Scalar.ofNat (index % v.shots)
  else 0

end Volley

end Barrage.Pattern
