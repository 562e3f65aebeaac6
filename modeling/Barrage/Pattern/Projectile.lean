import Barrage.Pattern.Volley
import Barrage.Plane
import Barrage.Random.Words

/-!
Projectiles and how they move. A projectile flies along its velocity and steers toward its target
while it is homing, or it circles a pivot on a growing spiral.
-/

namespace Barrage.Pattern

inductive Pivot where
  | emitter
  | spawnPoint
  deriving DecidableEq, Repr

inductive ShotMotion (α : Type) where
  /-- Steers after the time `start` up to and including `stop`. -/
  | homing (maxAngularSpeed start stop : α)
  | circling (emitter : Nat) (pivot : Pivot) (phase maxRadius : α)
  deriving DecidableEq, Repr

structure Projectile (α : Type) where
  position : Vec α
  velocity : Vec α
  timeToLive : α
  texture : UInt64
  alpha : α
  motion : ShotMotion α

structure Emitter (α : Type) where
  id : Nat
  position : Vec α
  /-- Where the actor was one frame earlier. -/
  previous : Vec α
  width : α

def bombThreshold : UInt64 := 127

/-- Bombs that circle the actor that fired them. -/
def circlingEmitterTexture : UInt64 := 129

/-- Bombs that circle the point they were fired from. -/
def circlingSpawnTexture : UInt64 := 130

def translucentTexture : UInt64 := 3

variable {α : Type} [Scalar α]

def ShotMotion.isHomingAt (time : α) : ShotMotion α → Bool
  | homing _ start stop => decide (start < time) && decide (time ≤ stop)
  | circling .. => false

def nearerZero (a b : α) : α := if Scalar.abs b < Scalar.abs a then b else a

/-- The turn from a heading toward a bearing along the shorter arc, no faster than `maxSpeed`; in
degrees. -/
def homingTurn (heading bearing maxSpeed dt : α) : Except Fault α :=
  let turn := bearing - heading
  let limit := Scalar.abs (maxSpeed * dt)
  Scalar.clamp (nearerZero (nearerZero turn (turn + 360)) (turn - 360)) (-limit) limit

variable [Elementary α]

/-- The velocity of a homing projectile after `dt`; at rest or on target it keeps the one it has. -/
def steer (velocity position target : Vec α) (maxSpeed dt : α) : Except Fault (Vec α) :=
  let toTarget := target - position
  if Scalar.isZero velocity.lengthSquared || Scalar.isZero toTarget.lengthSquared then .ok velocity
  else do
    let turn ← homingTurn velocity.heading toTarget.heading maxSpeed dt
    return velocity.rotate turn

/-- Place on the spiral relative to its pivot: 40 units outward and 100 degrees around in a
second. -/
def circlingOffset (time phase maxRadius : α) : Vec α :=
  Vec.rotate ⟨Scalar.min (time * 40) maxRadius, 0⟩ (phase + time * 100)

/-- Where a volley aims: at the target if it is homing, and else where its emitter is moving. An
emitter at rest aims anywhere. -/
def Volley.aim (v : Volley α) (emitter : Emitter α) (target : Vec α) : Chance (Vec α) :=
  let course :=
    if v.homingDeclared then target - emitter.position else emitter.position - emitter.previous
  if Scalar.isZero course.lengthSquared then do
    let x ← Chance.fraction
    let y ← Chance.fraction
    return ⟨1 - x * 2, 1 - y * 2⟩
  else return course

/-- The projectile of one shot; shots are numbered from zero across bursts. -/
def Volley.shoot (v : Volley α) (emitter : Emitter α) (target : Vec α) (index : Nat) :
    Chance (Option (Projectile α)) :=
  if v.shots = 0 then return none
  else
    let offset := v.spreadOffset index
    let circle (pivot : Pivot) (maxRadius : α) : Projectile α :=
      { position := emitter.position, velocity := Vec.zero, timeToLive := v.timeToLive
        texture := v.texture, alpha := 1
        motion := .circling emitter.id pivot offset maxRadius }
    if v.texture = circlingEmitterTexture then
      return some (circle .emitter (emitter.width * (3 / 2)))
    else if v.texture = circlingSpawnTexture then
      return some (circle .spawnPoint 10000)
    else do
      let course ← v.aim emitter target
      return some
        { position := emitter.position
          velocity := (course.unit.scale v.speed).rotate offset
          timeToLive := v.timeToLive
          texture := v.texture
          alpha := if v.texture = translucentTexture then 1 / 2 else 1
          motion := .homing v.angularSpeed v.homingFrom v.homingTo }

end Barrage.Pattern
