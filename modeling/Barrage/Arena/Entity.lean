import Barrage.Level.Bounty
import Barrage.Level.Event
import Barrage.Pattern.Projectile
import Barrage.Trajectory.Flight

/-!
What there is in an arena: the player, enemies, shots and pickups, and what the level has asked to
show.
-/

namespace Barrage.Arena

open Level (GroupId)

structure Player (α : Type) where
  position : Vec α
  lives : Nat
  /-- Time for which the player cannot be hurt. -/
  recovering : α

structure Enemy (α : Type) where
  id : Nat
  enemyType : Nat
  group : GroupId
  origin : Vec α
  position : Vec α
  previous : Vec α
  hitPoints : Nat
  initialHitPoints : Nat
  /-- For how long a hit makes the enemy invincible. -/
  invincibility : α
  invincibleFor : α
  /-- Time since the current stage of the trajectory began. -/
  stageTime : α
  offscreenFor : α
  flight : Trajectory.Flight α Unit
  pattern : Pattern.Volley α
  trigger : Scheduler α
  /-- The latest pattern that the channel has delivered and that is not in force yet. -/
  mailbox : Option Pattern.Packed

inductive Owner where
  | player
  | enemy
  deriving DecidableEq, Repr

structure Shot (α : Type) where
  owner : Owner
  position : Vec α
  velocity : Vec α
  /-- Where the shot was fired. -/
  origin : Vec α
  age : α
  timeToLive : α
  texture : UInt64
  alpha : α
  motion : Pattern.ShotMotion α

/-- A reward waiting to be collected. -/
structure Pickup (α : Type) where
  position : Vec α
  kind : Char

structure Presentation (α : Type) where
  background : String
  text : Option (Level.Caption α)
  tint : Option (Level.Tint α)
  renderMode : Int × Int
  music : Option (Level.Track α)
  musicFade : Option α
  goal : Option (String × Int)

inductive Status where
  | playing
  /-- The script has come to its end. -/
  | ended
  | gameOver
  deriving DecidableEq, Repr

end Barrage.Arena

namespace Barrage

open Arena

structure Arena (α : Type) where
  world : Vec α
  player : Player α
  enemies : List (Enemy α)
  shots : List (Shot α)
  pickups : List (Pickup α)
  presentation : Presentation α
  status : Status
  score : Nat
  /-- The tempo that patterns are decoded with. -/
  tempo : α
  /-- How long an enemy may stay off the screen. -/
  grace : α
  nextId : Nat
  frame : Nat
  bounties : Level.Bounties

end Barrage
