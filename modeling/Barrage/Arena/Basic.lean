import Barrage.Arena.Entity

/-!
Opening an arena, what the level's events do to it, and the player's part. An enemy listens on its
own channel under its own identity, and identities are never used again.
-/

namespace Barrage.Arena

variable {α : Type} [Scalar α]

def start (world : Vec α) (tempo grace : α) : Arena α where
  world
  player := ⟨⟨world.x * (15 / 100), world.y * (1 / 2)⟩, 3, 0⟩
  enemies := []
  shots := []
  pickups := []
  presentation := ⟨"", none, none, (0, 0), none, none, none⟩
  status := .playing
  score := 0
  tempo
  grace
  nextId := 0
  frame := 0
  bounties := .none

/-- The pattern heard last, or the one that was waiting before. -/
def lastHeard (waiting : Option Pattern.Packed) (heard : List (Delivery Unit)) :
    Option Pattern.Packed :=
  (heard.getLast?.map Delivery.pattern).or waiting

/-- A new enemy stands at its spawn point; what its channel carries is its pattern from the
start. -/
def Enemy.spawn (id : Nat) (world : Vec α) (tempo : α) (r : Level.SpawnRequest α) : Enemy α :=
  let origin := r.origin world
  let (channel, heard) := (Channel.carrying r.pattern).subscribe id ()
  let pattern := Pattern.Volley.decode ((lastHeard none heard).getD ⟨0⟩) world.x tempo
  { id
    enemyType := r.enemyType
    group := r.group
    origin
    position := origin
    previous := origin
    hitPoints := r.hitPoints
    initialHitPoints := r.hitPoints
    invincibility := r.invincibility
    invincibleFor := 0
    stageTime := 0
    offscreenFor := 0
    flight := Trajectory.Flight.start r.program channel
    pattern
    trigger := pattern.trigger
    mailbox := none }

def Enemy.retire (e : Enemy α) : Enemy α :=
  { e with flight := { e.flight with channel := e.flight.channel.unsubscribe e.id } }

def Enemy.publish (e : Enemy α) (pattern : Pattern.Packed) : Bool × Enemy α :=
  let publication := e.flight.channel.publish pattern
  (publication.changed,
    { e with
      flight := { e.flight with channel := publication.channel }
      mailbox := lastHeard e.mailbox publication.heard })

def receive (a : Arena α) : Level.Event α → Arena α
  | .background name => { a with presentation := { a.presentation with background := name } }
  | .text caption => { a with presentation := { a.presentation with text := some caption } }
  | .renderMode mode stage =>
    { a with presentation := { a.presentation with renderMode := (mode, stage) } }
  | .tint tint => { a with presentation := { a.presentation with tint := some tint } }
  | .playMusic track =>
    { a with
      tempo := track.tempo
      presentation := { a.presentation with music := some track, musicFade := none } }
  | .fadeMusic time => { a with presentation := { a.presentation with musicFade := some time } }
  | .goal kind count =>
    { a with presentation := { a.presentation with goal := some (kind, count) } }
  | .finish => { a with status := .ended }
  | .spawn request =>
    { a with
      enemies := a.enemies ++ [Enemy.spawn a.nextId a.world a.tempo request]
      nextId := a.nextId + 1
      bounties := a.bounties.enroll request }

def playerSpeed : α := 120

def movePlayer [Elementary α] (a : Arena α) (direction : Vec α) (dt : α) : Arena α :=
  let step := (direction.unit.scale playerSpeed).scale dt
  { a with player := { a.player with position := (a.player.position + step).clampTo a.world } }

def maxPlayerShots : Nat := 6

def playerShot (position : Vec α) : Shot α where
  owner := .player
  position
  velocity := ⟨240, 0⟩
  origin := position
  age := 0
  timeToLive := 2
  texture := 0
  alpha := 1
  motion := .homing 0 0 0

def fire (a : Arena α) : Arena α :=
  if maxPlayerShots ≤ (a.shots.filter fun s => s.owner = .player).length then a
  else { a with shots := a.shots ++ [playerShot a.player.position] }

end Barrage.Arena
