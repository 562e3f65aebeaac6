import Barrage.Arena.Damage

/-!
One step of an arena. Enemies fly and fire, shots fly, shots of the player meet enemies, a shot of
an enemy meets the player, pickups drift and are collected, and enemies that have been off the
screen for too long are dropped. A step without length changes nothing, nor does one after the game
is over.
-/

namespace Barrage.Arena

inductive Cause where
  | defeated
  | overstayed
  deriving DecidableEq, Repr

inductive Happening (α : Type) where
  | hit (enemy : Nat) (outcome : HitOutcome)
  | lifeLost
  | collected (kind : Char)
  | departed (enemy : Enemy α) (cause : Cause)

structure Turn (α : Type) where
  arena : Arena α
  happenings : List (Happening α)

variable {α : Type} [Scalar α]

/-- How far outside the world an entity still counts as on the screen. -/
def margin : α := 24

def within (position world : Vec α) : Bool :=
  decide (-margin ≤ position.x) && decide (position.x ≤ world.x + margin) &&
    decide (-margin ≤ position.y) && decide (position.y ≤ world.y + margin)

/-- A pattern in the mailbox comes into force; a new one is decoded and gets a fresh trigger. -/
def Enemy.rearm (e : Enemy α) (world : Vec α) (tempo : α) : Enemy α :=
  match e.mailbox with
  | none => e
  | some packed =>
    if packed = e.pattern.packed then { e with mailbox := none }
    else
      let pattern := Pattern.Volley.decode packed world.x tempo
      { e with mailbox := none, pattern, trigger := pattern.trigger }

def Shot.ofProjectile (p : Pattern.Projectile α) : Shot α where
  owner := .enemy
  position := p.position
  velocity := p.velocity
  origin := p.position
  age := 0
  timeToLive := p.timeToLive
  texture := p.texture
  alpha := p.alpha
  motion := p.motion

def enemyWidth : α := 16

def Enemy.emitter (e : Enemy α) : Pattern.Emitter α := ⟨e.id, e.position, e.previous, enemyWidth⟩

variable [Elementary α]

def Enemy.advance (e : Enemy α) (dt : α) : Enemy α :=
  let stageTime := e.stageTime + dt
  let (position, flight, heard) := e.flight.update e.origin stageTime
  { e with
    invincibleFor := Scalar.max (e.invincibleFor - dt) 0
    stageTime
    previous := e.position
    position
    flight
    mailbox := lastHeard e.mailbox heard }

def Enemy.step (e : Enemy α) (world target : Vec α) (tempo dt : α) :
    Chance (Enemy α × List (Shot α)) := do
  let e := (e.advance dt).rearm world tempo
  let (trigger, fired) := e.trigger.update e.pattern.rhythm #[] dt
  let shots ← fired.toList.mapM fun firing =>
    e.pattern.shoot e.emitter target (firing.count - 1)
  return ({ e with trigger }, (shots.filterMap fun shot => shot).map Shot.ofProjectile)

def stepEnemies (a : Arena α) (dt : α) : Chance (Arena α) := do
  let results ← a.enemies.mapM fun e => e.step a.world a.player.position a.tempo dt
  return { a with
    enemies := results.map Prod.fst
    shots := a.shots ++ results.flatMap Prod.snd }

/-- Where circling shots go whose emitter has left. -/
def parkingPosition : Vec α := ⟨-100, -100⟩

def emitterPosition? (a : Arena α) (id : Nat) : Option (Vec α) :=
  (a.enemies.find? fun e => e.id = id).map Enemy.position

def Shot.step (s : Shot α) (a : Arena α) (dt : α) : Except Fault (Shot α) := do
  let age := s.age + dt
  match s.motion with
  | .homing maxAngularSpeed _ _ =>
    let velocity ←
      if s.owner = .enemy && s.motion.isHomingAt age then
        Pattern.steer s.velocity s.position a.player.position maxAngularSpeed dt
      else pure s.velocity
    return { s with age, velocity, position := s.position + velocity.scale dt }
  | .circling emitter pivot phase maxRadius =>
    let centre := match pivot with
      | .emitter => a.emitterPosition? emitter
      | .spawnPoint => some s.origin
    let position := match centre with
      | some centre => centre + Pattern.circlingOffset age phase maxRadius
      | none => parkingPosition
    return { s with age, position }

def stepShots (a : Arena α) (dt : α) : Except Fault (Arena α) := do
  let shots ← a.shots.mapM fun s => s.step a dt
  return { a with
    shots := shots.filter fun s => decide (s.age < s.timeToLive) && within s.position a.world }

def enemyHitRadius : α := 8

def Enemy.isHitAt (e : Enemy α) (position : Vec α) : Bool :=
  0 < e.hitPoints && decide (e.position.distance position ≤ enemyHitRadius)

def scorePerHitPoint : Nat := 100

/-- The first enemy that a shot at `position` hits is hurt by it; none is where all are missed. -/
def hitFirst (position : Vec α) (bounties : Level.Bounties) :
    List (Enemy α) → Option (HitOutcome × Enemy α × List (Enemy α) × Level.Bounties)
  | [] => none
  | e :: rest =>
    if e.isHitAt position then
      let (outcome, e, bounties) := e.hit 1 bounties
      some (outcome, e, e :: rest, bounties)
    else (hitFirst position bounties rest).map fun (outcome, target, enemies, bounties) =>
      (outcome, target, e :: enemies, bounties)

def settle (a : Arena α) (target : Enemy α) (outcome : HitOutcome) : Arena α :=
  { a with
    score := match outcome with
      | .defeated _ => a.score + scorePerHitPoint * target.initialHitPoints
      | _ => a.score
    pickups := a.pickups ++ outcome.reward.toList.map fun kind => ⟨target.position, kind⟩ }

def resolveShots : List (Shot α) → Arena α → Turn α
  | [], a => ⟨{ a with shots := [] }, []⟩
  | s :: rest, a =>
    let keep (t : Turn α) : Turn α :=
      { t with arena := { t.arena with shots := s :: t.arena.shots } }
    if s.owner = .player then
      match hitFirst s.position a.bounties a.enemies with
      | none => keep (resolveShots rest a)
      | some (outcome, target, enemies, bounties) =>
        let turn := resolveShots rest ({ a with enemies, bounties }.settle target outcome)
        { turn with happenings := .hit target.id outcome :: turn.happenings }
    else keep (resolveShots rest a)

def dismiss (a : Arena α) (cause : Cause) (leaves : Enemy α → Bool) : Turn α where
  arena := { a with enemies := a.enemies.filter fun e => !leaves e }
  happenings := (a.enemies.filter leaves).map fun e => .departed e.retire cause

def resolvePlayerShots (a : Arena α) : Turn α :=
  let first := resolveShots a.shots a
  let second := first.arena.dismiss .defeated fun e => e.hitPoints = 0
  ⟨second.arena, first.happenings ++ second.happenings⟩

def playerHitRadius : α := 3

def recovery : α := 3 / 2

/-- The first shot that meets the player costs a life, unless the player is recovering. -/
def resolveEnemyShots (a : Arena α) : Turn α :=
  let meets (s : Shot α) : Bool :=
    s.owner = .enemy && decide (s.position.distance a.player.position ≤ playerHitRadius)
  if 0 < a.player.recovering || !a.shots.any meets then ⟨a, []⟩
  else
    let lives := a.player.lives - 1
    ⟨{ a with
      shots := a.shots.eraseP meets
      player := { a.player with lives, recovering := recovery }
      status := if lives = 0 then .gameOver else a.status }, [.lifeLost]⟩

def pickupRadius : α := 10

def pickupDrift : α := -30

def scorePerPickup : Nat := 250

/-- Pickups drift left; the player collects what is near, and what has left the screen is gone. -/
def stepPickups (a : Arena α) (dt : α) : Turn α :=
  let drifted := a.pickups.map fun p =>
    { p with position := { p.position with x := p.position.x + pickupDrift * dt } }
  let near (p : Pickup α) : Bool := decide (p.position.distance a.player.position ≤ pickupRadius)
  let collected := drifted.filter near
  ⟨{ a with
    pickups := drifted.filter fun p => !near p && decide (-margin ≤ p.position.x)
    score := a.score + collected.length * scorePerPickup },
    collected.map fun p => .collected p.kind⟩

def Enemy.watch (e : Enemy α) (world : Vec α) (dt : α) : Enemy α :=
  { e with offscreenFor := if within e.position world then 0 else e.offscreenFor + dt }

def dropOffscreen (a : Arena α) (dt : α) : Turn α :=
  let a := { a with enemies := a.enemies.map (Enemy.watch · a.world dt) }
  a.dismiss .overstayed fun e => !decide (e.offscreenFor ≤ a.grace)

def step (a : Arena α) (dt : α) : Chance (Turn α) :=
  if dt ≤ 0 || a.status = .gameOver then return ⟨a, []⟩
  else do
    let recovering := Scalar.max (a.player.recovering - dt) 0
    let a := { a with frame := a.frame + 1, player := { a.player with recovering } }
    let a ← a.stepEnemies dt
    let a ← monadLift (a.stepShots dt)
    let afterHits := a.resolvePlayerShots
    let afterLoss := afterHits.arena.resolveEnemyShots
    let afterPickups := afterLoss.arena.stepPickups dt
    let afterWatch := afterPickups.arena.dropOffscreen dt
    return ⟨afterWatch.arena,
      afterHits.happenings ++ afterLoss.happenings ++ afterPickups.happenings ++
        afterWatch.happenings⟩

end Barrage.Arena
