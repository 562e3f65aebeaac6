import Barrage.Arena.Step
import Barrage.Level.Basic

/-!
A game: a level that is played in an arena. The level tells the arena what happens, and the arena
tells the level of every enemy that it has removed.
-/

namespace Barrage

namespace Game

/-- What moves a game on. A frame is an update of the level and a step of the arena. -/
inductive Action (α : Type) where
  | update (dt : α)
  | step (dt : α)
  | move (direction : Vec α) (dt : α)
  | fire

inductive Observation (α : Type) where
  | entry (entry : Level.Entry α)
  | event (event : Level.Event α)
  | happening (happening : Arena.Happening α)

end Game

structure Game (α : Type) where
  level : Level α
  arena : Arena α
  /-- What the arena draws from. -/
  words : Words

namespace Game

open Arena (Happening HitOutcome Enemy)

variable {α : Type} [Scalar α]

/-- A fresh level in a fresh arena with the same tempo; each of them draws from a source of its
own. -/
def start (script : List (Script.Instruction α)) (world : Vec α) (tempo grace : α)
    (levelWords arenaWords : Words) : Game α where
  level := Level.start script tempo levelWords
  arena := Arena.start world tempo grace
  words := arenaWords

def release (g : Game α) : Nat → Game α
  | 0 => g
  | n + 1 => release { g with level := g.level.release } n

def update (g : Game α) (dt : α) : Except Fault (Game α × List (Observation α)) := do
  let frame ← g.level.update g.arena.world dt
  return ({ g with level := frame.level, arena := frame.events.foldl Arena.receive g.arena },
    frame.journal.map .entry ++ frame.events.map .event)

def departures (happenings : List (Happening α)) : Nat :=
  (happenings.filter fun h => h matches .departed ..).length

def step [Elementary α] (g : Game α) (dt : α) : Except Fault (Game α × List (Observation α)) := do
  let (turn, words) ← (g.arena.step dt).run g.words
  return ({ g with arena := turn.arena, words }.release (departures turn.happenings),
    turn.happenings.map .happening)

def perform [Elementary α] (g : Game α) : Action α → Except Fault (Game α × List (Observation α))
  | .update dt => g.update dt
  | .step dt => g.step dt
  | .move direction dt => return ({ g with arena := g.arena.movePlayer direction dt }, [])
  | .fire => return ({ g with arena := g.arena.fire }, [])

def run [Elementary α] (g : Game α) : List (Action α) → Except Fault (Game α × List (Observation α))
  | [] => return (g, [])
  | action :: rest => do
    let (g, observed) ← g.perform action
    let (g, later) ← g.run rest
    return (g, observed ++ later)

def clear (g : Game α) : Game α :=
  { g with arena := { g.arena with enemies := [] } }.release g.arena.enemies.length

def remove (g : Game α) (i : Nat) : Game α :=
  if i < g.arena.enemies.length then
    { g with arena := { g.arena with enemies := g.arena.enemies.eraseIdx i } }.release 1
  else g

def setEnemy (g : Game α) (i : Nat) (e : Enemy α) : Game α :=
  { g with arena := { g.arena with enemies := g.arena.enemies.set i e } }

def hit (g : Game α) (i damage : Nat) : Option (HitOutcome × Game α) := do
  let e ← g.arena.enemies[i]?
  let (outcome, e, bounties) := e.hit damage g.arena.bounties
  return (outcome, { g.setEnemy i e with arena.bounties := bounties })

def publish (g : Game α) (i : Nat) (pattern : Pattern.Packed) : Option (Bool × Game α) := do
  let e ← g.arena.enemies[i]?
  let (changed, e) := e.publish pattern
  return (changed, g.setEnemy i e)

end Game

end Barrage
