import Barrage.Level.Basic
import Barrage.Level.Bounty
import Barrage.Trajectory.Flight

/-!
Rehearsals: a level played without an arena. Every spawned enemy stays where it was spawned until it
is released, and can be flown, defeated and told new patterns by hand.
-/

namespace Barrage.Level

/-- A spawned enemy that nobody moves. -/
structure Performer (α : Type) where
  request : SpawnRequest α
  flight : Trajectory.Flight α Unit

structure Rehearsal (α : Type) where
  level : Level α
  world : Vec α
  /-- In order of spawning; a released enemy leaves its place empty. -/
  cast : Array (Option (Performer α))
  bounties : Bounties

namespace Rehearsal

variable {α : Type}

def performer? (r : Rehearsal α) (i : Nat) : Option (Performer α) := (r.cast[i]?).join

def setPerformer (r : Rehearsal α) (i : Nat) (p : Option (Performer α)) : Rehearsal α :=
  { r with cast := r.cast.setIfInBounds i p }

variable [Scalar α]

def start (level : Level α) (world : Vec α) : Rehearsal α := ⟨level, world, #[], .none⟩

def enroll (r : Rehearsal α) (request : SpawnRequest α) : Rehearsal α :=
  let flight := Trajectory.Flight.start request.program (Channel.carrying request.pattern)
  { r with cast := r.cast.push (some ⟨request, flight⟩), bounties := r.bounties.enroll request }

def update (r : Rehearsal α) (dt : α) : Except Fault (Rehearsal α × List (Event α)) := do
  let frame ← r.level.update r.world dt
  let requests := frame.events.filterMap Event.request?
  return (requests.foldl enroll { r with level := frame.level }, frame.events)

def updates (r : Rehearsal α) (dt : α) : Nat → Except Fault (Rehearsal α × List (Event α))
  | 0 => return (r, [])
  | n + 1 => do
    let (r, events) ← r.update dt
    let (r, later) ← updates r dt n
    return (r, events ++ later)

def release (r : Rehearsal α) (i : Nat) : Option (Rehearsal α) := do
  let _ ← r.performer? i
  return { r.setPerformer i none with level := r.level.release }

def releaseAll (r : Rehearsal α) : Rehearsal α :=
  (List.range r.cast.size).foldl (fun r i => (r.release i).getD r) r

/-- The reward that a defeat earns, and the countdown after it. -/
def defeat (r : Rehearsal α) (i : Nat) :
    Option ((Option Char × Option Countdown) × Rehearsal α) := do
  let p ← r.performer? i
  let (reward, bounties) := r.bounties.defeat p.request.group
  return ((reward, bounties.find? p.request.group), { r with bounties })

/-- The position that the flight has for an actor fresh from its spawn point. -/
def fly [Elementary α] (r : Rehearsal α) (i : Nat) (time : α) :
    Option ((Vec α × Option Pattern.Packed) × Rehearsal α) := do
  let p ← r.performer? i
  let (position, flight, _) := p.flight.update (p.request.origin r.world) time
  return ((position, flight.channel.last), r.setPerformer i (some { p with flight }))

def publish (r : Rehearsal α) (i : Nat) (pattern : Pattern.Packed) :
    Option (Bool × Rehearsal α) := do
  let p ← r.performer? i
  let publication := p.flight.channel.publish pattern
  let flight := { p.flight with channel := publication.channel }
  return (publication.changed, r.setPerformer i (some { p with flight }))

def completeStage (r : Rehearsal α) (i : Nat) :
    Option ((Option Char × Nat) × Rehearsal α) := do
  let p ← r.performer? i
  let (reward, flight) := p.flight.completeStage
  return ((reward, flight.stage), r.setPerformer i (some { p with flight }))

end Rehearsal

end Barrage.Level
