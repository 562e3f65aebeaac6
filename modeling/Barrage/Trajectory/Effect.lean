import Barrage.Pattern.Packed
import Barrage.Plane
import Barrage.Trajectory.Token

/-!
Effects of a compiled trajectory. Each effect acts in a window of time; the effects of a stage are
applied together, in order, to a position that starts at the spawn point, and a loop applies its
body once for every whole period that has passed and once more for the rest. A pattern change is
announced once, until the time goes back before its window.
-/

namespace Barrage.Trajectory

open Pattern (Packed)

/-- Times of a window count from the beginning of its stage or block. -/
structure Window (α : Type) where
  start : α
  stop : α
  /-- After its end, a cancelling window takes the effect back instead of holding it. -/
  cancelling : Bool
  deriving DecidableEq, Repr

inductive Motion (α : Type) where
  | linear (side : Side) (speed : α)
  | wave (shape : Wave) (side : Side) (start speed amplitude : α)
  | move (target : Vec α) (duration : α)

inductive Effect (α : Type) where
  | motion (window : Window α) (motion : Motion α)
  /-- The latch remembers that the pattern has been announced. -/
  | shoot (window : Window α) (pattern : Packed) (latch : Nat)
  | loop (window : Window α) (body : List (Effect α)) (period : α)

structure Stage (α : Type) where
  effects : List (Effect α)
  /-- What defeating the actor in this stage earns. -/
  reward : Option Char

structure Program (α : Type) where
  stages : List (Stage α)
  boss : Bool
  /-- Number of pattern changes; their latches are numbered below it. -/
  latches : Nat

/-- What the effects of one moment lead to. -/
structure Progress (α : Type) where
  position : Vec α
  latches : Array Bool
  announced : List Packed

variable {α : Type} [Scalar α]

namespace Window

def whole : Window α := ⟨0, Scalar.infinity, false⟩

/-- Time since the beginning of the window, or none where the effect contributes nothing. -/
@[inline]
def localTime (w : Window α) (time : α) : Option α :=
  if time < w.start then none
  else if time < w.stop then some (time - w.start)
  else if w.cancelling then none
  else some (w.stop - w.start)

/-- A block whose last window does not end runs once. -/
def loopPeriod (w : Window α) : α :=
  if Scalar.isFinite w.stop && decide (0 < w.stop) then w.stop else Scalar.infinity

end Window

/-- Sets or clears the latch of a pattern change, and announces the pattern when the latch is first
set. -/
def Progress.change (p : Progress α) (w : Window α) (pattern : Packed) (latch : Nat) (time : α) :
    Progress α :=
  if time < w.start then { p with latches := p.latches.setIfInBounds latch false }
  else if (w.cancelling && decide (w.stop < time)) || p.latches.getD latch true then p
  else
    { p with
      latches := p.latches.setIfInBounds latch true
      announced := p.announced ++ [pattern] }

/-- Full passes of a loop that are replayed for one moment, at most. -/
def maxPasses : Nat := 100000

variable [Elementary α]

@[inline]
def Wave.height (shape : Wave) (angle : α) : α :=
  match shape with
  | .sine => Elementary.sin angle
  | .cosine => Elementary.cos angle

/-- The position after `t` seconds of a motion. -/
@[specialize]
def Motion.displace (t : α) (position : Vec α) : Motion α → Vec α
  | linear side speed => position + side.direction.scale (t * speed)
  | wave shape side start speed amplitude =>
    position + side.direction.scale (shape.height (start + t * speed) * amplitude)
  | move target duration =>
    if duration ≤ t then target else position + (target - position).scale (t / duration)

mutual

/-- While the passes of a loop are replayed, effects are not live and announce nothing. -/
@[specialize]
def Effect.apply (live : Bool) (time : α) (p : Progress α) : Effect α → Progress α
  | .motion window m =>
    match window.localTime time with
    | none => p
    | some t => { p with position := m.displace t p.position }
  | .shoot window pattern latch => if live then p.change window pattern latch time else p
  | .loop window body period =>
    match window.localTime time with
    | none => p
    | some t =>
      if Scalar.isFinite period then
        let passes := Scalar.truncate maxPasses (t / period)
        let p := Nat.repeat (fun p => Effect.applyAll false period p body) passes p
        Effect.applyAll live (t - Scalar.ofNat passes * period) p body
      else Effect.applyAll live t p body

@[specialize]
def Effect.applyAll (live : Bool) (time : α) (p : Progress α) : List (Effect α) → Progress α
  | [] => p
  | e :: rest => Effect.applyAll live time (Effect.apply live time p e) rest

end

namespace Program

def run (program : Program α) (stage : Nat) (origin : Vec α) (time : α) (latches : Array Bool) :
    Progress α :=
  match program.stages[stage]? with
  | some s => Effect.applyAll true time ⟨origin, latches, []⟩ s.effects
  | none => ⟨origin, latches, []⟩

def cleared (program : Program α) : Array Bool := Array.replicate program.latches false

def position (program : Program α) (stage : Nat) (origin : Vec α) (time : α) : Vec α :=
  (program.run stage origin time program.cleared).position

end Program

end Barrage.Trajectory
