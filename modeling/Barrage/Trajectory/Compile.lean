import Barrage.Trajectory.Effect

/-!
Compilation of trajectories. One pass over the tokens resolves their numbers in order and keeps the
current window; an opening parenthesis puts window and effects aside, and the matching closing one
turns the effects since then into a loop in the window put aside.
-/

namespace Barrage.Trajectory

/-- What a compilation has to know of the level. -/
structure Setting (α : Type) where
  tempo : α
  world : Vec α

structure Draft (α : Type) where
  stages : List (Stage α)
  effects : List (Effect α)
  window : Window α
  outer : List (Window α × List (Effect α))
  latches : Nat
  boss : Bool

variable {α : Type} [Scalar α]

namespace Draft

def blank : Draft α := ⟨[], [], Window.whole, [], 0, false⟩

def add (d : Draft α) (effect : Effect α) : Draft α := { d with effects := d.effects ++ [effect] }

/-- A later window begins `time` after the beginning of the current one and has no end. -/
def shift (d : Draft α) (time : α) (cancelling : Bool) : Draft α :=
  { d with window := ⟨d.window.start + time, Scalar.infinity, cancelling⟩ }

def last (d : Draft α) (time : α) : Draft α :=
  { d with window := { d.window with stop := d.window.start + time } }

def openBlock (d : Draft α) : Draft α :=
  { d with outer := (d.window, d.effects) :: d.outer, effects := [], window := Window.whole }

def closeBlock (d : Draft α) : Draft α :=
  match d.outer with
  | [] => d
  | (window, effects) :: outer =>
    { d with
      outer
      window
      effects := effects ++ [.loop window d.effects d.window.loopPeriod] }

def shoot (d : Draft α) (pattern : Pattern.Packed) : Draft α :=
  { d.add (.shoot d.window pattern d.latches) with latches := d.latches + 1 }

def closeStage (d : Draft α) (reward : Option Char) : Draft α :=
  { d with stages := d.stages ++ [⟨d.effects, reward⟩], effects := [], window := Window.whole }

def token (setting : Setting α) (d : Draft α) (t : Token α) : Chance (Draft α) :=
  let resolve (n : Number α) := n.resolve setting.tempo
  match t with
  | .after time => return d.shift (← resolve time) false
  | .cancelAfter time => return d.shift (← resolve time) true
  | .lasting time => return d.last (← resolve time)
  | .opening => return d.openBlock
  | .closing => return d.closeBlock
  | .linear side speed => return d.add (.motion d.window (.linear side (← resolve speed)))
  | .wave shape side start speed amplitude => do
    let start ← resolve start
    let speed ← resolve speed
    let amplitude ← resolve amplitude
    return d.add (.motion d.window (.wave shape side start speed amplitude))
  | .move x y => do
    let x ← resolve x
    let y ← resolve y
    let target : Vec α := ⟨x * setting.world.x, y * setting.world.y⟩
    return d.add (.motion d.window (.move target (d.window.stop - d.window.start)))
  | .shoot pattern => return d.shoot pattern.compile
  | .stage name => return d.closeStage name.toList.head?
  | .boss => return { d with boss := true }

def program (d : Draft α) : Program α :=
  ⟨(d.closeStage none).stages, d.boss, d.latches⟩

end Draft

def compile (setting : Setting α) (tokens : List (Token α)) : Chance (Program α) := do
  return (← tokens.foldlM (Draft.token setting) Draft.blank).program

end Barrage.Trajectory
