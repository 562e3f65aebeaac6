import Barrage.Channel
import Barrage.Trajectory.Effect

/-!
Flights: one actor's way through a program. A flight knows the stage it is in and which pattern
changes it has announced there; it publishes them on the channel of its actor.
-/

namespace Barrage.Trajectory

structure Flight (α τ : Type) where
  program : Program α
  stage : Nat
  latches : Array Bool
  channel : Channel τ

namespace Flight

variable {α τ : Type}

section
variable [Scalar α]

def start (program : Program α) (channel : Channel τ) : Flight α τ :=
  ⟨program, 0, program.cleared, channel⟩

/-- The position `time` seconds into the current stage; pattern changes that have become due are
published. -/
def update [Elementary α] (f : Flight α τ) (origin : Vec α) (time : α) :
    Vec α × Flight α τ × List (Delivery τ) :=
  let progress := f.program.run f.stage origin time f.latches
  let (channel, heard) := f.channel.publishAll progress.announced
  (progress.position, { f with latches := progress.latches, channel }, heard)

def isLastStage (f : Flight α τ) : Bool := f.program.stages.length ≤ f.stage + 1

/-- Goes on to the next stage and gives the reward of the one just completed; the last stage
stays. -/
def completeStage (f : Flight α τ) : Option Char × Flight α τ :=
  if f.isLastStage then (none, f)
  else
    ((f.program.stages[f.stage]?).bind Stage.reward,
      { f with stage := f.stage + 1, latches := f.program.cleared })

end

end Flight

end Barrage.Trajectory
