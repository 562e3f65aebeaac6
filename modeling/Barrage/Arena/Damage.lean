import Barrage.Arena.Basic

/-!
Damage. A hit on an invincible or beaten enemy is absorbed; any other hit hurts, and the hit that
takes the last hit point clears a stage of the trajectory, or defeats the enemy in its last stage.
-/

namespace Barrage.Arena

inductive HitOutcome where
  | absorbed
  | hurt
  | stageCleared (reward : Option Char)
  | defeated (reward : Option Char)
  deriving DecidableEq, Repr

def HitOutcome.reward : HitOutcome → Option Char
  | stageCleared reward => reward
  | defeated reward => reward
  | _ => none

variable {α : Type} [Scalar α]

/-- Only a defeat counts toward the bounty of the enemy's group. -/
def Enemy.hit (e : Enemy α) (damage : Nat) (bounties : Level.Bounties) :
    HitOutcome × Enemy α × Level.Bounties :=
  if 0 < e.invincibleFor || e.hitPoints = 0 then (.absorbed, e, bounties)
  else if damage < e.hitPoints then
    (.hurt, { e with hitPoints := e.hitPoints - damage, invincibleFor := e.invincibility },
      bounties)
  else if !e.flight.isLastStage then
    let (reward, flight) := e.flight.completeStage
    (.stageCleared reward,
      { e with
        flight
        hitPoints := e.initialHitPoints
        stageTime := 0
        invincibleFor := e.invincibility }, bounties)
  else
    let (reward, bounties) := bounties.defeat e.group
    (.defeated reward, { e with hitPoints := 0 }, bounties)

end Barrage.Arena
