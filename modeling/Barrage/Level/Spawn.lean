import Barrage.Script.Instruction
import Barrage.Trajectory.Effect

/-!
Spawn requests: everything that a host has to know to put one enemy on screen. The members of a
group are placed along an edge of the world, between the points that the group names.
-/

namespace Barrage.Level

/-- The groups that a line starts are numbered from zero. -/
structure GroupId where
  line : Nat
  round : Nat
  deriving DecidableEq, Repr

structure SpawnRequest (α : Type) where
  group : GroupId
  /-- Index of the enemy in its group. -/
  member : Nat
  groupSize : Nat
  enemyType : Nat
  side : Side
  /-- Position along the side as a fraction of its length. -/
  sideFactor : α
  hitPoints : Nat
  invincibility : α
  program : Trajectory.Program α
  /-- The pattern that the enemy begins with. -/
  pattern : Pattern.Packed
  reward : Reward

variable {α : Type} [Scalar α]

def SpawnRequest.origin (r : SpawnRequest α) (world : Vec α) : Vec α :=
  r.side.point r.sideFactor world

def enemyStats : Char → Nat × α
  | 'C' => (2, 1)
  | 'D' => (3, 1)
  | 'E' => (30, 0)
  | 'F' => (50, 0)
  | _ => (1, 0)

/-- The point of one of `members` members: the first member stands at the first factor, the last at
the last, and the others between the two factors next to them. Without factors all stand in the
middle. -/
def sideFactor (factors : List α) (index members : Nat) : α :=
  match factors with
  | [] => 1 / 2
  | [only] => only
  | first :: _ =>
    if members ≤ 1 then first
    else
      let last := factors.length - 1
      let position := Scalar.ofNat index / Scalar.ofNat (members - 1) * Scalar.ofNat last
      let lower := Scalar.truncate last position
      let factor (i : Nat) := factors.getD i 0
      if lower = last then factor last
      else factor lower + (factor (lower + 1) - factor lower) * (position - Scalar.ofNat lower)

end Barrage.Level
