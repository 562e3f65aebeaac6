import Barrage.Arena.Entity
import Barrage.Decimal.Single

/-!
Descriptions of schedulers, channels and enemies for those who look for faults in a level.
-/

namespace Barrage.Report

/-- Numbers are written in place from ten thousandths up to sixteen digits; of two equally near ones
the larger counts. -/
def numberStyle : Decimal.ShortestStyle where
  lowest := -4
  highest := 15
  plus := false
  tie := .up

def number (x : Float32) : String := Decimal.shortestText numberStyle x

def record (name : String) (fields : List (String × String)) : String :=
  let texts := fields.map fun (field, value) => field ++ ": " ++ value
  name ++ " \x7b " ++ String.intercalate ", " texts ++ " \x7d"

def pattern (p : Pattern.Packed) : String := "PackedPattern(" ++ toString p.code ++ ")"

def scheduler (s : Scheduler Float32) : String :=
  record "PeriodicAction"
    [("delay", number s.delay), ("window", number s.window), ("total", number s.total),
      ("count", toString s.count), ("last", toString s.running)]

def channel {τ : Type} (c : Channel τ) : String :=
  let last := match c.last with
    | some p => "Some(" ++ pattern p ++ ")"
    | none => "None"
  let keys := c.listeners.map fun l => toString l.1
  record "PatternChannel" [("last", last),
    ("subscribers", "[" ++ String.intercalate ", " keys ++ "]")]

def enemy (e : Arena.Enemy Float32) : String :=
  let position := "Vec2(" ++ number e.position.x ++ ", " ++ number e.position.y ++ ")"
  record "Enemy"
    [("id", toString e.id), ("enemy_type", toString e.enemyType), ("position", position),
      ("hit_points", toString e.hitPoints), ("stage", toString e.flight.stage),
      ("pattern", pattern e.pattern.packed)]

end Barrage.Report
