import Barrage.Level.Spawn
import Barrage.Scheduler

/-!
Schedulers of a level. A repeater starts a group at each firing, and a spawner spawns the next
member of its group at each firing; both leave their pool when their action has said to stop.
-/

namespace Barrage.Level

structure Repeater (α : Type) where
  line : Nat
  period : α
  total : α
  group : Script.Group α
  scheduler : Scheduler α

/-- A group that a repeater starts, and how long before the end of the frame it was due. -/
structure Due (α : Type) where
  id : GroupId
  group : Script.Group α
  lag : α

structure Spawner (α : Type) where
  id : GroupId
  period : α
  members : List Script.Member
  factors : List α
  side : Side
  program : Trajectory.Program α
  reward : Reward
  scheduler : Scheduler α

variable {α : Type} [Scalar α]

namespace Repeater

/-- The group that starts when the total time is over is the last one. -/
def rhythm (r : Repeater α) : Rhythm α (Array (Due α)) where
  delay _ _ due := (r.period, due)
  act firing due :=
    let round := firing.count - 1
    (decide (0 < r.period) && decide (Scalar.ofNat round * r.period ≤ r.total),
      due.push ⟨⟨r.line, round⟩, r.group, firing.lag⟩)

def update (r : Repeater α) (dt : α) : Repeater α × List (Due α) :=
  let (scheduler, due) := r.scheduler.update r.rhythm #[] dt
  ({ r with scheduler }, due.toList)

def updateAll (dt : α) : List (Repeater α) → List (Repeater α) × List (Due α)
  | [] => ([], [])
  | r :: rest =>
    let (r, due) := r.update dt
    let (rest, later) := updateAll dt rest
    (if r.scheduler.running then r :: rest else rest, due ++ later)

end Repeater

namespace Spawner

def request (s : Spawner α) (index : Nat) (member : Script.Member) : SpawnRequest α :=
  let (hitPoints, invincibility) := enemyStats member.letter
  { group := s.id
    member := index
    groupSize := s.members.length
    enemyType := member.enemyType
    side := s.side
    sideFactor := sideFactor s.factors index s.members.length
    hitPoints
    invincibility
    program := s.program
    pattern := member.pattern.compile
    reward := s.reward }

def rhythm (s : Spawner α) : Rhythm α (Array (SpawnRequest α)) where
  delay _ _ spawned := (s.period, spawned)
  act firing spawned :=
    let index := firing.count - 1
    match s.members[index]? with
    | some member => (decide (index + 1 < s.members.length), spawned.push (s.request index member))
    | none => (false, spawned)

def update (s : Spawner α) (dt : α) : Spawner α × List (SpawnRequest α) :=
  let (scheduler, spawned) := s.scheduler.update s.rhythm #[] dt
  ({ s with scheduler }, spawned.toList)

def updateAll (dt : α) : List (Spawner α) → List (Spawner α) × List (SpawnRequest α)
  | [] => ([], [])
  | s :: rest =>
    let (s, spawned) := s.update dt
    let (rest, later) := updateAll dt rest
    (if s.scheduler.running then s :: rest else rest, spawned ++ later)

end Spawner

end Barrage.Level
