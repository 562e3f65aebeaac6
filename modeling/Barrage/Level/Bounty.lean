import Barrage.Level.Spawn

/-!
Bounties: the countdowns of the groups whose members a host has seen. Members of one group share a
countdown, and different groups never do.
-/

namespace Barrage.Level

structure Bounties where
  countdowns : List (GroupId × Countdown)

namespace Bounties

def none : Bounties := ⟨[]⟩

def find? (b : Bounties) (id : GroupId) : Option Countdown :=
  (b.countdowns.find? fun c => c.1 = id).map Prod.snd

/-- The first member of a group opens its countdown. -/
def enroll {α : Type} (b : Bounties) (r : SpawnRequest α) : Bounties :=
  if (b.find? r.group).isSome then b
  else ⟨(r.group, r.reward.countdown r.groupSize) :: b.countdowns⟩

def set (b : Bounties) (id : GroupId) (countdown : Countdown) : Bounties :=
  ⟨b.countdowns.map fun c => if c.1 = id then (id, countdown) else c⟩

def defeat (b : Bounties) (id : GroupId) : Option Char × Bounties :=
  match b.find? id with
  | some countdown =>
    let (reward, countdown) := countdown.defeat
    (reward, b.set id countdown)
  | .none => (.none, b)

end Bounties

end Barrage.Level
