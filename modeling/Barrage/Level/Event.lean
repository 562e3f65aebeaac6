import Barrage.Level.Spawn

/-!
What a level tells its host. Events reach the host in the order in which they happen.
-/

namespace Barrage.Level

structure Caption (α : Type) where
  lines : List String
  x : α
  y : α

structure Tint (α : Type) where
  red : α
  green : α
  blue : α

structure Track (α : Type) where
  path : String
  volume : α
  tempo : α

inductive Event (α : Type) where
  | background (name : String)
  | text (caption : Caption α)
  | renderMode (mode stage : Int)
  | tint (tint : Tint α)
  | playMusic (track : Track α)
  | fadeMusic (time : α)
  | goal (kind : String) (count : Int)
  | finish
  | spawn (request : SpawnRequest α)

def Event.request? {α : Type} : Event α → Option (SpawnRequest α)
  | spawn request => some request
  | _ => none

end Barrage.Level
