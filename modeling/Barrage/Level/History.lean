import Barrage.Level.Basic

/-!
Histories of a level: the calls that a host makes on it, one after the other, and all that happens
meanwhile.
-/

namespace Barrage.Level

inductive Call (α : Type) where
  /-- A frame in a world of the given size. -/
  | update (world : Vec α) (dt : α)
  | release

variable {α : Type} [Scalar α]

def call (l : Level α) : Call α → Except Fault (Frame α)
  | .update world dt => l.update world dt
  | .release => return ⟨l.release, [], []⟩

def run (l : Level α) : List (Call α) → Except Fault (Frame α)
  | [] => return ⟨l, [], []⟩
  | c :: rest => do
    let first ← l.call c
    return (← first.level.run rest).behind first.journal first.events

end Barrage.Level
