import Barrage.Reward
import Barrage.Trajectory.Token

/-!
Instructions of a level script, one for each line. What a line cannot mean stays in the script as a
comment, so that line numbers keep their meaning.
-/

namespace Barrage.Script

/-- One enemy of a group: its type letter and the pattern it begins with. -/
structure Member where
  letter : Char
  pattern : Pattern.Notation
  deriving DecidableEq, Repr

/-- Types are numbered from the letter A. -/
def Member.enemyType (m : Member) : Nat := m.letter.toNat - 'A'.toNat

structure Group (α : Type) where
  /-- Time over which the members are spread. -/
  window : Number α
  members : List Member
  reward : Reward
  side : Side
  /-- Points along the edge, between which the members are placed. -/
  factors : List (Number α)
  trajectory : List (Trajectory.Token α)
  deriving DecidableEq, Repr

inductive Instruction (α : Type) where
  | comment
  /-- The line to go on from, counted from one. -/
  | goto (line : Nat)
  | goal (kind : String) (count : Int)
  | background (name : String)
  | renderMode (mode stage : Int)
  | playMusic (path : String) (volume tempo : Number α)
  | fadeMusic (time : Number α)
  | tint (red green blue : Number α)
  | text (lines : List String) (x y : Number α)
  | spawn (group : Group α)
  /-- Groups one after the other, with a gap between them, until a total time has passed. -/
  | spawnRepeatedly (gap total : Number α) (group : Group α)
  | wait (time : Number α)
  /-- Waits until no enemy is left, and then for the next multiple of a time. -/
  | waitUntilClear (modulus : Number α)
  | finish
  deriving DecidableEq, Repr

def Instruction.keyword {α : Type} : Instruction α → String
  | comment => "#"
  | goto _ => "goto"
  | goal .. => "goal"
  | background _ => "setting"
  | renderMode .. => "mode"
  | playMusic .. => "music play"
  | fadeMusic _ => "music fade"
  | tint .. => "tint"
  | text .. => "text"
  | spawn _ => "spawn"
  | spawnRepeatedly .. => "repeat"
  | wait _ => "wait"
  | waitUntilClear _ => "waitdefeated"
  | finish => "end"

end Barrage.Script
