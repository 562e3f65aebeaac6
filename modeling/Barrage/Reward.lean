import Barrage.Decimal.Whole

/-!
Rewards of spawn groups. The members of a group share one countdown; each defeat takes one off it,
and from zero on every defeat pays.
-/

namespace Barrage

inductive Condition where
  | all
  | each
  /-- From the defeat with this number on. -/
  | count (n : Nat)
  | never
  deriving DecidableEq, Repr

structure Reward where
  kind : Char
  condition : Condition
  deriving DecidableEq, Repr

/-- The word none as a whole field leaves `one` behind its first letter. -/
def Condition.read? (text : List Char) : Option Condition :=
  match String.ofList text with
  | "all" => some all
  | "each" => some each
  | "never" => some never
  | "none" => some never
  | "one" => some never
  | "" => some never
  | _ => (Decimal.unsigned? (UInt32.size - 1) text).map fun n => if n = 0 then never else count n

def Reward.read? : List Char → Option Reward
  | [] => none
  | kind :: text => (Condition.read? text).map fun condition => ⟨kind, condition⟩

structure Countdown where
  kind : Char
  /-- A countdown that never pays stands still. -/
  pays : Bool
  remaining : Int
  deriving DecidableEq, Repr

def Reward.countdown (r : Reward) (members : Int) : Countdown where
  kind := r.kind
  pays := r.condition ≠ .never
  remaining := match r.condition with
    | .all => members
    | .each => 1
    | .count n => min n members
    | .never => 0x7fffffffffffffff

def Countdown.defeat (c : Countdown) : Option Char × Countdown :=
  if c.pays then
    let remaining := c.remaining - 1
    (if remaining ≤ 0 then some c.kind else none, { c with remaining })
  else (none, c)

end Barrage
