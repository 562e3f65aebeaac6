/-!
Load errors of scripts. A problem says what is wrong with a line, and an error adds the number of
the line, so that the author of the script can find it.
-/

namespace Barrage.Script

inductive Problem where
  /-- A known instruction or motion has fewer fields than it needs. -/
  | missingField (keyword : String) (expected found : Nat)
  | malformedNumber (text : String)
  | malformedPattern (text : String)
  /-- A member of a group does not begin with an enemy letter. -/
  | malformedMember (text : String)
  | blocksLeftOpen (count : Nat)
  | unexpectedClose
  | stageInsideBlock
  deriving DecidableEq, Repr

structure Error where
  /-- Lines are counted from one. -/
  line : Nat
  problem : Problem
  deriving DecidableEq, Repr

def Problem.message : Problem → String
  | missingField keyword expected found =>
    "`" ++ keyword ++ "` expects at least " ++ toString expected ++ " fields, found " ++
      toString found
  | malformedNumber text => "malformed number `" ++ text ++ "`"
  | malformedPattern text => "malformed pattern `" ++ text ++ "`"
  | malformedMember text => "malformed group member `" ++ text ++ "`"
  | blocksLeftOpen count => toString count ++ " trajectory block(s) left open"
  | unexpectedClose => "`)` without a matching `(`"
  | stageInsideBlock => "`stage` is not allowed inside a trajectory block"

def Error.message (e : Error) : String := "line " ++ toString e.line ++ ": " ++ e.problem.message

end Barrage.Script
