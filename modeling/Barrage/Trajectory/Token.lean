import Barrage.Number.Reader
import Barrage.Pattern.Mnemonic
import Barrage.Plane
import Barrage.Script.Error
import Barrage.Text.Line

/-!
Tokens of the trajectory language, one for each trailing field of a spawn line. Time tokens move the
window in which the motions after them act, motions and pattern changes take the window they stand
in, and a block in parentheses is repeated as a whole.
-/

namespace Barrage.Trajectory

open Script (Problem)

inductive Wave where
  | sine
  | cosine
  deriving DecidableEq, Repr

inductive Token (α : Type) where
  | after (time : Number α)
  | cancelAfter (time : Number α)
  | lasting (time : Number α)
  | opening
  | closing
  | linear (side : Side) (speed : Number α)
  | wave (shape : Wave) (side : Side) (start speed amplitude : Number α)
  /-- The target in fractions of the world. -/
  | move (x y : Number α)
  | shoot (pattern : Pattern.Notation)
  | stage (name : String)
  | boss
  deriving DecidableEq, Repr

namespace Token

/-- The word with a given number; the keyword of the field is word zero. -/
def word (words : List (List Char)) (keyword : String) (i : Nat) : Except Problem (List Char) :=
  match words[i]? with
  | some word => .ok word
  | none => .error (.missingField keyword (i + 1) words.length)

def number (words : List (List Char)) (keyword : String) (i : Nat) :
    Except Problem (Number Float32) := do
  let text ← word words keyword i
  match Number.read? text with
  | some number => return number
  | none => throw (.malformedNumber (String.ofList text))

def pattern (text : List Char) : Except Problem Pattern.Notation :=
  match Pattern.Notation.read? text with
  | some pattern => .ok pattern
  | none => .error (.malformedPattern (String.ofList text))

/-- The token of a field; fields without words and with unknown keywords have none. -/
def read (field : List Char) : Except Problem (Option (Token Float32)) := do
  let words := Text.words field
  let keyword := String.ofList (words.headD [])
  let number := number words keyword
  let side := Side.ofName (String.ofList (words.getD 1 []))
  match keyword with
  | "after" => return some (after (← number 1))
  | "cancelafter" => return some (cancelAfter (← number 1))
  | "for" => return some (lasting (← number 1))
  | "(" => return some opening
  | ")" => return some closing
  | "lin" => return some (linear side (← number 2))
  | "sin" => return some (wave .sine side (← number 2) (← number 3) (← number 4))
  | "cos" => return some (wave .cosine side (← number 2) (← number 3) (← number 4))
  | "move" => return some (move (← number 1) (← number 2))
  | "shoot" => return some (shoot (← pattern (← word words keyword 1)))
  | "stage" => return some (stage (String.ofList (← word words keyword 1)))
  | "boss" => return some boss
  | _ => return none

def readAll (fields : List (List Char)) : Except Problem (List (Token Float32)) := do
  return (← fields.mapM read).filterMap id

/-- Blocks have to be closed in order, and stages stand outside of them. -/
def checkNesting {α : Type} : Nat → List (Token α) → Except Problem Unit
  | depth, [] => if depth = 0 then .ok () else .error (.blocksLeftOpen depth)
  | depth, opening :: rest => checkNesting (depth + 1) rest
  | 0, closing :: _ => .error .unexpectedClose
  | depth + 1, closing :: rest => checkNesting depth rest
  | depth, stage _ :: rest =>
    if depth = 0 then checkNesting depth rest else .error .stageInsideBlock
  | depth, _ :: rest => checkNesting depth rest

def readTrajectory (fields : List (List Char)) : Except Problem (List (Token Float32)) := do
  let tokens ← readAll fields
  checkNesting 0 tokens
  return tokens

def isBoss {α : Type} : Token α → Bool
  | boss => true
  | _ => false

end Token

end Barrage.Trajectory
