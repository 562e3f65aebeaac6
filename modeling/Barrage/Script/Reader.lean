import Barrage.Script.Instruction

/-!
Grammar of level scripts. A line is a keyword and its arguments, separated by two spaces. Reading a
script fails at the first line with a problem; unknown keywords are no problem.
-/

namespace Barrage.Script

open Trajectory (Token)

/-- A numeric field; blanks around it do not count. -/
def readNumber (field : List Char) : Except Problem (Number Float32) :=
  match Number.read? (Text.trim field) with
  | some number => .ok number
  | none => .error (.malformedNumber (String.ofList field))

def readLineNumber (field : List Char) : Except Problem Nat :=
  match Decimal.unsigned? (UInt64.size - 1) (Text.trim field) with
  | some n => .ok n
  | none => .error (.malformedNumber (String.ofList field))

def readInteger (field : List Char) : Except Problem Int :=
  match Decimal.signed? (UInt32.size / 2 - 1) (Text.trim field) with
  | some n => .ok n
  | none => .error (.malformedNumber (String.ofList field))

def Member.read : List Char → Except Problem Member
  | [] => .error (.malformedMember "")
  | letter :: rest =>
    if letter.isUpper then do
      let pattern ← Token.pattern rest
      return ⟨letter, pattern⟩
    else .error (.malformedMember (String.ofList (letter :: rest)))

def readReward (field : List Char) : Except Problem Reward :=
  match Reward.read? field with
  | some reward => .ok reward
  | none => .error (.malformedNumber (String.ofList field))

def Group.read (window members reward side factors : List Char) (trajectory : List (List Char)) :
    Except Problem (Group Float32) := do
  let window ← readNumber window
  let members ← (Text.words members).mapM Member.read
  let reward ← readReward reward
  let factors ← (Text.words factors).mapM readNumber
  let trajectory ← Token.readTrajectory trajectory
  return { window, members, reward, side := Side.ofName (String.ofList side), factors, trajectory }

def missing {β : Type} (keyword : String) (expected : Nat) (args : List (List Char)) :
    Except Problem β :=
  .error (.missingField keyword expected args.length)

def defaultTrackTempo : Number Float32 := .literal 120

def readMusic (args : List (List Char)) : Except Problem (Instruction Float32) :=
  match args with
  | [] => missing "music" 1 args
  | command :: rest =>
    match String.ofList command, rest with
    | "play", path :: volume :: more => do
      let tempo ← match more with
        | [] => pure defaultTrackTempo
        | tempo :: _ => readNumber tempo
      return .playMusic (String.ofList path) (← readNumber volume) tempo
    | "play", _ => missing "music play" 3 args
    | "fade", time :: _ => return .fadeMusic (← readNumber time)
    | "fade", _ => missing "music fade" 2 args
    | _, _ => return .comment

def readInstruction (keyword : String) (args : List (List Char)) :
    Except Problem (Instruction Float32) :=
  match keyword with
  | "goto" => match args with
    | line :: _ => return .goto (← readLineNumber line)
    | _ => missing keyword 1 args
  | "goal" => match args with
    | kind :: count :: _ => return .goal (String.ofList kind) (← readInteger count)
    | _ => missing keyword 2 args
  | "setting" => match args with
    | name :: _ => return .background (String.ofList name)
    | _ => missing keyword 1 args
  | "mode" => match args with
    | mode :: stage :: _ => return .renderMode (← readInteger mode) (← readInteger stage)
    | _ => missing keyword 2 args
  | "music" => readMusic args
  | "tint" => match args with
    | red :: green :: blue :: _ =>
      return .tint (← readNumber red) (← readNumber green) (← readNumber blue)
    | _ => missing keyword 3 args
  | "text" => match args with
    | lines :: x :: y :: _ =>
      return .text ((Text.splitAt '\\' lines).map String.ofList) (← readNumber x) (← readNumber y)
    | _ => missing keyword 3 args
  | "spawn" => match args with
    | window :: members :: reward :: side :: factors :: trajectory =>
      return .spawn (← Group.read window members reward side factors trajectory)
    | _ => missing keyword 5 args
  | "repeat" => match args with
    | gap :: total :: window :: members :: reward :: side :: factors :: trajectory =>
      return .spawnRepeatedly (← readNumber gap) (← readNumber total)
        (← Group.read window members reward side factors trajectory)
    | _ => missing keyword 7 args
  | "wait" => match args with
    | time :: _ => return .wait (← readNumber time)
    | _ => missing keyword 1 args
  | "waitdefeated" => match args with
    | modulus :: _ => return .waitUntilClear (← readNumber modulus)
    | _ => missing keyword 1 args
  | "end" => return .finish
  | _ => return .comment

/-- Line ends at the end of the text do not belong to the line. -/
def Instruction.read (text : List Char) : Except Problem (Instruction Float32) :=
  match Text.fields (Text.dropEndWhile (fun c => c = '\r' || c = '\n') text) with
  | [] => return .comment
  | keyword :: args => readInstruction (String.ofList (Text.trim keyword)) args

def Instruction.readLine (line : Nat) (text : List Char) : Except Error (Instruction Float32) :=
  match Instruction.read text with
  | .ok instruction => .ok instruction
  | .error problem => .error ⟨line, problem⟩

def readFrom (line : Nat) : List (List Char) → Except Error (List (Instruction Float32))
  | [] => .ok []
  | text :: rest => do
    let instruction ← Instruction.readLine line text
    let instructions ← readFrom (line + 1) rest
    return instruction :: instructions

def read (source : String) : Except Error (List (Instruction Float32)) :=
  readFrom 1 (Text.lines source.toList)

end Barrage.Script
