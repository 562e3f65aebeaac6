import Barrage.Config.Basic
import Barrage.Files
import Barrage.Pattern.Volley
import Barrage.Script.Reader
import Barrage.Text.Padding

/-!
Commands of the program: check a level script, explain a pattern, or play a level. A command is a
function of its arguments and of what reading a file gives; playing itself is left to the caller.
-/

namespace Barrage.Commands

open Text (padLeft padRight)

/-- How a command ends. A failure names what was attempted and, behind it, why it did not
succeed. -/
inductive Outcome where
  | printed (text : String)
  | failed (causes : List String)
  | play (script : List (Script.Instruction Float32)) (config : Config)

def playUsage : String := "shmup_script play <level.txt> [config.json]"

def checkUsage : String := "shmup_script check <level.txt>"

def patternUsage : String := "shmup_script pattern <mnemonic-or-number>"

def usage : String :=
  "Level script player\n\nUsage:\n  " ++ playUsage ++ "\n  " ++ checkUsage ++ "\n  " ++ patternUsage

def unlines (lines : List String) : String := String.join (lines.map (· ++ "\n"))

def loadScript (path : String) (file : Except ReadFailure String) :
    Except (List String) (List (Script.Instruction Float32)) :=
  match file with
  | .error cause => .error ["Failed to read " ++ path, cause.message]
  | .ok source =>
    match Script.read source with
    | .error e => .error ["Failed to load " ++ path, e.message]
    | .ok script => .ok script

def keywords : List String :=
  ["#", "end", "goal", "goto", "mode", "music fade", "music play", "repeat", "setting",
    "spawn", "text", "tint", "wait", "waitdefeated"]

def summary (path : String) (script : List (Script.Instruction Float32)) : String :=
  let counts := keywords.filterMap fun keyword =>
    let count := (script.filter fun i => i.keyword = keyword).length
    if count = 0 then none else some ("  " ++ padRight 14 keyword ++ padLeft 5 (toString count))
  unlines ((path ++ ": " ++ toString script.length ++ " lines OK") :: counts)

def fieldName : Pattern.Field → String
  | .shots => "shots"
  | .initialDelay => "initial delay"
  | .period => "period"
  | .speed => "speed"
  | .spread => "spread"
  | .burstSpacing => "burst spacing"
  | .homingSpeed => "homing speed"
  | .homingStart => "homing start"
  | .homingDuration => "homing duration"
  | .timeToLive => "time to live"
  | .texture => "texture"

/-- The fields of a pattern, and what they mean in the default world at the default tempo. -/
def explanation (packed : Pattern.Packed) : String :=
  let config : Config := {}
  let fields := Pattern.Fields.unpack packed
  let volley := Pattern.Volley.decode packed config.worldWidth config.defaultTempo
  let rows := Pattern.Field.all.map fun field =>
    "  " ++ padRight 16 (fieldName field) ++ padLeft 5 (toString (fields.get field))
  let fixed := Decimal.fixedText
  let meaning :=
    "at " ++ fixed 0 config.defaultTempo ++ " bpm: " ++ toString volley.shots ++
      " shot(s) every " ++ fixed 3 volley.period ++ "s (spacing " ++ fixed 3 volley.burstSpacing ++
      "s, first after " ++ fixed 3 volley.initialDelay ++ "s), speed " ++ fixed 1 volley.speed ++
      ", homing " ++ fixed 2 volley.homingFrom ++ ".." ++ fixed 2 volley.homingTo ++ "s, ttl " ++
      fixed 2 volley.timeToLive ++ "s"
  unlines (("packed: " ++ toString packed.code) :: rows ++ [meaning])

def check (path : String) (file : Except ReadFailure String) : Outcome :=
  match loadScript path file with
  | .error causes => .failed causes
  | .ok script => .printed (summary path script)

def pattern (code : String) : Outcome :=
  match Pattern.Notation.read? code.toList with
  | none => .failed ["Malformed pattern " ++ code]
  | some pattern => .printed (explanation pattern.compile)

def play (path : String) (file : Except ReadFailure String) (config : Config) : Outcome :=
  match loadScript path file with
  | .error causes => .failed causes
  | .ok script => .play script config

def run (read : String → Except ReadFailure String) : List String → Outcome
  | ["play"] => .failed [playUsage]
  | "play" :: path :: more =>
    let config := match more with
      | [] => {}
      | configPath :: _ => Config.load (read configPath).toOption
    play path (read path) config
  | ["check"] => .failed [checkUsage]
  | "check" :: path :: _ => check path (read path)
  | ["pattern"] => .failed [patternUsage]
  | "pattern" :: code :: _ => pattern code
  | _ => .failed [usage]

def missingTerminal : String := "No such device or address (os error 6)"

def failureText (causes : List String) : String :=
  "Error: " ++ String.intercalate ": " causes ++ "\n"

end Barrage.Commands
