import Barrage.Decimal.Single
import Barrage.Screen.Sprite
import Barrage.Text.Padding

/-!
A complete frame on the screen: border, status line, sprites, the text of the script, a line of
help, and a banner when the game is over, complete or paused.
-/

namespace Barrage.Screen

open Text (repeated padLeft)

/-- Numbers of characters are measured with the width of a screen coordinate. -/
def width (text : String) : Nat := text.length % UInt16.size

def border (v : Viewport) : List Command :=
  let edge := repeated "─" (v.columns - 2)
  let inner := (List.range (v.rows - 2)).drop 2
  [.colour .darkBlue, .moveTo 0 1, .print ("┌" ++ edge ++ "┐"), .moveTo 0 (v.rows - 2),
    .print ("└" ++ edge ++ "┘")] ++
  inner.flatMap fun row =>
    [.moveTo 0 row, .print "│", .moveTo (v.columns - 1) row, .print "│"]

def infoText (a : Arena Float32) : String :=
  let goal := match a.presentation.goal with
    | some (kind, count) => "  goal: " ++ kind ++ " " ++ toString count
    | none => ""
  "[ " ++ a.presentation.background ++ " ] " ++ Decimal.fixedText 0 a.tempo ++ " bpm" ++ goal

def statusLine (v : Viewport) (a : Arena Float32) : List Command :=
  let info := infoText a
  let lives := "Lives:" ++ repeated "♥" a.player.lives
  [.moveTo 1 0, .colour .yellow, .print ("Score:" ++ padLeft 6 (toString a.score)),
    .moveTo (v.columns / 2 - width info / 2) 0, .colour .cyan, .print info,
    .moveTo (v.columns - (width lives + 1)) 0, .colour .red, .print lives]

/-- The lines of the script's text, one below the other from its anchor on. -/
def caption (v : Viewport) (a : Arena Float32) : List Command :=
  match a.presentation.text with
  | none => []
  | some text =>
    let anchor : Vec Float32 := ⟨text.x * a.world.x, text.y * a.world.y⟩
    match v.cell a.world anchor with
    | none => []
    | some (x, y) =>
      .colour .white :: text.lines.zipIdx.flatMap fun (line, i) => [.moveTo x (y + i), .print line]

def help (v : Viewport) : List Command :=
  [.moveTo 1 (v.rows - 1), .colour .darkGrey,
    .print "←↑↓→ / WASD : Move   Z : Shoot   SPACE : Pause   Q : Quit"]

def banner (v : Viewport) (message : String) (colour : Colour) : List Command :=
  let edge := repeated "═" (message.length + 8)
  let lines := ["╔" ++ edge ++ "╗", "║    " ++ message ++ "    ║", "╚" ++ edge ++ "╝"]
  .colour colour :: lines.zipIdx.flatMap fun (line, i) =>
    [.moveTo (v.columns / 2 - width line / 2) (v.rows / 2 - 1 + i), .print line]

def statusBanner (v : Viewport) (status : Arena.Status) (paused : Bool) : List Command :=
  match status with
  | .gameOver => banner v "GAME  OVER" .red
  | .ended => banner v "LEVEL COMPLETE" .green
  | .playing => if paused then banner v "PAUSED" .yellow else []

def render (v : Viewport) (a : Arena Float32) (paused : Bool) : List Command :=
  [.clear] ++ border v ++ statusLine v a ++ (sprites v a).flatMap Sprite.commands ++ caption v a ++
    help v ++ statusBanner v a.status paused ++ [.reset, .moveTo 0 (v.rows - 1)]

end Barrage.Screen
