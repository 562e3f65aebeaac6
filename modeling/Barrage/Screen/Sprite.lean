import Barrage.Arena.Entity
import Barrage.Screen.Terminal

/-!
Sprites: where the entities of an arena show on a screen. The world is mapped onto the cells inside
a border; an entity outside the world has no sprite.
-/

namespace Barrage.Screen

structure Viewport where
  columns : Nat
  rows : Nat
  deriving DecidableEq, Repr

/-- A text from a cell to the right, one cell for each character. -/
structure Sprite where
  column : Nat
  row : Nat
  text : String
  colour : Colour
  deriving DecidableEq, Repr

def Sprite.commands (s : Sprite) : List Command :=
  [.moveTo s.column s.row, .colour s.colour, .print s.text]

def Sprite.cells (s : Sprite) : List (Nat × Nat) :=
  (List.range s.text.length).map fun i => (s.column + i, s.row)

def maxCoordinate : Nat := UInt16.size - 1

variable {α : Type} [Scalar α]

def Viewport.cell (v : Viewport) (world position : Vec α) : Option (Nat × Nat) :=
  let x := position.x / world.x
  let y := 1 - position.y / world.y
  if 0 ≤ x ∧ x ≤ 1 ∧ 0 ≤ y ∧ y ≤ 1 then
    some (1 + Scalar.truncate maxCoordinate (x * Scalar.ofNat (v.columns - 3)),
      2 + Scalar.truncate maxCoordinate (y * Scalar.ofNat (v.rows - 5)))
  else none

def pickupSprite (v : Viewport) (world : Vec α) (p : Arena.Pickup α) : Option Sprite :=
  (v.cell world p.position).map fun (x, y) => ⟨x, y, String.singleton p.kind, .yellow⟩

/-- Bosses and enemies with several hit points are three cells wide, and begin left of their own
cell. -/
def enemySprite (v : Viewport) (world : Vec α) (e : Arena.Enemy α) : Option Sprite :=
  (v.cell world e.position).map fun (x, y) =>
    let (text, colour) :=
      if e.flight.program.boss then ("«█»", Colour.magenta)
      else if 1 < e.initialHitPoints then ("(◎)", Colour.red)
      else ("«◄", Colour.green)
    ⟨max (x - 1) 1, y, text, colour⟩

def shotSprite (v : Viewport) (world : Vec α) (s : Arena.Shot α) : Option Sprite :=
  (v.cell world s.position).map fun (x, y) =>
    let (text, colour) :=
      if s.owner = .player then ("─", Colour.cyan)
      else if Pattern.bombThreshold < s.texture then ("✱", Colour.red)
      else if s.alpha < 1 then ("∘", Colour.magenta)
      else ("•", Colour.magenta)
    ⟨x, y, text, colour⟩

/-- While recovering, the player shows in two frames out of four. -/
def playerSprite (v : Viewport) (a : Arena α) : Option Sprite :=
  if 0 < a.player.recovering ∧ a.frame % 4 < 2 then none
  else (v.cell a.world a.player.position).map fun (x, y) => ⟨x, y, "►", .white⟩

/-- The sprites of an arena in the order in which they are drawn. -/
def sprites (v : Viewport) (a : Arena α) : List Sprite :=
  a.pickups.filterMap (pickupSprite v a.world) ++ a.enemies.filterMap (enemySprite v a.world) ++
    a.shots.filterMap (shotSprite v a.world) ++ (playerSprite v a).toList

end Barrage.Screen
