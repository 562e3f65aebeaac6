import Barrage.Scalar

/-!
The plane of the game. Vectors, headings and the four edges of the world; the vertical axis points
up.
-/

namespace Barrage

structure Vec (α : Type) where
  x : α
  y : α
  deriving Repr

namespace Vec

variable {α : Type} [Scalar α]

def zero : Vec α := ⟨0, 0⟩

@[inline]
def add (a b : Vec α) : Vec α := ⟨a.x + b.x, a.y + b.y⟩

@[inline]
def sub (a b : Vec α) : Vec α := ⟨a.x - b.x, a.y - b.y⟩

@[inline]
def scale (a : Vec α) (s : α) : Vec α := ⟨a.x * s, a.y * s⟩

instance : Add (Vec α) := ⟨add⟩
instance : Sub (Vec α) := ⟨sub⟩

def lengthSquared (a : Vec α) : α := a.x * a.x + a.y * a.y

def clampTo (a corner : Vec α) : Vec α :=
  ⟨Scalar.min (Scalar.max a.x 0) corner.x, Scalar.min (Scalar.max a.y 0) corner.y⟩

variable [Elementary α]

def length (a : Vec α) : α := Elementary.sqrt a.lengthSquared

def distance (a b : Vec α) : α := (a - b).length

/-- The vector of length one with the same heading, or zero where its length has no usable
inverse. -/
def unit (a : Vec α) : Vec α :=
  let inverse := 1 / a.length
  if Scalar.isFinite inverse && decide (0 < inverse) then a.scale inverse else zero

def heading (a : Vec α) : α :=
  let angle := Scalar.degrees (Elementary.atan2 a.y a.x)
  if angle < 0 then angle + 360 else angle

def rotate (a : Vec α) (degrees : α) : Vec α :=
  let angle := Scalar.radians degrees
  let cos := Elementary.cos angle
  let sin := Elementary.sin angle
  ⟨cos * a.x - sin * a.y, sin * a.x + cos * a.y⟩

end Vec

/-- Edge of the world, or direction of a motion. -/
inductive Side where
  | top
  | bottom
  | left
  | right
  deriving DecidableEq, Repr

namespace Side

/-- Any other name stands for the right edge, where enemies come from by default. -/
def ofName : String → Side
  | "top" => top
  | "bottom" => bottom
  | "left" => left
  | _ => right

def name : Side → String
  | top => "top"
  | bottom => "bottom"
  | left => "left"
  | right => "right"

variable {α : Type} [Scalar α]

def direction : Side → Vec α
  | top => ⟨0, 1⟩
  | bottom => ⟨0, -1⟩
  | left => ⟨-1, 0⟩
  | right => ⟨1, 0⟩

def point (factor : α) (world : Vec α) : Side → Vec α
  | top => ⟨factor * world.x, world.y⟩
  | bottom => ⟨factor * world.x, 0⟩
  | left => ⟨0, factor * world.y⟩
  | right => ⟨world.x, factor * world.y⟩

end Side

end Barrage
