import Barrage.Config.Json
import Barrage.Decimal.Single

/-!
Settings of the engine. They are read from an object, in which missing settings keep their defaults
and unknown ones do not count, or from an array that gives them in order.
-/

namespace Barrage

structure Config where
  /-- Beats per minute until a script plays music. -/
  defaultTempo : Float32 := 120
  worldWidth : Float32 := 320
  worldHeight : Float32 := 180
  /-- Length of a frame in milliseconds. -/
  frameMs : Nat := 33
  /-- Seed of the random source; without one it is unpredictable. -/
  seed : Option Nat := none
  /-- How long an enemy may stay off the screen, in seconds. -/
  offscreenGrace : Float32 := 0.5
  deriving DecidableEq

namespace Config

def isDefault (c : Config) : Bool :=
  let d : Config := {}
  c.defaultTempo == d.defaultTempo && c.worldWidth == d.worldWidth &&
    c.worldHeight == d.worldHeight && c.frameMs == d.frameMs && c.seed == d.seed &&
    c.offscreenGrace == d.offscreenGrace

def unsigned? : Json → Option Nat
  | .number n => if n.whole && !n.negative then some n.significand else none
  | _ => none

/-- Whole numbers of 64 bits are rounded at once, a negative one up to the size that a signed word
has. All others go by way of double precision, whose range they must not leave. -/
def single? : Json → Option Float32
  | .number n =>
    let inWord := !n.negative || n.significand ≤ UInt64.size / 2
    let size :=
      if n.whole && inWord then some (Float32.ofScientific n.significand false 0)
      else n.double?.map Float.toFloat32
    size.map fun x => if n.negative then -x else x
  | _ => none

def seed? : Json → Option (Option Nat)
  | .null => some none
  | json => (unsigned? json).map some

def names : List String :=
  ["default_tempo", "world_width", "world_height", "frame_ms", "seed", "offscreen_grace"]

def set? (c : Config) (name : String) (json : Json) : Option Config :=
  match name with
  | "default_tempo" => (single? json).map fun x => { c with defaultTempo := x }
  | "world_width" => (single? json).map fun x => { c with worldWidth := x }
  | "world_height" => (single? json).map fun x => { c with worldHeight := x }
  | "frame_ms" => (unsigned? json).map fun n => { c with frameMs := n }
  | "seed" => (seed? json).map fun seed => { c with seed }
  | "offscreen_grace" => (single? json).map fun x => { c with offscreenGrace := x }
  | _ => some c

/-- A setting may be given once. -/
def ofMembers? (c : Config) (given : List String) : List (Option String × Json) → Option Config
  | [] => some c
  | (none, _) :: _ => none
  | (some name, json) :: rest =>
    if given.contains name then none
    else do
      let c ← c.set? name json
      c.ofMembers? (if names.contains name then name :: given else given) rest

def ofItems? (c : Config) : List String → List Json → Option Config
  | _, [] => some c
  | [], _ :: _ => none
  | name :: names, json :: rest => do (← c.set? name json).ofItems? names rest

def ofJson? : Json → Option Config
  | .object members => ofMembers? {} [] members
  | .array items => ofItems? {} names items
  | _ => none

def read? (text : String) : Option Config := (Json.read? text.toList).bind ofJson?

/-- Settings of a file; a file that is missing or cannot be read stands for the defaults. -/
def load (file : Option String) : Config := (file.bind read?).getD {}

/-- Numbers in settings files are written in place from millionths up to thirteen digits, and larger
ones with the sign of their exponent; of two equally near ones the even counts. -/
def numberStyle : Decimal.ShortestStyle where
  lowest := -6
  highest := 12
  plus := true
  tie := .toEven

/-- An infinite number has no text of its own. -/
def numberText (x : Float32) : String :=
  if x.isFinite then Decimal.shortestText numberStyle x else "null"

def text (c : Config) : String :=
  let values :=
    [numberText c.defaultTempo, numberText c.worldWidth, numberText c.worldHeight,
      toString c.frameMs,
      match c.seed with
      | some seed => toString seed
      | none => "null",
      numberText c.offscreenGrace]
  let members := (names.zip values).map fun (name, value) => "\"" ++ name ++ "\":" ++ value
  "\x7b" ++ String.intercalate "," members ++ "\x7d"

end Config

end Barrage
