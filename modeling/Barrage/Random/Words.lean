import Barrage.Scalar

/-!
Sources of chance. A source is a sequence of 32-bit words and the number of words drawn from it so
far; a computation that draws hands the source on, and fails where arithmetic refuses to go on.
-/

namespace Barrage

structure Words where
  word : Nat → UInt32
  drawn : Nat

abbrev Chance := StateT Words (Except Fault)

namespace Words

def start (word : Nat → UInt32) : Words := ⟨word, 0⟩

/-- The list of words over and over; an empty list stands for zeros. -/
def cycle (words : Array UInt32) : Words :=
  start fun i => words.getD (i % words.size) 0

def next (s : Words) : UInt32 × Words := (s.word s.drawn, { s with drawn := s.drawn + 1 })

end Words

namespace Chance

variable {α : Type} [Scalar α]

def word : Chance UInt32 := fun s => .ok s.next

def fraction : Chance α := do
  return Scalar.ofNat ((← word) >>> 8).toNat / Scalar.ofNat 0x1000000

/-- How often a draw that rounds up to the upper end is repeated before the lower end is taken. -/
def maxRepeats : Nat := 4096

def uniformFrom (lo hi scale : α) : Nat → Chance α
  | 0 => return lo
  | repeats + 1 => do
    let fraction : α := Scalar.ofNat ((← word) >>> 9).toNat / Scalar.ofNat 0x800000
    let value := fraction * scale + lo
    if value < hi then return value else uniformFrom lo hi scale repeats

def uniform (lo hi : α) : Chance α :=
  let scale := hi - lo
  if Scalar.isFinite scale then uniformFrom lo hi scale maxRepeats
  else throw .unboundedRange

end Chance

end Barrage
