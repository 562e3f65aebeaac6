import Barrage.Pattern.Packed

/-!
Pattern channels. A channel remembers the last pattern it carried, passes a new one to its listeners
in the order of their keys, drops repeats, and replays the current pattern to a new listener.
-/

namespace Barrage

open Pattern (Packed)

structure Channel (τ : Type) where
  last : Option Packed
  /-- Listeners in ascending order of keys. -/
  listeners : List (Nat × τ)

structure Delivery (τ : Type) where
  listener : τ
  pattern : Packed

namespace Channel

variable {τ : Type}

def new : Channel τ := ⟨none, []⟩

def carrying (pattern : Packed) : Channel τ := ⟨some pattern, []⟩

/-- What a publication leads to: whether the pattern changed, and what the listeners hear. -/
structure Publication (τ : Type) where
  channel : Channel τ
  changed : Bool
  heard : List (Delivery τ)

def publish (c : Channel τ) (pattern : Packed) : Publication τ :=
  if c.last = some pattern then ⟨c, false, []⟩
  else ⟨{ c with last := some pattern }, true, c.listeners.map fun l => ⟨l.2, pattern⟩⟩

def publishAll (c : Channel τ) : List Packed → Channel τ × List (Delivery τ)
  | [] => (c, [])
  | pattern :: rest =>
    let first := c.publish pattern
    let (channel, heard) := first.channel.publishAll rest
    (channel, first.heard ++ heard)

def insert (key : Nat) (listener : τ) : List (Nat × τ) → List (Nat × τ)
  | [] => [(key, listener)]
  | (k, l) :: rest =>
    if key < k then (key, listener) :: (k, l) :: rest
    else if key = k then (key, listener) :: rest
    else (k, l) :: insert key listener rest

def subscribe (c : Channel τ) (key : Nat) (listener : τ) : Channel τ × List (Delivery τ) :=
  ({ c with listeners := insert key listener c.listeners },
    c.last.toList.map fun pattern => ⟨listener, pattern⟩)

def hasListener (c : Channel τ) (key : Nat) : Bool := c.listeners.any fun l => l.1 == key

def unsubscribe (c : Channel τ) (key : Nat) : Channel τ :=
  { c with listeners := c.listeners.filter fun l => l.1 != key }

end Channel

end Barrage
