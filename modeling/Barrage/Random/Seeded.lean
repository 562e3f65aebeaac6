import Barrage.Random.Words

/-!
Seeded sources. A 64-bit seed is stretched to a key of eight words by a congruential generator with
permuted output; the words of the source are the blocks of a ChaCha stream of twelve rounds under
that key.
-/

namespace Barrage.Seeded

def multiplier : UInt64 := 6364136223846793005

def increment : UInt64 := 11634580027462260723

def rotateRight (x amount : UInt32) : UInt32 :=
  if amount = 0 then x else (x >>> amount) ||| (x <<< (32 - amount))

/-- Output of the congruential generator: the high bits folded over, then turned by the topmost
five. -/
def permuted (state : UInt64) : UInt32 :=
  rotateRight (((state >>> 18) ^^^ state) >>> 27).toUInt32 (state >>> 59).toUInt32

def keyFrom (state : UInt64) : Nat → List UInt32
  | 0 => []
  | n + 1 =>
    let state := state * multiplier + increment
    permuted state :: keyFrom state n

def key (seed : UInt64) : List UInt32 := keyFrom seed 8

def rotateLeft (x amount : UInt32) : UInt32 := (x <<< amount) ||| (x >>> (32 - amount))

abbrev Block := Vector UInt32 16

def quarterRound (a b c d : Fin 16) (v : Block) : Block :=
  let v := v.set a (v[a] + v[b])
  let v := v.set d (rotateLeft (v[d] ^^^ v[a]) 16)
  let v := v.set c (v[c] + v[d])
  let v := v.set b (rotateLeft (v[b] ^^^ v[c]) 12)
  let v := v.set a (v[a] + v[b])
  let v := v.set d (rotateLeft (v[d] ^^^ v[a]) 8)
  let v := v.set c (v[c] + v[d])
  v.set b (rotateLeft (v[b] ^^^ v[c]) 7)

/-- A round over the columns of the block and a round over its diagonals. -/
def doubleRound (v : Block) : Block :=
  let v := quarterRound 0 4 8 12 v
  let v := quarterRound 1 5 9 13 v
  let v := quarterRound 2 6 10 14 v
  let v := quarterRound 3 7 11 15 v
  let v := quarterRound 0 5 10 15 v
  let v := quarterRound 1 6 11 12 v
  let v := quarterRound 2 7 8 13 v
  quarterRound 3 4 9 14 v

/-- Constants, key, and the number of the block in two words; the last two words are zero. -/
def input (key : List UInt32) (counter : Nat) : Block :=
  let k (i : Nat) := key.getD i 0
  #v[0x61707865, 0x3320646e, 0x79622d32, 0x6b206574,
    k 0, k 1, k 2, k 3, k 4, k 5, k 6, k 7,
    UInt32.ofNat counter, UInt32.ofNat (counter / UInt32.size), 0, 0]

def block (key : List UInt32) (counter : Nat) : Block :=
  let start := input key counter
  Vector.zipWith (· + ·) start (Nat.repeat doubleRound 6 start)

def word (key : List UInt32) (i : Nat) : UInt32 := (block key (i / 16)).toArray.getD (i % 16) 0

def words (seed : UInt64) : Words :=
  let key := key seed
  Words.start (word key)

end Barrage.Seeded
