import Barrage.Pattern.Packed
import Barrage.Decimal.Whole
import Barrage.Text.Letter

/-!
Mnemonics of shooting patterns. The first character of a mnemonic picks the fields to start from and
every later character edits them in order; characters without a meaning change nothing. A pattern in
a script is a mnemonic if it begins with a letter, and otherwise the packed number itself.
-/

namespace Barrage.Pattern

/-- Digits in wire order and texture of the patterns that a letter names. -/
def baseline : Char → Option (List Nat × UInt64)
  | 'A' => some ([0, 0, 0, 0, 0, 0, 0, 0, 0, 0], 0)
  | 'B' => some ([1, 4, 9, 2, 0, 0, 0, 1, 1, 9], 0)
  | 'C' => some ([1, 4, 9, 2, 0, 0, 0, 0, 0, 9], 0)
  | 'D' => some ([1, 1, 7, 4, 0, 0, 0, 1, 1, 9], 0)
  | 'E' => some ([1, 1, 7, 2, 0, 0, 2, 1, 1, 9], 0)
  | 'F' => some ([1, 1, 7, 3, 0, 0, 3, 9, 3, 9], 0)
  | 'G' => some ([1, 1, 7, 4, 0, 0, 3, 1, 3, 9], 0)
  | 'H' => some ([1, 5, 5, 5, 0, 0, 0, 0, 0, 1], 0)
  | 'J' => some ([5, 5, 7, 5, 1, 0, 9, 9, 9, 0], 0)
  | 'K' => some ([1, 0, 3, 5, 0, 0, 9, 1, 1, 9], 0)
  | 'L' => some ([1, 5, 0, 9, 0, 0, 0, 0, 0, 3], 2)
  | 'S' => some ([1, 5, 0, 2, 0, 0, 0, 0, 0, 3], 3)
  | 'Z' => some ([1, 5, 9, 1, 0, 0, 0, 0, 0, 3], 2)
  | _ => none

def modifier : Char → Option (List Edit)
  | '2' => some [⟨.shots, .set 2⟩]
  | '3' => some [⟨.shots, .set 3⟩]
  | '4' => some [⟨.shots, .set 4⟩]
  | '5' => some [⟨.shots, .set 5⟩]
  | '6' => some [⟨.shots, .set 6⟩]
  | '7' => some [⟨.shots, .set 7⟩]
  | '8' => some [⟨.shots, .set 8⟩]
  | '9' => some [⟨.shots, .set 9⟩]
  | 'F' => some [⟨.period, .decrement⟩]
  | 'G' => some [⟨.period, .increment⟩]
  | 'D' => some [⟨.initialDelay, .set 0⟩]
  | 'S' => some [⟨.spread, .set 2⟩]
  | 'W' => some [⟨.spread, .set 5⟩]
  | 'R' => some [⟨.spread, .set 9⟩]
  | 'Q' => some [⟨.burstSpacing, .set 5⟩]
  | 'T' => some [⟨.burstSpacing, .set 9⟩]
  | 'H' => some [⟨.homingStart, .set 1⟩, ⟨.homingDuration, .set 1⟩]
  | 'L' => some [⟨.homingDuration, .decrement⟩]
  | 'N' => some [⟨.timeToLive, .set 9⟩]
  | 'M' => some [⟨.timeToLive, .decrement⟩]
  | 'K' => some [⟨.speed, .increment⟩]
  | 'P' => some [⟨.speed, .decrement⟩]
  | 'B' => some [⟨.texture, .set 128⟩]
  | 'Z' => some [⟨.texture, .set 129⟩]
  | 'X' => some [⟨.texture, .set 130⟩]
  | _ => none

/-- Letters without a baseline never fire. -/
def Fields.ofBaseline (c : Char) : Fields :=
  match baseline c with
  | some (digits, texture) => ofDigits digits texture
  | none => blank

def Fields.modify (f : Fields) (c : Char) : Fields := ((modifier c).getD []).foldl Fields.apply f

def Fields.ofMnemonic : List Char → Fields
  | [] => blank
  | c :: modifiers => modifiers.foldl Fields.modify (ofBaseline c)

inductive Notation where
  | mnemonic (text : String)
  | packed (pattern : Packed)
  deriving DecidableEq, Repr

namespace Notation

/-- No text at all stands for the pattern that never fires. -/
def read? : List Char → Option Notation
  | [] => some (packed ⟨0⟩)
  | text@(c :: _) =>
    if Text.isLetter c then some (mnemonic (String.ofList text))
    else (Decimal.unsigned? (UInt64.size - 1) text).map fun n => packed ⟨UInt64.ofNat n⟩

def compile : Notation → Packed
  | mnemonic text => (Fields.ofMnemonic text.toList).pack
  | packed pattern => pattern

end Notation

end Barrage.Pattern
