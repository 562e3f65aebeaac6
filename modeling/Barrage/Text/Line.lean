/-!
Lines, fields and words of a script, as lists of characters. A line ends at a line feed, with or
without a carriage return before it; fields are separated by two spaces and words by any number of
them.
-/

namespace Barrage.Text

/-- Characters with the property White_Space. -/
def isBlank (c : Char) : Bool :=
  (9 ≤ c.toNat && c.toNat ≤ 13) || c.toNat == 32 || c.toNat == 0x85 || c.toNat == 0xa0 ||
    c.toNat == 0x1680 || (0x2000 ≤ c.toNat && c.toNat ≤ 0x200a) || c.toNat == 0x2028 ||
    c.toNat == 0x2029 || c.toNat == 0x202f || c.toNat == 0x205f || c.toNat == 0x3000

def dropEndWhile (p : Char → Bool) (text : List Char) : List Char :=
  (text.reverse.dropWhile p).reverse

def trim (text : List Char) : List Char := dropEndWhile isBlank (text.dropWhile isBlank)

/-- Pieces between the separators `c`; there is one more piece than separators. -/
def splitAt (c : Char) : List Char → List (List Char)
  | [] => [[]]
  | d :: rest =>
    if d = c then [] :: splitAt c rest
    else match splitAt c rest with
      | [] => [[d]]
      | piece :: pieces => (d :: piece) :: pieces

/-- Pieces between pairs of spaces, paired from the left. -/
def fields : List Char → List (List Char)
  | [] => [[]]
  | ' ' :: ' ' :: rest => [] :: fields rest
  | c :: rest =>
    match fields rest with
    | [] => [[c]]
    | piece :: pieces => (c :: piece) :: pieces

def words (text : List Char) : List (List Char) :=
  (splitAt ' ' text).filter fun word => !word.isEmpty

/-- A carriage return belongs to the line feed after it. -/
def dropCarriageReturn (line : List Char) : List Char :=
  if line.getLast? = some '\r' then line.dropLast else line

/-- Ends every line but the last with its line feed; an empty last line is none. -/
def linesOfPieces : List (List Char) → List (List Char)
  | [] => []
  | [last] => if last.isEmpty then [] else [last]
  | line :: rest => dropCarriageReturn line :: linesOfPieces rest

def lines (text : List Char) : List (List Char) := linesOfPieces (splitAt '\n' text)

end Barrage.Text
