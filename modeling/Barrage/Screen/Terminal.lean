/-!
Terminal output as a list of commands and its control sequences. Columns and rows are counted from
zero in commands and from one in sequences.
-/

namespace Barrage.Screen

inductive Colour where
  | darkBlue
  | darkGrey
  | red
  | green
  | yellow
  | magenta
  | cyan
  | white
  deriving DecidableEq, Repr

def Colour.code : Colour → Nat
  | darkBlue => 4
  | darkGrey => 8
  | red => 9
  | green => 10
  | yellow => 11
  | magenta => 13
  | cyan => 14
  | white => 15

inductive Command where
  | clear
  | moveTo (column row : Nat)
  | colour (colour : Colour)
  | reset
  | print (text : String)
  deriving DecidableEq, Repr

def Command.sequence : Command → String
  | clear => "\x1b[2J"
  | moveTo column row => "\x1b[" ++ toString (row + 1) ++ ";" ++ toString (column + 1) ++ "H"
  | colour c => "\x1b[38;5;" ++ toString c.code ++ "m"
  | reset => "\x1b[0m"
  | print text => text

def output (commands : List Command) : String := String.join (commands.map Command.sequence)

end Barrage.Screen
