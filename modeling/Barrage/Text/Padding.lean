/-!
Repeated texts, and texts filled up with spaces to the width of a column.
-/

namespace Barrage.Text

def repeated (text : String) (n : Nat) : String := String.join (List.replicate n text)

def padLeft (width : Nat) (text : String) : String := repeated " " (width - text.length) ++ text

def padRight (width : Nat) (text : String) : String := text ++ repeated " " (width - text.length)

end Barrage.Text
