import Barrage.Text.Line

/-!
Files by path. A path is followed name by name from the working directory, or from the root if it
starts with a slash. Directories are the places that lead to a file, the root and whatever lies
above the working directory; nothing else is known of the surroundings.
-/

namespace Barrage

/-- Why reading a file gives no text. -/
inductive ReadFailure where
  | notFound
  | notDirectory
  | isDirectory
  | nameTooLong
  | notText
  | other (message : String)
  deriving DecidableEq, Repr

def ReadFailure.message : ReadFailure → String
  | notFound => "No such file or directory (os error 2)"
  | notDirectory => "Not a directory (os error 20)"
  | isDirectory => "Is a directory (os error 21)"
  | nameTooLong => "File name too long (os error 36)"
  | notText => "stream did not contain valid UTF-8"
  | other message => message

namespace Files

structure Route where
  fromRoot : Bool
  names : List String
  deriving DecidableEq, Repr

def pieces (path : String) : List String := (Text.splitAt '/' path.toList).map String.ofList

def isAbsolute (path : String) : Bool := path.toList.head? = some '/'

/-- The route that a path describes; empty pieces and single points do not count. -/
def Route.ofPath (path : String) : Route :=
  ⟨isAbsolute path, (pieces path).filter fun name => name ≠ "" ∧ name ≠ "."⟩

/-- The way up from the working directory leads to unknown parts, which are taken for the root. -/
def Route.parent (r : Route) : Route :=
  if r.names.isEmpty then ⟨true, []⟩ else { r with names := r.names.dropLast }

def Route.enter (r : Route) (name : String) : Route := { r with names := r.names ++ [name] }

end Files

structure Files where
  texts : List (Files.Route × String)

namespace Files

def ofList (files : List (String × String)) : Files :=
  ⟨files.map fun (path, text) => (Route.ofPath path, text)⟩

def text? (f : Files) (r : Route) : Option String := f.texts.lookup r

def isDirectory (f : Files) (r : Route) : Bool :=
  r.names.isEmpty || f.texts.any fun (s, _) => s.fromRoot = r.fromRoot && r.names.isPrefixOf s.names

def maxName : Nat := 255

def maxPath : Nat := 4095

def step (f : Files) (r : Route) (name : String) : Except ReadFailure Route :=
  if (f.text? r).isSome then .error .notDirectory
  else if name = "" ∨ name = "." then .ok r
  else if name = ".." then .ok r.parent
  else if maxName < name.utf8ByteSize then .error .nameTooLong
  else
    let next := r.enter name
    if (f.text? next).isSome || f.isDirectory next then .ok next else .error .notFound

def read (f : Files) (path : String) : Except ReadFailure String := do
  if path.isEmpty then throw .notFound
  if maxPath < path.utf8ByteSize then throw .nameTooLong
  let place ← (pieces path).foldlM f.step ⟨isAbsolute path, []⟩
  match f.text? place with
  | some text => return text
  | none => throw .isDirectory

end Files

end Barrage
