import Barrage.Commands

/-!
The command line. The files that the arguments name are read first, output goes to the standard
streams, and a failure ends with status one.
-/

namespace Barrage.Commands

def readFailure : IO.Error → ReadFailure
  | .noFileOrDirectory .. => .notFound
  | .inappropriateType _ code details => .other (details ++ " (os error " ++ toString code ++ ")")
  | .permissionDenied _ code details => .other (details ++ " (os error " ++ toString code ++ ")")
  | e => .other (toString e)

def readText (path : String) : IO (Except ReadFailure String) :=
  try
    match String.fromUTF8? (← IO.FS.readBinFile path) with
    | some text => return .ok text
    | none => return .error .notText
  catch e => return .error (readFailure e)

end Barrage.Commands

open Barrage

def main (args : List String) : IO UInt32 := do
  let files ← (args.drop 1).mapM fun path => do return (path, ← Commands.readText path)
  match Commands.run (fun path => (files.lookup path).getD (.error .notFound)) args with
  | .printed text => do
    IO.print text
    return 0
  | .failed causes => do
    IO.eprint (Commands.failureText causes)
    return 1
  | .play .. => do
    IO.eprint (Commands.failureText [Commands.missingTerminal])
    return 1
