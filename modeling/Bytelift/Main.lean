import Bytelift.Cli.Command

/-!
# The command line

Reads the files that the arguments name, runs the request and writes what comes out of it.
-/

namespace Bytelift.Cli

/-- The string with the bytes of a text, as far as they are UTF-8. -/
def showText (t : Text) : String := (String.fromUTF8? ⟨t.toArray⟩).getD ""

/-- What comes of reading a file, with its path. -/
def readInput (path : Text) : IO (Text × Except OpenError Text) := do
  try
    let content ← IO.FS.readBinFile (showText path)
    return (path, .ok content.data.toList)
  catch
    | .noFileOrDirectory .. => return (path, .error (.notFound path))
    | _ => return (path, .error (.unreadable path))

def writeFile (o : Outcome) : IO Outcome := do
  match o.written with
  | none => return o
  | some (path, t) =>
    try
      IO.FS.writeBinFile (showText path) ⟨t.toArray⟩
      return o
    catch
      | .noFileOrDirectory .. => return { o with failure := some (.file (.notFound path)) }
      | _ => return { o with failure := some (.file (.isFolder path)) }

end Bytelift.Cli

open Bytelift Bytelift.Cli

def main (args : List String) : IO UInt32 := do
  let request := Request.ofArguments (args.map Text.ofString)
  let files ← request.inputs.mapM readInput
  let read (path : Text) := (files.lookup path).getD (.error (.notFound path))
  let debug := (← IO.getEnv "BCJIT_DEBUG").getD ""
  let o ← writeFile (request.run read (Settings.ofEnvironment (Text.ofString debug)))
  let out ← IO.getStdout
  for piece in o.output do
    out.write ⟨piece.render.toArray⟩
  match o.failure with
  | none => return 0
  | some e =>
    IO.eprintln (showText e.message)
    return 1
