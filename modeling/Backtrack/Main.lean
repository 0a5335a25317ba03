import Backtrack.Command

/-!
# The program

Reads the files that the command line names, and the standard input if the command asks for it, and
writes what the command leaves behind.
-/

namespace Backtrack.Shell

def gatherFiles (words : List String) : IO Files := do
  let mut files : Files := []
  for name in words do
    try
      let content ← IO.FS.readBinFile name
      files := (Files.clean name, content.data.toList) :: files
    catch _ => pure ()
  return files

def writeBytes (stream : IO.FS.Stream) (bytes : Bytes) : IO Unit := do
  stream.write ⟨bytes.toArray⟩
  stream.flush

def reportFailure (message : Bytes) : IO UInt32 := do
  let line : Bytes := "parsec: error: " ++ message ++ "\n"
  writeBytes (← IO.getStderr) line
  return 1

def writeResult (result : Command.Result) : IO UInt32 := do
  match result with
  | .refused .badConfiguration => reportFailure "malformed configuration"
  | .refused (.obstacle (.mistake m)) => reportFailure m.message
  | .refused (.obstacle (.breakdown message)) => reportFailure message
  | .shown output =>
    writeBytes (← IO.getStdout) output
    return 0
  | .ran _ transcript =>
    writeBytes (← IO.getStderr) transcript.trace
    writeBytes (← IO.getStdout) transcript.output
    match transcript.failure with
    | none => return 0
    | some message => reportFailure message

def start (words : List String) : IO UInt32 := do
  let files ← gatherFiles (".parsec.toml" :: words)
  match Command.understand files (words.map Bytes.ofString) with
  | .error why => writeResult (.refused why)
  | .ok request =>
    let readsInput :=
      match request with
      | .run invocation => invocation.task.readsInput
      | _ => false
    let input ← if readsInput then (← IO.getStdin).readToEnd else pure ""
    writeResult (request.fulfil files input)

end Backtrack.Shell

def main (words : List String) : IO UInt32 := Backtrack.Shell.start words
