import NameGlob.Tool.Run

/-!
# Command line

The tool is a function of its arguments and of the files it consults, so it is run until all files it
consults are known: each run names the next one to read. Only the last run counts.
-/

namespace NameGlob.Tool

/-- The bytes of a text. -/
private def encodeText (text : String) : Bytes :=
  text.toUTF8.toList

/-- Why a file of the system cannot be read. -/
private def failureOf : IO.Error → ReadFailure
  | .inappropriateType _ code _ => if code = 21 then .isDirectory else .inputOutput
  | _ => .inputOutput

/-- Reads a stream to its end, or until reading fails. -/
private partial def readToEnd (stream : IO.FS.Stream) (chunks : List Bytes) : IO Delivery := do
  let next : Except ReadFailure ByteArray ←
    try pure (.ok (← stream.read 65536)) catch e => pure (.error (failureOf e))
  match next with
  | .error failure => return ⟨chunks.reverse.flatten, some failure⟩
  | .ok chunk =>
    if chunk.isEmpty then return chunks.reverse.flatten
    readToEnd stream (chunk.toList :: chunks)

/-- What opening a path gives, for a file of the system. -/
private def openSystem (path : Bytes) : IO Opened := do
  match String.fromUTF8? ⟨path.toArray⟩ with
  | none => return .refused .missing
  | some name =>
    try
      let handle ← IO.FS.Handle.mk name .read
      return .file (← readToEnd (.ofHandle handle) [])
    catch
      | .inappropriateType .. => return .refused .notDirectory
      | .permissionDenied .. => return .refused .denied
      | _ => return .refused .missing

/-- Runs the tool until every source that it consults is known. -/
private partial def runKnown (home : Option Bytes) (arguments : List Bytes)
    (known : List (Source × Opened)) : IO Outcome := do
  let opened (path : Bytes) : Opened := (known.lookup (.path path)).getD (.refused .missing)
  let stdin := ((known.lookup .stdin).getD (.file ([] : Bytes))).delivery
  let outcome := run ⟨home, stdin, opened⟩ arguments
  match outcome.consulted.find? fun source => (known.lookup source).isNone with
  | none => return outcome
  | some .stdin =>
    let contents ← readToEnd (← IO.getStdin) []
    runKnown home arguments ((.stdin, .file contents) :: known)
  | some (.path path) =>
    runKnown home arguments ((.path path, ← openSystem path) :: known)

end NameGlob.Tool

open NameGlob.Tool in
/-- The program. -/
def main (arguments : List String) : IO UInt32 := do
  let home ← IO.getEnv "HOME"
  let outcome ← runKnown (home.map encodeText) (arguments.map encodeText) []
  (← IO.getStdout).write ⟨outcome.stdout.toArray⟩
  (← IO.getStderr).write ⟨outcome.stderr.toArray⟩
  return outcome.status.toUInt32
