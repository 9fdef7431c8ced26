/-
# The command-line tool

Lists the records in a file or in standard input.  Everything it decides is in
`Piecemeal.Records.CommandLine`; here the contents are read and the report is written.
-/
import Piecemeal.Records.CommandLine

namespace Piecemeal.Records

/-- What the system says about an error. -/
def systemReason : IO.Error → String
  | .noFileOrDirectory _ code details | .interrupted _ code details
  | .alreadyExists _ code details | .invalidArgument _ code details
  | .permissionDenied _ code details | .resourceExhausted _ code details
  | .inappropriateType _ code details | .noSuchThing _ code details
  | .otherError code details | .resourceBusy code details | .resourceVanished code details
  | .unsupportedOperation code details | .hardwareFault code details
  | .unsatisfiedConstraints code details | .illegalOperation code details
  | .protocolError code details | .timeExpired code details =>
      s!"{details} (os error {code})"
  | .unexpectedEof => "unexpected end of file"
  | .userError text => text

/-- Reads a stream to its end, or until it fails. -/
partial def readContents (stream : IO.FS.Stream) (bytes : ByteArray) : IO Contents := do
  let piece ← (stream.read 65536).toBaseIO
  match piece with
  | .error error => return ⟨bytes.data.toList, some (systemReason error)⟩
  | .ok piece =>
      if piece.isEmpty then return ⟨bytes.data.toList, none⟩
      else readContents stream (bytes ++ piece)

/-- Reads the input and makes the report. -/
def makeReport (options : Options) : IO Report := do
  match options.file with
  | none => return report options (← readContents (← IO.getStdin) .empty)
  | some path =>
      match ← (IO.FS.Handle.mk path .read).toBaseIO with
      | .error error => return .ofProblem (.cannotOpen path (systemReason error))
      | .ok handle => return report options (← readContents (.ofHandle handle) .empty)

end Piecemeal.Records

open Piecemeal.Records in
def main (args : List String) : IO UInt32 := do
  let report ←
    match Options.parse args with
    | .error problem => pure (.ofProblem problem)
    | .ok options => makeReport options
  IO.print report.output
  IO.eprint report.notice
  return if report.succeeded then 0 else 1
