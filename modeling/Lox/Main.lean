import Lox.Command
import Mathlib.Init

/-!
# The program

Fetches the source file, carries the command out, and prints what it wrote.
-/

namespace Lox
namespace Command

/-- The bytes of a file, or why there are none. -/
def fetch (file : String) : IO (Except Refusal (List UInt8)) := do
  try
    let bytes ← IO.FS.readBinFile file
    return .ok bytes.toList
  catch
    | .noFileOrDirectory .. => return .error .missing
    | .permissionDenied .. => return .error .denied
    | .inappropriateType (some _) _ _ => return .error .notDirectory
    | .invalidArgument (some _) _ _ => return .error .tooLong
    | _ => return .error .directory

/-- A host whose clock shows the time at which the command began, in seconds since the Unix epoch. -/
def systemHost : IO Host := do
  let now ← Std.Time.Timestamp.now
  let milliseconds := now.toMillisecondsSinceUnixEpoch.val
  return ⟨fun _ => Float.ofInt milliseconds / 1000.0, 0x1000000000000000⟩

/-- Runs the command line and gives its exit status. -/
def execute (arguments : List String) : IO UInt32 := do
  match Request.ofArguments arguments with
  | none =>
      IO.eprintln "Usage: lox [--log] <tokenize|parse|evaluate|run> <file> [--json]"
      return usageExit.toUInt32
  | some request =>
      if request.log then
        IO.FS.writeFile "app.log" ""
      match request.perform (← systemHost) (← fetch request.file) with
      | none => return 1
      | some report =>
          IO.print report.stdout
          IO.eprint report.stderr
          return report.exit.toUInt32

end Command
end Lox

/-- The program. -/
def main (arguments : List String) : IO UInt32 :=
  Lox.Command.execute arguments
