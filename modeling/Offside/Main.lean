import Offside.CommandLine.Basic
/-!
The executable: `CommandLine.run` on the files of the system.
-/

open Offside.CommandLine

/-- Reads a file of the system. -/
def readSystemFile (path : String) : IO (Except ReadError ByteArray) := do
  try
    return .ok (← IO.FS.readBinFile path)
  catch
    | .noFileOrDirectory .. => return .error .notFound
    | .inappropriateType _ code _ =>
      return .error (if code = 21 then .isDirectory else .notDirectory)
    | error => return .error (.other (toString error))

def main (args : List String) : IO UInt32 := do
  let outcome ← run readSystemFile args
  (← IO.getStdout).putStr outcome.stdout
  (← IO.getStderr).putStr outcome.stderr
  return outcome.exitCode.toUInt32
