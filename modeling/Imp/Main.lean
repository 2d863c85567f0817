import Imp.CommandLine

/-! # The program

Reads the arguments and the file, and prints the response. No time is measured: the lines of the log are those of the
default logger. -/

namespace Imp.CommandLine

/-- Reads a file as text. -/
def readFile (file : String) : IO (Except ReadError String) := do
  try
    return decode (← IO.FS.readBinFile file)
  catch
    | .noFileOrDirectory .. => return .error .missing
    | .inappropriateType .. => return .error .directory
    | e => return .error (.other (toString e))

/-- The response to the arguments, unless the run goes on for ever. -/
def respond (arguments : List String) : IO (Option Response) := do
  match parse arguments with
  | .error e => return some (misuse e)
  | .ok .version => return some (success (versionText ++ "\n"))
  | .ok (.run o) => return o.respond (Stmt.fuelFor o.maxIterations) (← readFile o.file)

end Imp.CommandLine

def main (arguments : List String) : IO UInt32 := do
  match ← Imp.CommandLine.respond arguments with
  | none => return 1
  | some r =>
    IO.print r.stdout
    IO.eprint r.stderr
    return r.code.toUInt32
