import H8S.CommandLine.Report

/-!
# The program

Reads the arguments and the firmware, and writes the report.  The exit code is 2 for arguments that are no command and 1 for
a command that failed.
-/

namespace H8S

/-- The bytes of a file, or why it cannot be read. -/
def readFirmware (path : String) : IO (Except ReadError (List UInt8)) := do
  try
    return .ok (← IO.FS.readBinFile path).toList
  catch e =>
    match e with
    | .noFileOrDirectory _ _ _ => return .error .notFound
    | other => return .error (.failed (toString other))

def runCommand (command : Command) : IO UInt32 := do
  let report := Report.ofCommand command (← readFirmware command.firmware)
  IO.print report.output
  match report.failure with
  | none => return 0
  | some e =>
    IO.eprintln ("error: " ++ e.message)
    return 1

end H8S

def main (args : List String) : IO UInt32 := do
  match H8S.Command.parse args with
  | .ok command => H8S.runCommand command
  | .error e =>
    IO.eprintln (e.message ++ "\n" ++ H8S.Command.usage)
    return 2
