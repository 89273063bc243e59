import EffectPrograms.CommandLine.Report

/-!
# The program

Carries out the command line on the files of the machine.
-/

namespace EffectPrograms

/-- Whether an action ends without an error. -/
def succeeds (action : IO Unit) : IO Bool := do
  try
    action
    return true
  catch _ => return false

/-- Access to the files of the machine. -/
def machineFiles : FileAccess IO where
  Handle := IO.FS.Handle
  read path := do
    try
      return some ((String.fromUTF8? (← IO.FS.readBinFile path)).getD "")
    catch _ => return none
  create path := do
    try
      return some (← IO.FS.Handle.mk path .write)
    catch _ => return none
  write file text := succeeds (file.putStr text)
  sync file := succeeds file.flush
  rename source target := succeeds <| IO.FS.rename source target

end EffectPrograms

/-- Carries out the command line and exits with the code of its report. -/
def main (args : List String) : IO UInt32 := do
  let report ← EffectPrograms.CommandLine.report EffectPrograms.machineFiles args
  IO.print report.output
  IO.eprint report.errors
  return report.exitCode.toUInt32
