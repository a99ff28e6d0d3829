import CodeAtlas.CommandLine.Report
import CodeAtlas.Files.Machine
import CodeAtlas.Lookup.Sorting.Partition

namespace CodeAtlas

/-- The variables of the environment that the program asks for and that are set. -/
def environment : IO (List (Text × Text)) :=
  (CommandLine.Settings.registry fun _ => false).environment.filterMapM fun v => do
    let some name := Files.pathName? v.synopsis.long | return none
    return (← IO.getEnv name).map fun text => (v.synopsis.long, Text.ofString text)

end CodeAtlas

open CodeAtlas

def main (arguments : List String) : IO UInt32 := do
  let values ← environment
  let _ : Sorting := .byParts
  -- No library for mangled names is at hand, so that they stay as they are.
  let _ : Demangler := .refusing
  let report ← CommandLine.run Files.machine (values.lookup ·) (arguments.map Text.ofString)
  (← IO.getStdout).write ⟨report.output.toArray⟩
  (← IO.getStderr).write ⟨report.errors.toArray⟩
  return report.exitCode.toUInt32
