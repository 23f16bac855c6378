import TokenGrammar.Command.Line

/-!
# The program

Reads the files and the standard input that the arguments ask for, and shows how the command ends.
-/
namespace TokenGrammar

/-- The content of a file with its path, if it can be read. -/
def readSource (path : String) : IO (Option (String × String)) := do
  try
    return some (path, ← IO.FS.readFile path)
  catch _ =>
    return none

/-- The build that the version shows. -/
def thisRelease : Release := ⟨"unspecified", "unspecified", "unspecified", "unspecified"⟩

end TokenGrammar

open TokenGrammar

/-- Runs the command line. -/
def main (arguments : List String) : IO UInt32 := do
  let invocation := Invocation.ofArguments arguments
  let files ← invocation.paths.filterMapM readSource
  let input ← if invocation.readsInput then (← IO.getStdin).readToEnd else pure ""
  let ending := invocation.exit thisRelease ⟨files, input⟩
  ending.log.forM IO.eprintln
  IO.print ending.printed
  return ending.code.toUInt32
