import TerseSchema.CommandLine

/-!
# The program

Reads the files that a command line names, runs it, prints what it prints and
exits with its code.  The log goes to the same stream as what is printed.
-/

namespace TerseSchema.CommandLine

/-- Reads a file; one that cannot be read is missing. -/
def readFile? (name : String) : IO (Option String) :=
  try
    return some (← IO.FS.readFile name)
  catch _ => return none

/-- Reads the files with some names. -/
def readFiles (names : List String) : IO Files := do
  let texts ← names.mapM fun name => do return (name, ← readFile? name)
  return fun name => (texts.lookup name).bind id

/-- Draws for the samples that are picked at random. -/
def randomDraws : IO Draws := do
  let seed ← IO.rand 0 (pow2 31)
  return ⟨fun path => seed + path.text.hash.toNat, fun name => seed + name.hash.toNat⟩

end TerseSchema.CommandLine

open TerseSchema.CommandLine in
def main (args : List String) : IO UInt32 := do
  let files ← readFiles (((read args).toOption.map Invocation.files).getD [])
  let outcome := run files (← randomDraws) args
  IO.print outcome.stdout
  for failure in outcome.errors do
    IO.println ("ERROR " ++ failure)
  return outcome.exit.toUInt32
