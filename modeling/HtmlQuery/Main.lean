import HtmlQuery.Cli.Run

/-! The query tool's entry point: it reads the file that the arguments name, if any, and prints
what `Cli.respond` answers. -/

open HtmlQuery

/-- The bytes of the file at `path`, if it can be read. -/
def readFileBytes (path : String) : IO (Option ByteArray) := do
  try
    return some (← IO.FS.readBinFile path)
  catch _ =>
    return none

def main (args : List String) : IO UInt32 := do
  let files : Html.Files ← match Cli.fileToRead args with
    | some path => do
      let bytes ← readFileBytes path
      pure fun p => if p == path then bytes else none
    | none => pure fun _ => none
  let out := Cli.respond args files
  IO.print out.stdout
  IO.eprint out.stderr
  return out.code.toUInt32
