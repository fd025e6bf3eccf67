import LexicalScope.Command.Report
import LexicalScope.Json.Reader
import LexicalScope.Parse.Answer

/-! # Command line

Lists the free variables of a source file or dumps its tree. The first line of the standard input
holds the answer of the parser to the source text, as JSON.
-/

open LexicalScope LexicalScope.Command

def readEntry (path : Path) : IO FileEntry :=
  tryCatch (do return .file (← IO.FS.readBinFile path.text)) fun e =>
    match e with
    | .inappropriateType _ 21 _ => return .directory
    | .invalidArgument _ _ _ => return .tooLong
    | _ => return .missing

/-- The answer of the parser, which is a null tree if it cannot be read. -/
def readAnswer (input : String) : ParseAnswer := .ofJson ((Json.parse? input).getD .null)

def main (args : List String) : IO UInt32 := do
  let directory : Path := Path.resolve [] (toString (← IO.currentDir))
  let invocation := readArguments args
  let entry ← match invocation.path? directory with
    | some path => readEntry path
    | none => pure .missing
  let answer ← match entry with
    | .file _ => (← IO.getStdin).getLine
    | _ => pure ""
  let report := invocation.report (fun _ => readAnswer answer) directory fun _ => entry
  IO.print report.output
  IO.eprint report.errors
  match report.ending with
  | .exit status | .usage status => return status.toUInt32
  | .escaped _ => return 1
