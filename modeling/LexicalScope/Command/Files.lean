import LexicalScope.Fault
import LexicalScope.Text.Newline

/-! # Files

A path is the list of names that lead from the root to a file. The text of a path is resolved by its
letters alone, against a working directory, so `..` takes back the name before it whether or not
that name exists. A source file is UTF-8 text.
-/

namespace LexicalScope.Command

abbrev Path := List String

namespace Path

/-- Follow the names of a path one by one, given the names so far, last first. -/
def follow (above : List String) : List String → Path
  | [] => above.reverse
  | name :: names =>
    if name = "" || name = "." then follow above names
    else if name = ".." then follow above.tail names
    else follow (name :: above) names

def names (s : String) : List String := (s.toList.splitOn '/').map String.ofList

def resolve (directory : Path) (s : String) : Path :=
  if s.toList.head? = some '/' then follow [] (names s) else follow directory.reverse (names s)

def ofText (directory : Path) (s : String) : Except Fault Path :=
  if s.toList.contains '\x00' then .error .nullInPath else .ok (resolve directory s)

def text (p : Path) : String :=
  if p.isEmpty then "/" else String.ofList (p.flatMap fun name => '/' :: name.toList)

end Path

inductive FileEntry where
  | missing
  | directory
  | file (bytes : ByteArray)
  | tooLong

def decodeSource (bytes : ByteArray) : Except Fault String :=
  match String.fromUTF8? bytes with
  | some s => .ok (String.ofList (Text.unifyNewlines s.toList))
  | none => .error .undecodable

end LexicalScope.Command
