import LexicalScope.Command.Files

/-! # Volumes

A volume is a file system held as a value. A path is looked up name by name from the root, so the
first name that is missing, or too long to be anywhere, decides what stands at the path.
-/

namespace LexicalScope.Command

/-- The files, and the directories that are there even if no file is below them. -/
structure Volume where
  files : List (Path × ByteArray)
  directories : List Path

namespace Volume

/-- The longest name, in bytes of UTF-8. -/
def maxNameSize : Nat := 255

def maxPathSize : Nat := 4095

/-- A path that leads to a file or a directory is itself that of a directory. -/
def find (v : Volume) (p : Path) : FileEntry :=
  match v.files.lookup p with
  | some bytes => .file bytes
  | none =>
    if p.isEmpty || (v.directories ++ v.files.map (·.1)).any p.isPrefixOf then .directory
    else .missing

def isDirectory (v : Volume) (p : Path) : Bool :=
  match v.find p with
  | .directory => true
  | _ => false

/-- Look up names one after the other. A name is looked for in a directory only. -/
def follow (v : Volume) (above : Path) : List String → FileEntry
  | [] => v.find above
  | name :: names =>
    if !v.isDirectory above then .missing
    else if maxNameSize < name.utf8ByteSize then .tooLong
    else v.follow (above ++ [name]) names

def entry (v : Volume) (p : Path) : FileEntry :=
  if maxPathSize < p.text.utf8ByteSize then .tooLong else v.follow [] p

end Volume

end LexicalScope.Command
