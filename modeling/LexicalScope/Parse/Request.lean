import LexicalScope.Fault

/-! # Asking a parser

A parser answers a request with a tree or with a syntax error. It is asked for a script or a module,
strictly or tolerantly, and a first line that begins with `#!` reaches it as a comment of the same
width, so that positions stay as they were.
-/

namespace LexicalScope

inductive SourceType where
  | script
  | module
deriving DecidableEq, Repr

namespace SourceType

def ofJson? : Json → Option SourceType
  | .atom (.str "script") => some script
  | .atom (.str "module") => some module
  | _ => none

end SourceType

structure ParseRequest where
  sourceType : SourceType
  source : String
  tolerant : Bool
deriving DecidableEq

inductive ParseAnswer where
  | raised (error : SyntaxError)
  /-- A tree, and whether all of it is data that can be written as JSON. -/
  | returned (tree : Tree) (writable : Bool)

abbrev Parser := ParseRequest → ParseAnswer

/-- Turn `#!` at the start of a text into `//`. -/
def stripHashbang (source : String) : String :=
  match source.toList with
  | '#' :: '!' :: rest => String.ofList ('/' :: '/' :: rest)
  | _ => source

end LexicalScope
