import LexicalScope.Json.Display
import LexicalScope.Json.Printer
import LexicalScope.Reference.Group

/-! # Listings

The listing of some free variables, as lines of name, count and positions, or as ASCII JSON. An
unknown line is shown as `?`, and an unknown column is left out.
-/

namespace LexicalScope.Command

def isNull : Json → Bool
  | .atom .null => true
  | _ => false

def positionText (line column : Json) : List Char :=
  if isNull line then ['?']
  else if isNull column then Display.bare line
  else Display.bare line ++ ':' :: Display.bare column

def lineOf (v : FreeVariable) : Except Fault (List Char) := do
  let positions ← v.members.mapM FreeReference.position
  let places := positions.map fun p => positionText p.line p.column
  return Display.bareAtom v.name ++ '\t' :: Nat.toDigits 10 v.count ++
    '\t' :: [',', ' '].intercalate places

def textListing (vs : List FreeVariable) : Except Fault String := do
  return String.ofList (['\n'].intercalate (← vs.mapM lineOf))

def occurrence (p : Position) : Json := .obj [("line", p.line), ("column", p.column)]

def variableJson (v : FreeVariable) : Except Fault Json := do
  let positions ← v.members.mapM FreeReference.position
  return .obj [("name", .atom v.name), ("occurrences", .arr (positions.map occurrence))]

def jsonListing (vs : List FreeVariable) : Except Fault String := do
  return (Json.arr (← vs.mapM variableJson)).render .indentedAscii

end LexicalScope.Command
