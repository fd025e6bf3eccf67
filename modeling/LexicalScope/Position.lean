import LexicalScope.Json.Display
import LexicalScope.Tree.Node

/-! # Positions

A node's position is the start of its `loc`. An absent or false part leaves the position open, and
one that is no object is a fault. A message names the position when line and column are both known.
-/

namespace LexicalScope

structure Position where
  line : Json
  column : Json

namespace Tree

def position (t : Tree) : Except Fault Position := do
  let location ← t.get? "loc"
  if !location.truthy then return ⟨.null, .null⟩
  let start ← location.get? "start"
  if !start.truthy then return ⟨.null, .null⟩
  return ⟨(← start.get? "line").erase, (← start.get? "column").erase⟩

end Tree

namespace Position

def suffix (p : Position) : List Char :=
  match p.line, p.column with
  | .atom .null, _ => []
  | _, .atom .null => []
  | line, column =>
    " (line ".toList ++ Display.bare line ++ ", column ".toList ++ Display.bare column ++ [')']

end Position

namespace Tree

/-- What a message about a tree adds; nothing for what is no object. -/
def positionSuffix (t : Tree) : Except Fault (List Char) :=
  match t with
  | obj _ _ => t.position.map Position.suffix
  | _ => .ok []

/-- The fault of meeting a tree where a pattern should stand, unless its position cannot be read. -/
def unsupported (t : Tree) : Fault :=
  match t.positionSuffix with
  | .ok _ => .unsupportedPattern t
  | .error e => e

end Tree

end LexicalScope
