import LexicalScope.Tree.Basic

/-! # Pointers

A pointer names a place in a tree by the keys and indices that lead to it. Its text puts a slash
before each of them, and writes a tilde as `~0` and a slash as `~1`.
-/

namespace LexicalScope

inductive Step where
  | key (k : String)
  | index (i : Nat)
deriving DecidableEq, Repr

abbrev Pointer := List Step

namespace Step

def escape (c : Char) : List Char :=
  if c = '~' then ['~', '0'] else if c = '/' then ['~', '1'] else [c]

def text : Step → List Char
  | key k => '/' :: k.toList.flatMap escape
  | index i => '/' :: Nat.toDigits 10 i

def unescape : List Char → List Char
  | '~' :: '1' :: rest => '/' :: unescape rest
  | '~' :: '0' :: rest => '~' :: unescape rest
  | c :: rest => c :: unescape rest
  | [] => []

end Step

namespace Pointer

def text (p : Pointer) : List Char := p.flatMap Step.text

def parts (s : String) : List String :=
  (s.toList.splitOn '/').map fun part => String.ofList (Step.unescape part)

end Pointer

namespace Tree

/-- The tree at the end of a way down, each part of which is a key or the digits of an index. -/
def descend? (t : Tree) : List String → Option Tree
  | [] => some t
  | part :: parts =>
    match t with
    | obj _ fs => (fs.lookup part).bind (descend? · parts)
    | arr _ vs => do
      let i ← part.toNat?
      let v ← vs[i]?
      v.descend? parts
    | atom _ => none

mutual

/-- Every container below a tree with its pointer, given the pointer of the tree, reversed. -/
def places (above : List Step) : Tree → List (Label × Pointer × Tree)
  | atom _ => []
  | t@(arr l vs) => (l, above.reverse, t) :: placesItems above 0 vs
  | t@(obj l fs) => (l, above.reverse, t) :: placesFields above fs

def placesItems (above : List Step) (i : Nat) : List Tree → List (Label × Pointer × Tree)
  | [] => []
  | v :: vs => v.places (.index i :: above) ++ placesItems above (i + 1) vs

def placesFields (above : List Step) : List (String × Tree) → List (Label × Pointer × Tree)
  | [] => []
  | (k, v) :: fs => v.places (.key k :: above) ++ placesFields above fs

end

end Tree

end LexicalScope
