import LexicalScope.Globals
import LexicalScope.Tree.Pointer

/-! # Workspaces

A workspace holds trees that are analysed and edited, scope tables by number, and the free
references found last. An edit gives new labels to what it brings in, so what was replaced keeps its
scopes and never shares them with what took its place.
-/

namespace LexicalScope

namespace Tree

/-- Set a member in a list of fields: in its place if it is there, and else at the end. -/
def setField (key : String) (value : Tree) : List (String × Tree) → List (String × Tree)
  | [] => [(key, value)]
  | (k, v) :: fs => if k == key then (k, value) :: fs else (k, v) :: setField key value fs

mutual

def setMember (target : Label) (key : String) (value : Tree) : Tree → Tree
  | atom a => atom a
  | arr l vs => arr l (setMemberItems target key value vs)
  | obj l fs =>
    if l = target then obj l (setField key value fs)
    else obj l (setMemberFields target key value fs)

def setMemberItems (target : Label) (key : String) (value : Tree) : List Tree → List Tree
  | [] => []
  | v :: vs => setMember target key value v :: setMemberItems target key value vs

def setMemberFields (target : Label) (key : String) (value : Tree) :
    List (String × Tree) → List (String × Tree)
  | [] => []
  | (k, v) :: fs => (k, setMember target key value v) :: setMemberFields target key value fs

end

end Tree

structure Workspace where
  trees : List Tree
  /-- What edits have replaced. -/
  detached : List Tree
  next : Label
  tables : List (Nat × ScopeTable)
  free : List FreeReference

namespace Workspace

def ofValues (vs : List Json) : Workspace :=
  let (trees, next) := Json.labelItems 0 vs
  ⟨trees, [], next, [], []⟩

/-- The tree at a place, which is the index of a tree and the way down from its root. -/
def at? (w : Workspace) : List String → Option Tree
  | [] => none
  | root :: parts => do
    let i ← root.toNat?
    let t ← w.trees[i]?
    t.descend? parts

def table (w : Workspace) (number : Nat) : ScopeTable := (w.tables.lookup number).getD .empty

def setTable (w : Workspace) (number : Nat) (t : ScopeTable) : Workspace :=
  { w with tables := (number, t) :: w.tables.filter (·.1 != number) }

/-- Set a member of the object at the end of a way; nothing happens to what is no object. -/
def setMember (w : Workspace) (owner : Tree) (key : String) (value : Json) : Workspace :=
  match owner with
  | .obj label fs =>
    let (value, next) := value.labelFrom w.next
    { w with
      trees := w.trees.map (Tree.setMember label key value)
      detached := (fs.lookup key).toList ++ w.detached
      next }
  | _ => w

def places (w : Workspace) : List (Label × Option (Nat × Pointer) × Tree) :=
  (w.trees.zipIdx.flatMap fun (t, i) => (t.places []).map fun (l, p, u) => (l, some (i, p), u)) ++
    w.detached.flatMap fun t => (t.places []).map fun (l, _, u) => (l, none, u)

end Workspace

end LexicalScope
