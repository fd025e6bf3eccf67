import LexicalScope.Reference.Free

/-! # Free variables

Members of a list that share a name make a group, in the order they stand in the list, and the
groups are sorted by name, texts by code point. Names of unlike kinds cannot be sorted. A free
variable is a group of free references.
-/

namespace LexicalScope

structure NameGroup (α : Type) where
  name : Atom
  members : List α

namespace NameGroup

variable {α : Type}

def count (g : NameGroup α) : Nat := g.members.length

def key (g : NameGroup α) : Key := g.name.key

end NameGroup

abbrev FreeVariable := NameGroup FreeReference

namespace Key

def comparable : List Key → Bool
  | [] => true
  | k :: ks => ks.all (fun l => (k.less? l).isSome) && comparable ks

/-- Sort members whose keys differ. -/
def sortBy {α : Type} (key : α → Key) (as : List α) : Except Fault (List α) :=
  if comparable (as.map key) then
    .ok (as.mergeSort fun a b => ((key b).less? (key a)).all (!·))
  else .error .notComparable

end Key

namespace Grouping

variable {α : Type}

/-- Add a member to the group of its name, which comes last if it is new. -/
def add (name : Atom) (a : α) : List (NameGroup α) → List (NameGroup α)
  | [] => [⟨name, [a]⟩]
  | g :: gs =>
    if g.key == name.key then { g with members := g.members ++ [a] } :: gs
    else g :: add name a gs

def addAll (name : α → Tree) (gs : List (NameGroup α)) : List α → Except Fault (List (NameGroup α))
  | [] => .ok gs
  | a :: as => do
    let x ← (name a).asName
    addAll name (add x a gs) as

end Grouping

def groupByName {α : Type} (name : α → Tree) (as : List α) : Except Fault (List (NameGroup α)) := do
  Key.sortBy NameGroup.key (← Grouping.addAll name [] as)

def groupReferences (rs : List FreeReference) : Except Fault (List FreeVariable) :=
  groupByName FreeReference.name rs

end LexicalScope
