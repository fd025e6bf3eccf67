import LexicalScope.Parse.Result
import LexicalScope.Reference.Group
import LexicalScope.Scope.Binding

/-! # Globals

The globals of a program are its free variables. The program may be given as a source text, which
is parsed strictly, as a tree, as the result of a parse, or as something that converts to a tree.
A tree has to be a `Program`, while the tree of a text is taken as the parser gives it.
-/

namespace LexicalScope

inductive Source where
  | text (s : String)
  | value (t : Tree)
  | parsed (result : ParseResult)
  | convertible (t : Tree)

namespace Source

def tree? : Source → Option Tree
  | text _ => none
  | value t => some t
  | parsed result => some result.ast
  | convertible t => some t

end Source

def Tree.isProgram (t : Tree) : Bool := t.object?.any fun n => (n.get "type").isText "Program"

structure GlobalsOptions where
  hostEmbedded : Bool := false
  sourceType : Json := .str "script"
  sourceName : String := "<input>"

def Source.program (parser : Parser) (options : GlobalsOptions) : Source → Run Tree
  | .text s => parseProgram parser s options.sourceType options.sourceName
  | source =>
    match source.tree? with
    | none => Run.fail .invalidInput
    | some t => if t.isProgram then pure t else Run.fail .invalidInput

namespace Run

def resolve (program : Tree) (hostEmbedded : Bool) : Run ScopeMode := do
  let mode ← ofExcept (resolveMode program hostEmbedded)
  note (.resolved mode)
  return mode

def bindNew (program : Tree) (mode : ScopeMode) : Run ScopeTable := do
  match bindScopes program mode .empty with
  | (_, some e) => fail e
  | (table, none) =>
    note (.bound table.size)
    return table

def classify (program : Tree) (table : ScopeTable) : Run (List FreeReference) := do
  let free ← ofExcept (freeReferences program table)
  note (.classified free.length)
  return free

end Run

def globalsOf (program : Tree) (hostEmbedded : Bool) : Run (List FreeVariable) := do
  let mode ← Run.resolve program hostEmbedded
  let table ← Run.bindNew program mode
  let free ← Run.classify program table
  Run.ofExcept (groupReferences free)

/-- The free variables of a source, sorted by name. -/
def findGlobals (parser : Parser) (source : Source) (options : GlobalsOptions) :
    Run (List FreeVariable) := do
  let program ← source.program parser options
  let globals ← globalsOf program options.hostEmbedded
  Run.note (.found globals.length options.sourceName)
  return globals

end LexicalScope
