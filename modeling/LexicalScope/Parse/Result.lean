import LexicalScope.Digest.Sha256
import LexicalScope.Json.Printer
import LexicalScope.Run
import LexicalScope.Tree.Node

/-! # Parse results

The result of a parse is the tree with the errors that the parser recovered from, the digest of the
source and its name. A tolerant parse that fails altogether results in no tree and one error, where
a strict one passes the syntax error on.
-/

namespace LexicalScope

structure ParseError where
  description : Json
  line : Json
  column : Json

structure ParseResult where
  ast : Tree
  errors : List ParseError
  sourceHash : String
  sourceName : String
  writable : Bool

namespace ParseError

def toJson (e : ParseError) : Json :=
  .obj [("description", e.description), ("line", e.line), ("column", e.column)]

/-- The error that stands for a parse that failed altogether. -/
def ofSyntaxError (e : SyntaxError) : ParseError :=
  let description := match e.description with
    | some d => if d.truthy then d else .str e.message
    | none => .str e.message
  ⟨description, e.line, e.column⟩

/-- An entry of a tree's list of errors; what is no object has no details. -/
def ofEntry (entry : Tree) : ParseError :=
  match entry with
  | .obj l fs =>
    let n : Node := ⟨l, fs⟩
    ⟨(n.get "description").erase, (n.get "lineNumber").erase, (n.get "column").erase⟩
  | _ => ⟨.null, .null, .null⟩

end ParseError

namespace ParseResult

def toJson (r : ParseResult) : Json :=
  .obj [("ast", r.ast.erase), ("errors", .arr (r.errors.map ParseError.toJson)),
    ("source_hash", .str r.sourceHash), ("source_name", .str r.sourceName)]

def text (r : ParseResult) : Except Fault String :=
  if r.writable then .ok (r.toJson.render .indented) else .error .notWritable

end ParseResult

def recoveredErrors (ast : Tree) (tolerant : Bool) : Except Fault (List ParseError) :=
  match ast with
  | .obj l fs =>
    if tolerant then (Node.get ⟨l, fs⟩ "errors").elements.map (·.map ParseError.ofEntry) else .ok []
  | _ => .ok []

structure ParseOptions where
  sourceType : Json := .str "script"
  sourceName : String := "<input>"
  tolerant : Bool := true

def parseText (parser : Parser) (source : String) (options : ParseOptions) : Run ParseResult := do
  let some sourceType := SourceType.ofJson? options.sourceType
    | Run.fail (.unknownSourceType options.sourceType)
  match ← Run.ask parser ⟨sourceType, stripHashbang source, options.tolerant⟩ with
  | .raised error =>
    if options.tolerant then
      return ⟨.null, [.ofSyntaxError error], Sha256.ofString source, options.sourceName, true⟩
    else Run.fail (.syntaxError error)
  | .returned ast writable =>
    let errors ← Run.ofExcept (recoveredErrors ast options.tolerant)
    return ⟨ast, errors, Sha256.ofString source, options.sourceName, writable⟩

/-- The tree of a source text that has to be free of syntax errors. -/
def parseProgram (parser : Parser) (source : String) (sourceType : Json) (sourceName : String) :
    Run Tree := do
  return (← parseText parser source ⟨sourceType, sourceName, false⟩).ast

end LexicalScope
