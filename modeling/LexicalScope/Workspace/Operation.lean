import LexicalScope.Workspace.Basic

/-! # Operations on a workspace

Every operation on a workspace gives a new workspace and an answer or a fault. An operation that
fails keeps what it had done to a table before.
-/

namespace LexicalScope

inductive ModeChoice where
  | given (mode : ScopeMode)
  | resolved (hostEmbedded : Bool)

inductive TreeOperation where
  | bind (choice : ModeChoice) (table : Nat)
  | classify (table : Nat) (append : Bool)
  | globals (hostEmbedded : Bool)
  | mode (hostEmbedded : Bool)
  | names
  | set (key : String) (value : Json)
  | scopeFor (table : Nat)
  | get (table : Nat)
  | declare (table : Nat) (name : Json)
  | declares (table : Nat) (name : Json)
  | localsOf (table : Nat)

inductive Operation where
  | at (place : List String) (operation : TreeOperation)
  /-- Group the free references found last. -/
  | group
  | scopes (table : Nat)
  | size (table : Nat)

inductive Answer where
  | done
  | nowhere
  | table (t : ScopeTable)
  | size (n : Nat)
  | free (rs : List FreeReference)
  | globals (vs : List FreeVariable)
  | mode (m : ScopeMode)
  | names (ts : List Tree)
  | scope (s : Option Scope)
  | locals (names : List Atom)
  | truth (b : Bool)

namespace ModeChoice

def mode (c : ModeChoice) (t : Tree) : Except Fault ScopeMode :=
  match c with
  | given m => .ok m
  | resolved hostEmbedded => resolveMode t hostEmbedded

end ModeChoice

def Json.asName : Json → Except Fault Atom
  | .atom a => .ok a
  | _ => .error .notHashable

namespace Workspace

variable (w : Workspace)

def bind (t : Tree) (choice : ModeChoice) (table : Nat) : Workspace × Except Fault Answer :=
  match choice.mode t with
  | .error e => (w, .error e)
  | .ok mode =>
    let (bound, fault) := bindScopes t mode (w.table table)
    (w.setTable table bound,
      match fault with
      | none => .ok (.table bound)
      | some e => .error e)

def classify (t : Tree) (table : Nat) (append : Bool) : Workspace × Except Fault Answer :=
  match freeReferences t (w.table table) with
  | .error e => (w, .error e)
  | .ok free => ({ w with free := if append then w.free ++ free else free }, .ok (.free free))

def scopeFor (owner : Label) (table : Nat) : Workspace × Except Fault Answer :=
  let created := (w.table table).create owner
  (w.setTable table created, .ok (.scope (created.get? owner)))

def declare (owner : Label) (table : Nat) (name : Json) : Workspace × Except Fault Answer :=
  match name.asName with
  | .error e => (w.setTable table ((w.table table).create owner), .error e)
  | .ok x =>
    let t := (w.table table).declare owner x
    (w.setTable table t, .ok (.locals (t.localsOf owner)))

/-- Whether a container declares a name. What is no name cannot be looked up in a scope. -/
def declares (owner : Label) (table : Nat) (name : Json) : Except Fault Answer :=
  match (w.table table).get? owner with
  | none => .ok (.truth false)
  | some s => name.asName.map fun x => .truth (s.declares x)

/-- The free variables of a tree, which needs no parser. -/
def treeGlobals (t : Tree) (hostEmbedded : Bool) : Except Fault Answer :=
  (findGlobals (fun _ => .returned .null true) (.value t) { hostEmbedded }).outcome.map .globals

/-- Perform an operation at a tree. A tree without a label owns no scope. -/
def perform (t : Tree) : TreeOperation → Workspace × Except Fault Answer
  | .bind choice table => w.bind t choice table
  | .classify table append => w.classify t table append
  | .globals hostEmbedded => (w, treeGlobals t hostEmbedded)
  | .mode hostEmbedded => (w, (resolveMode t hostEmbedded).map .mode)
  | .names => (w, (Pattern.names t).toExcept.map .names)
  | .set key value => (w.setMember t key value, .ok .done)
  | .scopeFor table =>
    match t.label? with
    | none => (w, .error .notObject)
    | some owner => w.scopeFor owner table
  | .get table => (w, .ok (.scope (t.label?.bind (w.table table).get?)))
  | .declare table name =>
    match t.label? with
    | none => (w, .error .notObject)
    | some owner => w.declare owner table name
  | .declares table name =>
    match t.label? with
    | none => (w, .ok (.truth false))
    | some owner => (w, w.declares owner table name)
  | .localsOf table => (w, .ok (.locals ((t.label?.map (w.table table).localsOf).getD [])))

def step : Operation → Workspace × Except Fault Answer
  | .at place operation =>
    match w.at? place with
    | none => (w, .ok .nowhere)
    | some t => w.perform t operation
  | .group => (w, (groupReferences w.free).map .globals)
  | .scopes table => (w, .ok (.table (w.table table)))
  | .size table => (w, .ok (.size (w.table table).size))

/-- The workspace after some operations, whether or not they succeed. -/
def after : Workspace → List Operation → Workspace
  | w, [] => w
  | w, operation :: operations => after (w.step operation).1 operations

end Workspace

end LexicalScope
