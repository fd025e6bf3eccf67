import LexicalScope.Command.Files
import LexicalScope.Command.Help
import LexicalScope.Command.Listing
import LexicalScope.Globals

/-! # Reports

The report of a command line holds what it writes to the standard output and to the error output,
the requests it makes to the parser, and how it ends. Missing files, directories and syntax errors
end it with status one and a message; any other fault escapes.
-/

namespace LexicalScope.Command

inductive Ending where
  | exit (status : Nat)
  /-- The line asked for help or was misused, so no command ran. -/
  | usage (status : Nat)
  | escaped (fault : Fault)

structure Report where
  ending : Ending
  output : String
  errors : String
  requests : List ParseRequest

def flagWord (b : Bool) : String := if b then "True" else "False"

def noteLine : Note → String
  | .resolved m =>
    "DEBUG:freevars.modes:Resolved scope mode: module=" ++ flagWord m.inModule ++ " strict=" ++
      flagWord m.strict ++ " host_embedded=" ++ flagWord m.hostEmbedded ++ "\n"
  | .bound scopes =>
    "DEBUG:freevars.binder:Bound declarations into " ++ toString scopes ++ " scopes\n"
  | .classified free =>
    "DEBUG:freevars.classifier:Classified " ++ toString free ++ " free references\n"
  | .found globals sourceName =>
    "DEBUG:freevars.finder:Found " ++ toString globals ++ " free variables in " ++ sourceName ++
      "\n"

def noteLines (verbose : Bool) (notes : List Note) : String :=
  if verbose then String.join (notes.map noteLine) else ""

/-- The source text at a path, or the report of why there is none. -/
def readSource (path : Path) (entry : FileEntry) : Except Report String :=
  match entry with
  | .missing =>
    .error ⟨.exit 1, "", "ERROR: Input file not found: " ++ path.text ++ "\n", []⟩
  | .directory =>
    .error ⟨.exit 1, "", "ERROR: Failed to read " ++ path.text ++ ": [Errno 21] Is a directory: " ++
      String.ofList (Display.quoted path.text.toList) ++ "\n", []⟩
  | .tooLong => .error ⟨.escaped .pathTooLong, "", "", []⟩
  | .file bytes =>
    match decodeSource bytes with
    | .ok s => .ok s
    | .error e => .error ⟨.escaped e, "", "", []⟩

def openInput (directory : Path) (entries : Path → FileEntry) (input : String) :
    Except Report (Path × String) :=
  match Path.ofText directory input with
  | .error e => .error ⟨.escaped e, "", "", []⟩
  | .ok path => (readSource path (entries path)).map (path, ·)

def sourceTypeOf (isModule : Bool) : Json := .str (if isModule then "module" else "script")

def scanSource (parser : Parser) (verbose : Bool) (o : ScanOptions) (path : Path)
    (source : String) : Report :=
  let run := findGlobals parser (.text source) ⟨o.hostEmbedded, sourceTypeOf o.isModule, path.text⟩
  let errors := noteLines verbose run.notes
  match run.outcome with
  | .error (.syntaxError e) =>
    ⟨.exit 1, "", errors ++ "ERROR: Parsing failed: " ++ e.message ++ "\n", run.requests⟩
  | .error e => ⟨.escaped e, "", errors, run.requests⟩
  | .ok vs =>
    match if o.json then jsonListing vs else textListing vs with
    | .error e => ⟨.escaped e, "", errors, run.requests⟩
    | .ok listing =>
      ⟨.exit 0, if listing = "" then "" else listing ++ "\n", errors, run.requests⟩

def errorLine (path : Path) (e : ParseError) : String :=
  "ERROR " ++ path.text ++ ":" ++ String.ofList (positionText e.line e.column) ++ ": " ++
    String.ofList (Display.bare e.description) ++ "\n"

def parseSource (parser : Parser) (verbose : Bool) (o : DumpOptions) (path : Path)
    (source : String) : Report :=
  let run := parseText parser source ⟨sourceTypeOf o.isModule, path.text, true⟩
  let errors := noteLines verbose run.notes
  match run.outcome with
  | .error e => ⟨.escaped e, "", errors, run.requests⟩
  | .ok r =>
    match r.text with
    | .error e => ⟨.escaped e, "", errors, run.requests⟩
    | .ok s =>
      ⟨.exit (if isNull r.ast.erase then 1 else 0), s ++ "\n",
        errors ++ String.join (r.errors.map (errorLine path)), run.requests⟩

def Invocation.path? (i : Invocation) (directory : Path) : Option Path :=
  match i with
  | .scan _ o => (Path.ofText directory o.input).toOption
  | .parse _ o => (Path.ofText directory o.input).toOption
  | _ => none

def Invocation.report (i : Invocation) (parser : Parser) (directory : Path)
    (entries : Path → FileEntry) : Report :=
  match i with
  | .help topic => ⟨.usage 0, topic.text, "", []⟩
  | .misuse => ⟨.usage 2, "", "", []⟩
  | .nothing => ⟨.exit 1, Topic.overview.text, "", []⟩
  | .scan verbose o =>
    match openInput directory entries o.input with
    | .error r => r
    | .ok (path, source) => scanSource parser verbose o path source
  | .parse verbose o =>
    match openInput directory entries o.input with
    | .error r => r
    | .ok (path, source) => parseSource parser verbose o path source

def report (parser : Parser) (directory : Path) (entries : Path → FileEntry) (args : List String) :
    Report :=
  (readArguments args).report parser directory entries

end LexicalScope.Command
