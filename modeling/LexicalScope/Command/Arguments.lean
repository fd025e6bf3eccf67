import LexicalScope.Text.Digit

/-! # Arguments

A command line names a subcommand, its input and some flags. Flags may be shortened to any
beginning that fits one of them only, and stand before or after the input; `--` ends them. A word
that looks like a flag and is none makes the line unusable, except that a request for help before
the end is still answered.
-/

namespace LexicalScope.Command

inductive Flag where
  | help
  | verbose
  | module
  | hostEmbedded
  | json
deriving DecidableEq, Repr

/-- The long flags of a command. All commands share the short flag `-h`. -/
abbrev Flags := List (String × Flag)

def topFlags : Flags := [("--help", .help), ("--verbose", .verbose)]

def scanFlags : Flags :=
  [("--help", .help), ("--module", .module), ("--host-embedded", .hostEmbedded), ("--json", .json)]

def parseFlags : Flags := [("--help", .help), ("--module", .module)]

inductive Word where
  | plain (s : String)
  | separator
  | flag (f : Flag)
  | valued
  | unknown
deriving DecidableEq, Repr

/-- A minus before digits, with or without a point between or before them. -/
def isNegativeNumber (cs : List Char) : Bool :=
  match cs with
  | '-' :: rest =>
    let rest := if rest.getLast? = some '\n' then rest.dropLast else rest
    match rest.dropWhile Text.isDecimalDigit with
    | [] => !rest.isEmpty
    | '.' :: ds => !ds.isEmpty && ds.all Text.isDecimalDigit
    | _ => false
  | _ => false

/-- Whether the letters after `-h` ask for help over and over, rather than give it a value. -/
def repeatsHelp (cs : List Char) : Bool := !cs.isEmpty && cs.all (· == 'h')

/-- The meaning of `-h` with more behind it, which may start with an equals sign. -/
def helpWord (cs : List Char) : Word := if repeatsHelp cs then .flag .help else .valued

def otherWord (s : String) : Word :=
  if isNegativeNumber s.toList || s.toList.contains ' ' then .plain s else .unknown

def readWord? (flags : Flags) (s : String) : Option Word :=
  let name := String.ofList (s.toList.takeWhile (· != '='))
  let isValued := s.toList.contains '='
  match s.toList with
  | ['-', 'h'] => some (.flag .help)
  | ['-'] => some (.plain s)
  | '-' :: '-' :: _ =>
    match flags.lookup name with
    | some f => some (if isValued then .valued else .flag f)
    | none =>
      match flags.filter fun f => name.toList.isPrefixOf f.1.toList with
      | [] => some (otherWord s)
      | [(_, f)] => some (if isValued then .valued else .flag f)
      | _ => none
  | '-' :: 'h' :: '=' :: rest => some (helpWord rest)
  | '-' :: 'h' :: rest => some (helpWord rest)
  | '-' :: _ => some (otherWord s)
  | _ => some (.plain s)

/-- The words of a line, each with its text; after `--` all are plain. -/
def readWords? (flags : Flags) : List String → Option (List (Word × String))
  | [] => some []
  | s :: rest =>
    if s = "--" then some ((.separator, s) :: rest.map fun r => (.plain r, r))
    else do
      let w ← readWord? flags s
      let ws ← readWords? flags rest
      some ((w, s) :: ws)

/-- What reading a line comes to, if it does not end in a request for help or in misuse. -/
inductive Reading (α : Type) where
  | help
  | misuse
  | read (value : α)

structure Given where
  input : Option String
  flags : List Flag
  surplus : Bool

def readGiven (g : Given) : List Word → Reading Given
  | [] => if g.input.isNone then .misuse else .read g
  | .flag .help :: _ => .help
  | .flag f :: ws => readGiven { g with flags := f :: g.flags } ws
  | .valued :: _ => .misuse
  | .unknown :: ws => readGiven { g with surplus := true } ws
  | .separator :: .plain s :: ws =>
    if g.input.isNone then readGiven { g with input := some s } ws
    else readGiven { g with surplus := true } ws
  | .separator :: ws => readGiven { g with surplus := true } ws
  | .plain s :: .separator :: ws =>
    if g.input.isNone then readGiven { g with input := some s } ws
    else readGiven { g with surplus := true } ws
  | .plain s :: ws =>
    if g.input.isNone then readGiven { g with input := some s } ws
    else readGiven { g with surplus := true } ws

def readSubcommand (flags : Flags) (args : List String) : Reading Given :=
  match readWords? flags args with
  | none => .misuse
  | some ws => readGiven ⟨none, [], false⟩ (ws.map (·.1))

structure Opening where
  verbose : Bool
  surplus : Bool
  subcommand : Option (String × List String)

def readOpening (o : Opening) : List (Word × String) → Reading Opening
  | [] => .read o
  | (.flag .help, _) :: _ => .help
  | (.flag _, _) :: ws => readOpening { o with verbose := true } ws
  | (.unknown, _) :: ws => readOpening { o with surplus := true } ws
  | (.plain s, _) :: ws => .read { o with subcommand := some (s, ws.map (·.2)) }
  | (.valued, _) :: _ | (.separator, _) :: _ => .misuse

inductive Topic where
  | overview
  | scan
  | parse
deriving DecidableEq, Repr

structure ScanOptions where
  input : String
  isModule : Bool
  hostEmbedded : Bool
  json : Bool

structure DumpOptions where
  input : String
  isModule : Bool

inductive Invocation where
  | help (topic : Topic)
  | misuse
  | nothing
  | scan (verbose : Bool) (options : ScanOptions)
  | parse (verbose : Bool) (options : DumpOptions)

def Given.invocation (g : Given) (surplus : Bool) (build : String → Invocation) : Invocation :=
  match g.input with
  | some input => if g.surplus || surplus then .misuse else build input
  | none => .misuse

def Opening.invocation (o : Opening) : Invocation :=
  match o.subcommand with
  | none => if o.surplus then .misuse else .nothing
  | some ("scan", args) =>
    match readSubcommand scanFlags args with
    | .help => .help .scan
    | .misuse => .misuse
    | .read g => g.invocation o.surplus fun input =>
      .scan o.verbose ⟨input, g.flags.contains .module, g.flags.contains .hostEmbedded,
        g.flags.contains .json⟩
  | some ("parse", args) =>
    match readSubcommand parseFlags args with
    | .help => .help .parse
    | .misuse => .misuse
    | .read g => g.invocation o.surplus fun input =>
      .parse o.verbose ⟨input, g.flags.contains .module⟩
  | some _ => .misuse

def readArguments (args : List String) : Invocation :=
  match readWords? topFlags args with
  | none => .misuse
  | some ws =>
    match readOpening ⟨false, false, none⟩ ws with
    | .help => .help .overview
    | .misuse => .misuse
    | .read o => o.invocation

end LexicalScope.Command
