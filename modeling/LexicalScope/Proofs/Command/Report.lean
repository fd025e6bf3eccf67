import LexicalScope.Command.Report
import LexicalScope.Proofs.Command.Listing
import LexicalScope.Proofs.Parse

/-! # How commands end

A command that names an input ends by what stands there and by what the parser makes of it. What is
missing or is a directory ends it with status one and a message. A text that is scanned is listed,
unless the parser gives it up, and one that is parsed is dumped in any case. Only bytes that are no
text let a fault escape.
-/

namespace LexicalScope

namespace Run

variable {α β : Type}

theorem bind_of_error {r : Run α} {f : α → Run β} {e : Fault} (h : r.outcome = .error e) :
    r >>= f = ⟨r.requests, r.notes, .error e⟩ := by
  change Run.bind r f = _
  rw [Run.bind, h]

theorem requests_bind_eq_nil {r : Run α} {f : α → Run β} (h : r.requests = [])
    (hf : ∀ a, (f a).requests = []) : (r >>= f).requests = [] := by
  cases hr : r.outcome with
  | error e => rw [bind_of_error hr, h]
  | ok a => rw [requests_bind_of_ok hr, h, hf, List.append_nil]

theorem requests_bindNew (t : Tree) (mode : ScopeMode) : (bindNew t mode).requests = [] := by
  unfold bindNew
  split
  · rfl
  · rfl

end Run

theorem requests_globalsOf (t : Tree) (hostEmbedded : Bool) :
    (globalsOf t hostEmbedded).requests = [] := by
  refine Run.requests_bind_eq_nil (Run.requests_bind_eq_nil rfl fun _ => rfl) fun mode => ?_
  refine Run.requests_bind_eq_nil (Run.requests_bindNew t mode) fun table => ?_
  exact Run.requests_bind_eq_nil (Run.requests_bind_eq_nil rfl fun _ => rfl) fun _ => rfl

section

variable {parser : Parser} {source : String}

theorem findGlobals_text_of_error (options : GlobalsOptions) {f : Fault}
    (h : (parseText parser source ⟨options.sourceType, options.sourceName, false⟩).outcome =
      .error f) : findGlobals parser (.text source) options =
        ⟨(parseText parser source ⟨options.sourceType, options.sourceName, false⟩).requests,
          (parseText parser source ⟨options.sourceType, options.sourceName, false⟩).notes,
          .error f⟩ := by
  have program : Source.program parser options (.text source) = ⟨_, _, .error f⟩ :=
    Run.bind_of_error h
  rw [findGlobals, Run.bind_of_error (congrArg Run.outcome program), program]

theorem requests_findGlobals_text {options : GlobalsOptions} {result : ParseResult}
    (h : (parseText parser source ⟨options.sourceType, options.sourceName, false⟩).outcome =
      .ok result) : (findGlobals parser (.text source) options).requests =
        (parseText parser source ⟨options.sourceType, options.sourceName, false⟩).requests := by
  have program : (Source.program parser options (.text source)).outcome = .ok result.ast :=
    outcome_parseProgram h
  have asked : (Source.program parser options (.text source)).requests = _ ++ [] :=
    Run.requests_bind_of_ok h
  rw [findGlobals, Run.requests_bind_of_ok program, asked, List.append_nil,
    Run.requests_bind_eq_nil (requests_globalsOf _ _), List.append_nil]
  exact fun _ => Run.requests_bind_eq_nil rfl fun _ => rfl

end

namespace Command

variable {parser : Parser} {verbose : Bool} {path : Path} {source : String}

theorem ofJson?_sourceTypeOf (isModule : Bool) : SourceType.ofJson? (sourceTypeOf isModule) =
    some (if isModule then .module else .script) := by
  cases isModule <;> rfl

theorem noteLines_nil (verbose : Bool) : noteLines verbose [] = "" := by
  cases verbose <;> rfl

theorem eq_null_of_isNull_erase {t : Tree} (h : isNull t.erase = true) : t = .null := by
  cases t with
  | atom a =>
    cases a with
    | null => rfl
    | _ => cases h
  | _ => cases h

def request (isModule : Bool) (source : String) (tolerant : Bool) : ParseRequest :=
  ⟨if isModule then .module else .script, stripHashbang source, tolerant⟩

def scanRun (parser : Parser) (o : ScanOptions) (path : Path) (source : String) :
    Run (List FreeVariable) :=
  findGlobals parser (.text source) ⟨o.hostEmbedded, sourceTypeOf o.isModule, path.text⟩

/-- How a scan of a text ends, by what the parser answers. -/
structure Scans (parser : Parser) (verbose : Bool) (o : ScanOptions) (path : Path)
    (source : String) (r : Report) : Prop where
  raised : ∀ error, parser (request o.isModule source false) = .raised error →
    r = ⟨.exit 1, "", "ERROR: Parsing failed: " ++ error.message ++ "\n",
      [request o.isModule source false]⟩
  returned : ∀ t writable vs,
    parser (request o.isModule source false) = .returned t writable → t.Located →
    (globalsOf t o.hostEmbedded).outcome = .ok vs →
    (scanRun parser o path source).outcome = .ok vs ∧
    ∃ listing, (if o.json then jsonListing vs else textListing vs) = .ok listing ∧
      (vs = [] → listing = if o.json then "[]" else "") ∧
      r = ⟨.exit 0, if vs.isEmpty && !o.json then "" else listing ++ "\n",
        noteLines verbose (scanRun parser o path source).notes,
        [request o.isModule source false]⟩

/-- How the parse of a text ends: with a line for each error, and status one just if there is no
tree. -/
structure Dumps (parser : Parser) (o : DumpOptions) (path : Path) (source : String) (r : Report) :
    Prop where
  raised : ∀ error, parser (request o.isModule source true) = .raised error → ∃ result,
    (parseText parser source ⟨sourceTypeOf o.isModule, path.text, true⟩).outcome = .ok result ∧
    result.ast = .null ∧ result.errors = [.ofSyntaxError error] ∧
    r = ⟨.exit 1, result.toJson.render .indented ++ "\n",
      errorLine path (.ofSyntaxError error), [request o.isModule source true]⟩
  returned : ∀ t, parser (request o.isModule source true) = .returned t true → t.ListsErrors →
    ∃ result,
    (parseText parser source ⟨sourceTypeOf o.isModule, path.text, true⟩).outcome = .ok result ∧
    result.ast = t ∧ recoveredErrors t true = .ok result.errors ∧
    r = ⟨.exit 0, result.toJson.render .indented ++ "\n",
      String.join (result.errors.map (errorLine path)), [request o.isModule source true]⟩

theorem scans_scanSource (o : ScanOptions) :
    Scans parser verbose o path source (scanSource parser verbose o path source) := by
  have valid := ofJson?_sourceTypeOf o.isModule
  obtain ⟨asked, quiet⟩ := parseText_asks parser source ⟨sourceTypeOf o.isModule, path.text, false⟩
    valid
  constructor
  · intro error answer
    have failed := outcome_parseText_of_raised ⟨sourceTypeOf o.isModule, path.text, false⟩ valid
      answer
    rw [if_neg Bool.false_ne_true] at failed
    have run := findGlobals_text_of_error ⟨o.hostEmbedded, sourceTypeOf o.isModule, path.text⟩
      failed
    rw [asked, quiet] at run
    simp only [scanSource, run, noteLines_nil, String.empty_append]
    rfl
  · intro t writable vs answer located found
    have parsed : (parseText parser source ⟨sourceTypeOf o.isModule, path.text, false⟩).outcome =
        .ok ⟨t, [], Sha256.ofString source, path.text, writable⟩ :=
      outcome_parseText_of_returned valid answer (recoveredErrors_strict t)
    have program : (Source.program parser ⟨o.hostEmbedded, sourceTypeOf o.isModule, path.text⟩
        (.text source)).outcome = .ok t := outcome_parseProgram parsed
    have run : (scanRun parser o path source).outcome = .ok vs :=
      (outcome_findGlobals_of_program program).trans found
    have requests : (scanRun parser o path source).requests = [request o.isModule source false] :=
      (requests_findGlobals_text parsed).trans asked
    obtain ⟨listing, listed⟩ := exists_listing
      (fun v hv r hr => located.exists_position found hv hr) o.json
    have report : scanSource parser verbose o path source = ⟨.exit 0,
        if listing = "" then "" else listing ++ "\n",
        noteLines verbose (scanRun parser o path source).notes,
        [request o.isModule source false]⟩ := by
      rw [scanRun] at run requests
      simp only [scanSource, run, listed, requests]
      rfl
    obtain ⟨empty, none⟩ := listing_eq_empty listed
    refine ⟨run, listing, listed, none, report.trans ?_⟩
    simp only [empty, Bool.and_eq_true, List.isEmpty_iff, Bool.not_eq_eq_eq_not, Bool.not_true]

theorem dumps_parseSource (o : DumpOptions) :
    Dumps parser o path source (parseSource parser verbose o path source) := by
  have valid := ofJson?_sourceTypeOf o.isModule
  obtain ⟨asked, quiet⟩ := parseText_asks parser source ⟨sourceTypeOf o.isModule, path.text, true⟩
    valid
  constructor
  · intro error answer
    have parsed : (parseText parser source ⟨sourceTypeOf o.isModule, path.text, true⟩).outcome =
        .ok ⟨.null, [.ofSyntaxError error], Sha256.ofString source, path.text, true⟩ :=
      outcome_parseText_of_raised _ valid answer
    refine ⟨_, parsed, rfl, rfl, ?_⟩
    simp only [parseSource, parsed, asked, quiet, noteLines_nil, String.empty_append]
    rfl
  · intro t answer listed
    obtain ⟨errors, recovered⟩ := listed.recoveredErrors true
    have parsed : (parseText parser source ⟨sourceTypeOf o.isModule, path.text, true⟩).outcome =
        .ok ⟨t, errors, Sha256.ofString source, path.text, true⟩ :=
      outcome_parseText_of_returned valid answer recovered
    have tree : isNull t.erase = false := by
      obtain ⟨v, found, -⟩ := listed
      cases t with
      | obj l fs => rfl
      | _ => cases found
    refine ⟨_, parsed, rfl, recovered, ?_⟩
    simp only [parseSource, parsed, tree, asked, quiet, noteLines_nil, String.empty_append]
    rfl

/-! ## Command lines -/

section

variable {directory : Path} {entries : Path → FileEntry} {args : List String} {input : String}

theorem openInput_eq (h : (Path.ofText directory input).toOption = some path) :
    openInput directory entries input = (readSource path (entries path)).map (path, ·) := by
  unfold openInput
  cases meant : Path.ofText directory input with
  | error f =>
    rw [meant] at h
    cases h
  | ok p =>
    rw [meant] at h
    obtain rfl := Option.some.inj h
    rfl

theorem report_of_unread {r : Report} (reads : (readArguments args).path? directory = some path)
    (unread : readSource path (entries path) = .error r) :
    report parser directory entries args = r := by
  rw [report]
  cases line : readArguments args with
  | scan verbose o | parse verbose o =>
    rw [line] at reads
    rw [Invocation.report, openInput_eq reads, unread]
    rfl
  | _ =>
    rw [line] at reads
    cases reads

theorem report_scan {o : ScanOptions} (reads : (readArguments args).path? directory = some path)
    (text : readSource path (entries path) = .ok source)
    (line : readArguments args = .scan verbose o) :
    report parser directory entries args = scanSource parser verbose o path source := by
  rw [line] at reads
  rw [report, line, Invocation.report, openInput_eq reads, text]
  rfl

theorem report_parse {o : DumpOptions} (reads : (readArguments args).path? directory = some path)
    (text : readSource path (entries path) = .ok source)
    (line : readArguments args = .parse verbose o) :
    report parser directory entries args = parseSource parser verbose o path source := by
  rw [line] at reads
  rw [report, line, Invocation.report, openInput_eq reads, text]
  rfl

theorem readSource_of_undecodable {bytes : ByteArray} {f : Fault}
    (undecodable : decodeSource bytes = .error f) :
    readSource path (.file bytes) = .error ⟨.escaped .undecodable, "", "", []⟩ := by
  have fault : f = .undecodable := by
    unfold decodeSource at undecodable
    split at undecodable
    · cases undecodable
    · exact (Except.error.inj undecodable).symm
  rw [readSource, undecodable, fault]

end

/-- How a command that names an input ends. Bytes that are no text are a fault that nothing catches.
-/
theorem report_ends (parser : Parser) (directory : Path) (entries : Path → FileEntry)
    (args : List String) {path : Path} (reads : (readArguments args).path? directory = some path) :
    (entries path = .missing → report parser directory entries args =
      ⟨.exit 1, "", "ERROR: Input file not found: " ++ path.text ++ "\n", []⟩) ∧
    (entries path = .directory → report parser directory entries args =
      ⟨.exit 1, "", "ERROR: Failed to read " ++ path.text ++ ": [Errno 21] Is a directory: " ++
        String.ofList (Display.quoted path.text.toList) ++ "\n", []⟩) ∧
    ∀ bytes, entries path = .file bytes →
      (∀ f, decodeSource bytes = .error f → report parser directory entries args =
        ⟨.escaped .undecodable, "", "", []⟩) ∧
      ∀ source, decodeSource bytes = .ok source →
        (∀ verbose o, readArguments args = .scan verbose o →
          Scans parser verbose o path source (report parser directory entries args)) ∧
        ∀ verbose o, readArguments args = .parse verbose o →
          Dumps parser o path source (report parser directory entries args) := by
  refine ⟨fun missing => ?_, fun isDirectory => ?_, fun bytes file => ⟨fun f undecodable => ?_,
    fun source decoded => ?_⟩⟩
  · exact report_of_unread reads (by rw [missing, readSource])
  · exact report_of_unread reads (by rw [isDirectory, readSource])
  · exact report_of_unread reads (by rw [file, readSource_of_undecodable undecodable])
  · have text : readSource path (entries path) = .ok source := by rw [file, readSource, decoded]
    constructor
    · intro verbose o line
      rw [report_scan reads text line]
      exact scans_scanSource o
    · intro verbose o line
      rw [report_parse reads text line]
      exact dumps_parseSource o

/-- A directory `/work` with the text `#!a` in `in.js`, and no text in any other file. -/
def workEntries (path : Path) : FileEntry :=
  if path = ["work", "in.js"] then .file "#!a".toUTF8 else .file ⟨#[0xff]⟩

/-- The scan of `#!a` lists `a`, whose position the parser does not tell. -/
theorem report_ends_hashbang :
    (readArguments ["scan", "in.js"]).path? ["work"] = some ["work", "in.js"] ∧
    decodeSource "#!a".toUTF8 = .ok "#!a" ∧
    oneTextParser (request false "#!a" false) = .returned recoveredProgram true ∧
    recoveredProgram.Located ∧ ∃ vs, (globalsOf recoveredProgram false).outcome = .ok vs ∧
    textListing vs = .ok "a\t1\t?" ∧
    report oneTextParser ["work"] workEntries ["scan", "in.js"] =
      ⟨.exit 0, "a\t1\t?\n", "", [⟨.script, "//a", false⟩]⟩ := by
  have reads : (readArguments ["scan", "in.js"]).path? ["work"] = some ["work", "in.js"] := rfl
  have decoded : decodeSource "#!a".toUTF8 = .ok "#!a" := rfl
  have answer : oneTextParser (request false "#!a" false) = .returned recoveredProgram true := rfl
  have located : recoveredProgram.Located := by
    have all : recoveredProgram.events.items.all fun e => isNull (e.node.get "loc").erase := by
      decide +kernel
    exact fun e he => .inl (eq_null_of_isNull_erase (List.all_eq_true.mp all e he))
  obtain ⟨vs, found, text⟩ : ∃ vs, (globalsOf recoveredProgram false).outcome = .ok vs ∧
      (textListing vs).toOption = some "a\t1\t?" := exists_ok_of_map (by decide +kernel)
  obtain ⟨-, -, file⟩ := report_ends oneTextParser ["work"] workEntries ["scan", "in.js"] reads
  obtain ⟨scans, -⟩ := (file _ rfl).2 _ decoded
  obtain ⟨-, listing, listed, -, ends⟩ := (scans false ⟨"in.js", false, false, false⟩ rfl).returned
    recoveredProgram true vs answer located found
  rw [if_neg Bool.false_ne_true] at listed
  rw [listed] at text
  obtain rfl : listing = "a\t1\t?" := Option.some.inj text
  have some : vs ≠ [] := (textListing_eq_empty listed).not.mp (by decide)
  refine ⟨reads, decoded, answer, located, vs, found, listed, ends.trans ?_⟩
  rw [List.isEmpty_eq_false_iff.mpr some]
  rfl

/-- A file whose only byte is no text ends a scan without a status. -/
theorem not_report_exits_undecodable :
    ¬ ∀ (parser : Parser) (directory : Path) (entries : Path → FileEntry) (args : List String)
      (path : Path) (bytes : ByteArray) (f : Fault),
      (readArguments args).path? directory = some path → entries path = .file bytes →
      decodeSource bytes = .error f →
      ∃ message, report parser directory entries args = ⟨.exit 1, "", message, []⟩ := by
  intro exits
  obtain ⟨message, same⟩ := exits oneTextParser ["work"] workEntries ["scan", "x.js"]
    ["work", "x.js"] ⟨#[0xff]⟩ .undecodable rfl rfl rfl
  cases congrArg Report.ending same

end Command

end LexicalScope
