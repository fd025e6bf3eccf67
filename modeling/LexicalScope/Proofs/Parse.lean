import LexicalScope.Proofs.Source

/-! # Strict and tolerant parses

A strict and a tolerant parse of a text show the parser the same text and take the same tree from
it. They part only where the parser finds fault. The errors that it recovers from are listed by a
tolerant parse and passed over by a strict one, and the one that makes it give the text up is what
a strict parse fails with and all that a tolerant one has to tell.
-/

namespace LexicalScope

namespace Run

variable {α β : Type} {r : Run α} {f : α → Run β} {a : α}

theorem requests_bind_of_ok (h : r.outcome = .ok a) :
    (r >>= f).requests = r.requests ++ (f a).requests := by
  change (Run.bind r f).requests = _
  rw [Run.bind, h]

theorem notes_bind_of_ok (h : r.outcome = .ok a) :
    (r >>= f).notes = r.notes ++ (f a).notes := by
  change (Run.bind r f).notes = _
  rw [Run.bind, h]

end Run

/-! ## Source types -/

namespace SourceType

def name : SourceType → String
  | script => "script"
  | module => "module"

theorem ofJson?_name (sourceType : SourceType) :
    ofJson? (.str sourceType.name) = some sourceType := by
  cases sourceType <;> rfl

theorem ofJson?_eq_none {type : Json} (h : ∀ sourceType : SourceType, type ≠ .str sourceType.name) :
    ofJson? type = none := by
  unfold ofJson?
  split
  · exact absurd rfl (h script)
  · exact absurd rfl (h module)
  · rfl

end SourceType

/-! ## The text that the parser is shown -/

/-- A text and what is shown of it: a leading `#!` as `//`, and the rest as it is. -/
inductive ShownAs : String → String → Prop
  | hashbang (rest : String) : ShownAs ("#!" ++ rest) ("//" ++ rest)
  | plain {source : String} (h : ∀ rest, source ≠ "#!" ++ rest) : ShownAs source source

theorem stripHashbang_append (rest : String) : stripHashbang ("#!" ++ rest) = "//" ++ rest := by
  have hashbang : ("#!" ++ rest).toList = '#' :: '!' :: rest.toList := String.toList_append
  rw [stripHashbang, hashbang]
  exact String.toList_injective (by simp)

theorem stripHashbang_eq_self {source : String} (h : ∀ rest, source ≠ "#!" ++ rest) :
    stripHashbang source = source := by
  unfold stripHashbang
  split
  · next rest hashbang =>
    exact absurd (String.toList_injective (by simp [hashbang])) (h (String.ofList rest))
  · rfl

theorem shownAs_iff {source text : String} :
    ShownAs source text ↔ text = stripHashbang source := by
  constructor
  · rintro (rest | plain)
    · exact (stripHashbang_append rest).symm
    · exact (stripHashbang_eq_self plain).symm
  · rintro rfl
    by_cases hashbang : ∃ rest, source = "#!" ++ rest
    · obtain ⟨rest, rfl⟩ := hashbang
      rw [stripHashbang_append]
      exact .hashbang rest
    · have plain := not_exists.mp hashbang
      rw [stripHashbang_eq_self plain]
      exact .plain plain

theorem ShownAs.length_eq {source text : String} (h : ShownAs source text) :
    text.length = source.length := by
  cases h with
  | hashbang rest =>
    rw [String.length_append, String.length_append]
    rfl
  | plain h => rfl

/-! ## Errors -/

/-- The errors that come with a tree, which are none if it has no list of them. -/
inductive Tree.ReportsErrors : Tree → List Node → Prop
  | listed {n : Node} {l : Label} {entries : List Node}
      (h : n.get "errors" = .arr l (entries.map Node.tree)) : ReportsErrors n.tree entries
  | absent {n : Node} (h : n.get "errors" = .null) : ReportsErrors n.tree []
  | noObject {t : Tree} (h : t.object? = none) : ReportsErrors t []

def ParseError.ofNode (n : Node) : ParseError :=
  ⟨(n.get "description").erase, (n.get "lineNumber").erase, (n.get "column").erase⟩

theorem Tree.ReportsErrors.recoveredErrors {t : Tree} {entries : List Node}
    (h : t.ReportsErrors entries) :
    recoveredErrors t true = .ok (entries.map ParseError.ofNode) := by
  cases h with
  | @listed n l _ h =>
    change (n.get "errors").elements.map _ = _
    rw [h, elements_arr]
    exact congrArg Except.ok List.map_map
  | @absent n h =>
    change (n.get "errors").elements.map _ = _
    rw [h]
    rfl
  | noObject h =>
    cases t with
    | obj l fs => cases h
    | _ => rfl

/-- An error that says of a syntax error what it is, by description or else by text, and where it
is. -/
structure ParseError.TellsOf (e : ParseError) (error : SyntaxError) : Prop where
  described : ∀ d, error.description = some d → d.truthy = true → e.description = d
  undescribed : (∀ d, error.description = some d → d.truthy = false) →
    e.description = .str error.message
  line : e.line = error.line
  column : e.column = error.column

theorem ParseError.tellsOf_ofSyntaxError (error : SyntaxError) :
    (ofSyntaxError error).TellsOf error := by
  refine ⟨fun d given truthy => ?_, fun without => ?_, rfl, rfl⟩
  · simp [ofSyntaxError, given, truthy]
  · cases given : error.description with
    | none => simp [ofSyntaxError, given]
    | some d => simp [ofSyntaxError, given, without d given]

/-! ## The two parses -/

section

variable {parser : Parser} {source : String} {sourceType : SourceType}

theorem parseText_asks (parser : Parser) (source : String) (given : ParseOptions)
    (valid : SourceType.ofJson? given.sourceType = some sourceType) :
    (parseText parser source given).requests =
        [⟨sourceType, stripHashbang source, given.tolerant⟩] ∧
      (parseText parser source given).notes = [] := by
  simp only [parseText, valid]
  have asked : (Run.ask parser ⟨sourceType, stripHashbang source, given.tolerant⟩).outcome =
      .ok (parser ⟨sourceType, stripHashbang source, given.tolerant⟩) := rfl
  rw [Run.requests_bind_of_ok asked, Run.notes_bind_of_ok asked]
  cases parser ⟨sourceType, stripHashbang source, given.tolerant⟩ with
  | raised error => cases given.tolerant <;> exact ⟨rfl, rfl⟩
  | returned t writable =>
    cases listed : recoveredErrors t given.tolerant with
    | error e | ok errors =>
      simp only [listed]
      exact ⟨rfl, rfl⟩

theorem parseText_of_unknown (given : ParseOptions)
    (unknown : SourceType.ofJson? given.sourceType = none) :
    parseText parser source given = Run.fail (.unknownSourceType given.sourceType) := by
  simp only [parseText, unknown]

end

/-- What a strict and a tolerant parse of a text come to, given what the parser is asked. -/
structure ParsesAgree (parser : Parser) (sourceType : SourceType) (source name text : String)
    (strict tolerant : Run ParseResult) : Prop where
  asked : strict.requests = [⟨sourceType, text, false⟩] ∧
    tolerant.requests = [⟨sourceType, text, true⟩]
  returned : ∀ t writable entries, parser ⟨sourceType, text, false⟩ = .returned t writable →
    t.ReportsErrors entries →
    strict.outcome = .ok ⟨t, [], Sha256.ofString source, name, writable⟩ ∧
    tolerant.outcome =
      .ok ⟨t, entries.map ParseError.ofNode, Sha256.ofString source, name, writable⟩
  raised : ∀ error, parser ⟨sourceType, text, false⟩ = .raised error →
    strict.outcome = .error (.syntaxError error) ∧
    ∃ e, e.TellsOf error ∧
      tolerant.outcome = .ok ⟨.null, [e], Sha256.ofString source, name, true⟩

/-- A strict and a tolerant parse differ only in the errors, or in what they make of a text given
up. -/
theorem parseText_agrees (parser : Parser) (alike : parser.AnswersAlike) (source name : String)
    (type : Json) :
    ((∀ sourceType : SourceType, type ≠ .str sourceType.name) →
      ∀ tolerant, parseText parser source ⟨type, name, tolerant⟩ =
        Run.fail (.unknownSourceType type)) ∧
    ∀ sourceType : SourceType, type = .str sourceType.name →
      ∃ text, ShownAs source text ∧ text.length = source.length ∧
        ParsesAgree parser sourceType source name text
          (parseText parser source ⟨type, name, false⟩)
          (parseText parser source ⟨type, name, true⟩) := by
  constructor
  · intro unknown tolerant
    exact parseText_of_unknown _ (SourceType.ofJson?_eq_none unknown)
  · rintro sourceType rfl
    have valid := SourceType.ofJson?_name sourceType
    have shown : ShownAs source (stripHashbang source) := shownAs_iff.mpr rfl
    refine ⟨_, shown, shown.length_eq, ⟨(parseText_asks _ _ _ valid).1,
      (parseText_asks _ _ _ valid).1⟩, fun t writable entries answer reports => ⟨?_, ?_⟩,
      fun error answer => ⟨?_, _, ParseError.tellsOf_ofSyntaxError error, ?_⟩⟩
    · exact outcome_parseText_of_returned valid answer (recoveredErrors_strict t)
    · exact outcome_parseText_of_returned valid ((alike _ _ _).trans answer) reports.recoveredErrors
    · exact outcome_parseText_of_raised ⟨_, name, false⟩ valid answer
    · exact outcome_parseText_of_raised ⟨_, name, true⟩ valid ((alike _ _ _).trans answer)

/-- The two parses of `#!a` differ in one error. The text `(` defeats a strict parse, and `json` is
no source type. -/
theorem parseText_agrees_hashbang :
    oneTextParser.AnswersAlike ∧
    oneTextParser ⟨.script, "//a", false⟩ = .returned recoveredProgram true ∧
    recoveredProgram.ReportsErrors [⟨5, [("description", .str "Unexpected token")]⟩] ∧
    (parseText oneTextParser "#!a" ⟨.str "script", "a.js", false⟩).outcome =
      .ok ⟨recoveredProgram, [], Sha256.ofString "#!a", "a.js", true⟩ ∧
    (parseText oneTextParser "#!a" ⟨.str "script", "a.js", true⟩).outcome =
      .ok ⟨recoveredProgram, [⟨.str "Unexpected token", .null, .null⟩], Sha256.ofString "#!a",
        "a.js", true⟩ ∧
    (parseText oneTextParser "(" ⟨.str "script", "a.js", false⟩).outcome =
      .error (.syntaxError ⟨"Unexpected token", .null, .null, none⟩) ∧
    parseText oneTextParser "#!a" ⟨.str "json", "a.js", true⟩ =
      Run.fail (.unknownSourceType (.str "json")) := by
  have alike : oneTextParser.AnswersAlike := fun _ _ _ => rfl
  have answer : oneTextParser ⟨.script, "//a", false⟩ = .returned recoveredProgram true := rfl
  have reports : recoveredProgram.ReportsErrors
      [⟨5, [("description", .str "Unexpected token")]⟩] :=
    .listed (n := ⟨0, _⟩) rfl
  have other (sourceType : SourceType) : Json.str "json" ≠ .str sourceType.name := by
    cases sourceType <;> simp [Json.str, SourceType.name]
  obtain ⟨unknown, -⟩ := parseText_agrees oneTextParser alike "#!a" "a.js" (.str "json")
  obtain ⟨-, known⟩ := parseText_agrees oneTextParser alike "#!a" "a.js" (.str "script")
  obtain ⟨-, given⟩ := parseText_agrees oneTextParser alike "(" "a.js" (.str "script")
  obtain ⟨text, shown, -, agrees⟩ := known .script rfl
  obtain ⟨_, shown', -, gives⟩ := given .script rfl
  obtain rfl : text = "//a" := shownAs_iff.mp shown
  obtain ⟨strict, tolerant⟩ := agrees.returned _ _ _ answer reports
  exact ⟨alike, answer, reports, strict, tolerant,
    (gives.raised _ (by rw [shownAs_iff.mp shown']; rfl)).1, unknown other true⟩

end LexicalScope
