import LexicalScope.Proofs.TreeFault

/-! # Shapes of an input

A program may be given as a tree, as the result of a parse that holds the tree, as something that
converts to it, or as the text that a parser makes it of. The shape makes no difference to what is
found. A tree that is no program is refused before any stage of the analysis, and nothing else is
refused like that.
-/

namespace LexicalScope

/-- A value as it is given to an analysis: a text is a source text. -/
def Source.ofTree : Tree → Source
  | .atom (.str s) => .text s
  | t => .value t

/-- A parser that does not answer a tolerant request otherwise than a strict one. -/
def Parser.AnswersAlike (parser : Parser) : Prop :=
  ∀ sourceType source tolerant, parser ⟨sourceType, source, tolerant⟩ =
    parser ⟨sourceType, source, false⟩

namespace Tree

variable {t : Tree}

def IsProgram (t : Tree) : Prop := ∃ n, t.object? = some n ∧ n.get "type" = .str "Program"

/-- The errors that a parser recovered from are a list, or there are none. -/
def ListsErrors (t : Tree) : Prop := ∃ v, t.get? "errors" = .ok v ∧ v.IsListOf fun _ => True

theorem isProgram_eq_true : t.isProgram = true ↔ t.IsProgram := by
  unfold isProgram IsProgram
  cases t.object? <;> simp [isText_eq_true]

theorem IsProgram.ne_atom (h : t.IsProgram) (a : Atom) : t ≠ .atom a := by
  rintro rfl
  obtain ⟨n, hn, -⟩ := h
  cases hn

end Tree

variable {parser : Parser} {options : GlobalsOptions} {t : Tree}

theorem outcome_findGlobals_of_program {source : Source}
    (h : (source.program parser options).outcome = .ok t) :
    (findGlobals parser source options).outcome = (globalsOf t options.hostEmbedded).outcome := by
  rw [findGlobals, Run.outcome_bind_of_ok h]
  cases hg : (globalsOf t options.hostEmbedded).outcome with
  | ok gs => rw [Run.outcome_bind_of_ok hg, Run.outcome_bind_of_ok (Run.outcome_note _)]; rfl
  | error e => exact Run.outcome_bind_of_error hg

namespace Source

theorem findGlobals_of_tree? {source : Source} (h : source.tree? = some t) :
    findGlobals parser source options = findGlobals parser (.value t) options := by
  cases source <;> cases h <;> rfl

theorem ofTree_eq_value (h : ∀ s, t ≠ .str s) : ofTree t = .value t := by
  unfold ofTree
  split
  · next s => exact absurd rfl (h s)
  · rfl

theorem ofTree_of_isProgram (h : t.IsProgram) : ofTree t = .value t :=
  ofTree_eq_value fun s => h.ne_atom (.str s)

theorem program_value_of_isProgram (h : t.IsProgram) :
    (Source.value t).program parser options = pure t := by
  simp [program, tree?, Tree.isProgram_eq_true.mpr h]

theorem findGlobals_of_not_isProgram (h : ¬ t.IsProgram) :
    findGlobals parser (.value t) options = Run.fail .invalidInput := by
  have refused : t.isProgram = false := by simpa [← Tree.isProgram_eq_true] using h
  have program : (Source.value t).program parser options = Run.fail .invalidInput := by
    simp [program, tree?, refused]
  rw [findGlobals, program]
  rfl

theorem outcome_findGlobals_of_isProgram {source : Source} (h : source.tree? = some t)
    (program : t.IsProgram) : (findGlobals parser source options).outcome =
      (globalsOf t options.hostEmbedded).outcome := by
  rw [findGlobals_of_tree? h]
  exact outcome_findGlobals_of_program (by
    rw [program_value_of_isProgram program, Run.outcome_pure])

/-- Just what is no program is refused as an input. -/
theorem outcome_findGlobals_value_eq_invalidInput :
    (findGlobals parser (.value t) options).outcome = .error .invalidInput ↔ ¬ t.IsProgram := by
  constructor
  · intro refused program
    rw [outcome_findGlobals_of_isProgram rfl program] at refused
    exact errorsIn_globalsOf t options.hostEmbedded _ refused
  · intro h
    rw [findGlobals_of_not_isProgram h]
    rfl

end Source

/-! ## Parsing -/

section

variable {source : String} {sourceType : SourceType} {given : ParseOptions} {writable : Bool}
  {error : SyntaxError}

theorem outcome_parseText_of_returned
    (valid : SourceType.ofJson? given.sourceType = some sourceType)
    (answer : parser ⟨sourceType, stripHashbang source, given.tolerant⟩ = .returned t writable)
    {errors : List ParseError} (listed : recoveredErrors t given.tolerant = .ok errors) :
    (parseText parser source given).outcome =
      .ok ⟨t, errors, Sha256.ofString source, given.sourceName, writable⟩ := by
  simp only [parseText, valid]
  rw [Run.outcome_bind_of_ok (a := .returned t writable) (by simp [Run.ask, answer])]
  simp only [listed]
  rfl

theorem outcome_parseText_of_raised (given : ParseOptions)
    (valid : SourceType.ofJson? given.sourceType = some sourceType)
    (answer : parser ⟨sourceType, stripHashbang source, given.tolerant⟩ = .raised error) :
    (parseText parser source given).outcome =
      if given.tolerant then
        .ok ⟨.null, [.ofSyntaxError error], Sha256.ofString source, given.sourceName, true⟩
      else .error (.syntaxError error) := by
  simp only [parseText, valid]
  rw [Run.outcome_bind_of_ok (a := .raised error) (by simp [Run.ask, answer])]
  cases given.tolerant <;> rfl

theorem recoveredErrors_strict (t : Tree) : recoveredErrors t false = .ok [] := by
  cases t <;> rfl

theorem Tree.ListsErrors.recoveredErrors (h : t.ListsErrors) (tolerant : Bool) :
    ∃ errors, recoveredErrors t tolerant = .ok errors := by
  cases tolerant with
  | false => exact ⟨[], recoveredErrors_strict t⟩
  | true =>
    obtain ⟨v, given, list⟩ := h
    obtain ⟨vs, items, -⟩ := list.elements
    cases t with
    | obj l fs =>
      obtain rfl := Except.ok.inj given
      exact ⟨vs.map ParseError.ofEntry, by simp [LexicalScope.recoveredErrors, items, Except.map]⟩
    | _ => cases given

theorem outcome_parseProgram {type : Json} {name : String} {result : ParseResult}
    (h : (parseText parser source ⟨type, name, false⟩).outcome = .ok result) :
    (parseProgram parser source type name).outcome = .ok result.ast := by
  rw [parseProgram, Run.outcome_bind_of_ok h]
  rfl

theorem outcome_findGlobals_text_of_error {f : Fault}
    (h : (parseText parser source ⟨options.sourceType, options.sourceName, false⟩).outcome =
      .error f) : (findGlobals parser (.text source) options).outcome = .error f := by
  rw [findGlobals]
  refine Run.outcome_bind_of_error ?_
  rw [Source.program, parseProgram]
  exact Run.outcome_bind_of_error h

/-- A parser's tree is in the result of a parse, whatever else was asked for. -/
theorem exists_parseText_of_returned (given : ParseOptions) (alike : parser.AnswersAlike)
    (valid : SourceType.ofJson? given.sourceType = some sourceType)
    (answer : parser ⟨sourceType, stripHashbang source, false⟩ = .returned t writable)
    (listed : t.ListsErrors) :
    ∃ result, (parseText parser source given).outcome = .ok result ∧ result.ast = t := by
  obtain ⟨errors, listed⟩ := listed.recoveredErrors given.tolerant
  exact ⟨_, outcome_parseText_of_returned valid ((alike _ _ _).trans answer) listed, rfl⟩

theorem outcome_findGlobals_text_of_returned
    (valid : SourceType.ofJson? options.sourceType = some sourceType)
    (answer : parser ⟨sourceType, stripHashbang source, false⟩ = .returned t writable) :
    (findGlobals parser (.text source) options).outcome =
      (globalsOf t options.hostEmbedded).outcome := by
  have parsed : (parseText parser source
      ⟨options.sourceType, options.sourceName, false⟩).outcome = .ok _ :=
    outcome_parseText_of_returned valid answer (recoveredErrors_strict t)
  exact outcome_findGlobals_of_program (outcome_parseProgram parsed)

/-- What is left of a text that was given up holds no program. -/
theorem exists_parseText_of_raised (given : ParseOptions) (alike : parser.AnswersAlike)
    (valid : SourceType.ofJson? given.sourceType = some sourceType) (tolerant : given.tolerant)
    (answer : parser ⟨sourceType, stripHashbang source, false⟩ = .raised error) :
    ∃ result, (parseText parser source given).outcome = .ok result ∧
      (findGlobals parser (.parsed result) options).outcome = .error .invalidInput := by
  have parsed := outcome_parseText_of_raised given valid ((alike _ _ _).trans answer)
  rw [if_pos tolerant] at parsed
  refine ⟨_, parsed, ?_⟩
  rw [Source.findGlobals_of_tree? (t := .null) rfl,
    Source.outcome_findGlobals_value_eq_invalidInput]
  exact fun program => program.ne_atom .null rfl

end

/-- The shape in which a program is given makes no difference, and just what is no program is
refused. -/
theorem findGlobals_shapes (parser : Parser) (options : GlobalsOptions) :
    (∀ t : Tree, (∀ s, t ≠ .str s) →
      (∀ result : ParseResult, result.ast = t →
        findGlobals parser (.parsed result) options = findGlobals parser (.ofTree t) options) ∧
      findGlobals parser (.convertible t) options = findGlobals parser (.ofTree t) options ∧
      ((findGlobals parser (.ofTree t) options).outcome = .error .invalidInput ↔ ¬ t.IsProgram) ∧
      (¬ t.IsProgram → findGlobals parser (.ofTree t) options = Run.fail .invalidInput)) ∧
    ∀ sourceType, SourceType.ofJson? options.sourceType = some sourceType →
      parser.AnswersAlike → ∀ source name,
      (∀ t writable, parser ⟨sourceType, stripHashbang source, false⟩ = .returned t writable →
        t.IsProgram → t.ListsErrors → ∃ program strict tolerant,
        (parseProgram parser source options.sourceType name).outcome = .ok program ∧
        (parseText parser source ⟨options.sourceType, name, false⟩).outcome = .ok strict ∧
        (parseText parser source ⟨options.sourceType, name, true⟩).outcome = .ok tolerant ∧
        ∀ input ∈ [.text source, .ofTree program, .parsed strict, .parsed tolerant],
          (findGlobals parser input options).outcome =
            (findGlobals parser (.ofTree t) options).outcome) ∧
      ∀ error, parser ⟨sourceType, stripHashbang source, false⟩ = .raised error →
        (findGlobals parser (.text source) options).outcome = .error (.syntaxError error) ∧
        ∃ tolerant,
          (parseText parser source ⟨options.sourceType, name, true⟩).outcome = .ok tolerant ∧
          (findGlobals parser (.parsed tolerant) options).outcome = .error .invalidInput := by
  constructor
  · intro t noText
    rw [Source.ofTree_eq_value noText]
    refine ⟨?_, Source.findGlobals_of_tree? rfl, Source.outcome_findGlobals_value_eq_invalidInput,
      Source.findGlobals_of_not_isProgram⟩
    rintro result rfl
    exact Source.findGlobals_of_tree? rfl
  intro sourceType valid alike source name
  constructor
  · intro t writable answer program listed
    obtain ⟨strict, parsedStrict, rfl⟩ := exists_parseText_of_returned
      ⟨options.sourceType, name, false⟩ alike valid answer listed
    obtain ⟨tolerant, parsedTolerant, same⟩ := exists_parseText_of_returned
      ⟨options.sourceType, name, true⟩ alike valid answer listed
    refine ⟨strict.ast, strict, tolerant, outcome_parseProgram parsedStrict, parsedStrict,
      parsedTolerant, ?_⟩
    have text := outcome_findGlobals_text_of_returned valid answer
    have holds (input : Source) (h : input.tree? = some strict.ast) :
        (findGlobals parser input options).outcome =
          (globalsOf strict.ast options.hostEmbedded).outcome :=
      Source.outcome_findGlobals_of_isProgram h program
    simp only [Source.ofTree_of_isProgram program, List.forall_mem_cons, text,
      holds (.value strict.ast) rfl, holds (.parsed strict) rfl,
      holds (.parsed tolerant) (congrArg some same), List.not_mem_nil, false_imp_iff, implies_true,
      and_self]
  · intro error answer
    exact ⟨outcome_findGlobals_text_of_error
        (outcome_parseText_of_raised ⟨_, _, false⟩ valid answer),
      exists_parseText_of_raised ⟨options.sourceType, name, true⟩ alike valid rfl answer⟩

/-- The program `a;`, with an error that a tolerant parse has recovered from. -/
def recoveredProgram : Tree :=
  .obj 0 [("type", .str "Program"),
    ("body", .arr 1 [.obj 2 [("type", .str "ExpressionStatement"),
      ("expression", .identifier 3 "a")]]),
    ("errors", .arr 4 [.obj 5 [("description", .str "Unexpected token")]])]

def oneTextParser : Parser := fun request =>
  if request.source = "//a" then .returned recoveredProgram true
  else .raised ⟨"Unexpected token", .null, .null, none⟩

/-- The text `#!a`, its parses and its tree have one reference in common, while the text `(` is
given up. -/
theorem findGlobals_shapes_hashbang :
    (∀ s, recoveredProgram ≠ .str s) ∧ oneTextParser.AnswersAlike ∧
    oneTextParser ⟨.script, stripHashbang "#!a", false⟩ = .returned recoveredProgram true ∧
    recoveredProgram.IsProgram ∧ recoveredProgram.ListsErrors ∧
    ∃ gs tolerant, gs.map NameGroup.name = [.str "a"] ∧
      (findGlobals oneTextParser (.text "#!a") {}).outcome = .ok gs ∧
      (findGlobals oneTextParser (.convertible recoveredProgram) {}).outcome = .ok gs ∧
      (parseText oneTextParser "#!a" {}).outcome = .ok tolerant ∧
      (findGlobals oneTextParser (.parsed tolerant) {}).outcome = .ok gs ∧
      ∃ error,
        (findGlobals oneTextParser (.text "(") {}).outcome = .error (.syntaxError error) := by
  have noText (s : String) : recoveredProgram ≠ .str s := by simp [recoveredProgram, Tree.str]
  have alike : oneTextParser.AnswersAlike := fun _ _ _ => rfl
  have answer : oneTextParser ⟨.script, stripHashbang "#!a", false⟩ =
      .returned recoveredProgram true := rfl
  have program : recoveredProgram.IsProgram := ⟨_, rfl, rfl⟩
  have listed : recoveredProgram.ListsErrors := ⟨_, rfl, .inr ⟨_, _, rfl, fun _ _ => trivial⟩⟩
  obtain ⟨gs, succeeds, names⟩ : ∃ gs,
      (findGlobals oneTextParser (.value recoveredProgram) {}).outcome = .ok gs ∧
        gs.map NameGroup.name = [.str "a"] := exists_ok_of_map (by decide +kernel)
  obtain ⟨shapes, texts⟩ := findGlobals_shapes oneTextParser {}
  obtain ⟨-, convertible, -⟩ := shapes recoveredProgram noText
  obtain ⟨returned, -⟩ := texts .script rfl alike "#!a" "<input>"
  obtain ⟨-, raised⟩ := texts .script rfl alike "(" "<input>"
  obtain ⟨_, _, tolerant, -, -, parsed, same⟩ := returned _ _ answer program listed
  rw [Source.ofTree_eq_value noText] at convertible same
  refine ⟨noText, alike, answer, program, listed, gs, tolerant, names, ?_, ?_, parsed, ?_, _,
    (raised _ rfl).1⟩
  · rw [same _ List.mem_cons_self, succeeds]
  · rw [convertible, succeeds]
  · rw [same (.parsed tolerant) (by simp), succeeds]

end LexicalScope
