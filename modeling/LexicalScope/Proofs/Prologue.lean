import LexicalScope.Proofs.Analysis

/-! # Directive prologues

The statements of a program begin with its directives, and the program is strict if `use strict` is
one of them. The search for it goes on from one statement to the next as long as what it meets under
`directive` is true, and whatever comes after the statement that ends it makes no difference. Of the
texts only the empty one is false: a directive of no characters ends the search, although the
directives go on after it.
-/

namespace LexicalScope

namespace Tree

variable {t : Tree} {text : String}

/-- An expression statement with a text for its directive. -/
def IsDirective (t : Tree) (text : String) : Prop :=
  t.get? "type" = .ok (.str "ExpressionStatement") ∧ t.get? "directive" = .ok (.str text)

/-- An expression statement with anything true for its directive. -/
def ExtendsPrologue (t : Tree) : Prop :=
  t.get? "type" = .ok (.str "ExpressionStatement") ∧
    ∃ d, t.get? "directive" = .ok d ∧ d.truthy = true

theorem truthy_str : (str text).truthy = true ↔ text ≠ "" := by
  simp [str, truthy, Atom.truthy]

theorem IsDirective.extendsPrologue_iff (h : t.IsDirective text) :
    t.ExtendsPrologue ↔ text ≠ "" := by
  obtain ⟨kind, directive⟩ := h
  rw [← truthy_str, ExtendsPrologue, directive]
  constructor
  · rintro ⟨-, d, same, truthy⟩
    obtain rfl := Except.ok.inj same
    exact truthy
  · intro truthy
    exact ⟨kind, _, rfl, truthy⟩

end Tree

/-- One of some statements is the directive `use strict`, and all statements before it are of a
sort. -/
def UsesStrictAfter (sort : Tree → Prop) (statements : List Tree) : Prop :=
  ∃ before s after, statements = before ++ s :: after ∧ (∀ v ∈ before, sort v) ∧
    s.IsDirective "use strict"

namespace UsesStrictAfter

variable {sort sort' : Tree → Prop} {v : Tree} {vs : List Tree}

theorem not_nil : ¬ UsesStrictAfter sort [] := by
  rintro ⟨before, s, after, split, -⟩
  cases before <;> cases split

theorem cons_iff : UsesStrictAfter sort (v :: vs) ↔
    v.IsDirective "use strict" ∨ sort v ∧ UsesStrictAfter sort vs := by
  constructor
  · rintro ⟨before, s, after, split, sorts, use⟩
    cases before with
    | nil =>
      obtain ⟨rfl, rfl⟩ := List.cons.inj split
      exact .inl use
    | cons w before =>
      obtain ⟨rfl, rfl⟩ := List.cons.inj split
      obtain ⟨first, rest⟩ := List.forall_mem_cons.mp sorts
      exact .inr ⟨first, before, s, after, rfl, rest, use⟩
  · rintro (use | ⟨first, before, s, after, rfl, rest, use⟩)
    · exact ⟨[], v, vs, rfl, by simp, use⟩
    · exact ⟨v :: before, s, after, rfl, List.forall_mem_cons.mpr ⟨first, rest⟩, use⟩

theorem mono (h : UsesStrictAfter sort vs) (imp : ∀ v ∈ vs, sort v → sort' v) :
    UsesStrictAfter sort' vs := by
  obtain ⟨before, s, after, rfl, sorts, use⟩ := h
  exact ⟨before, s, after, rfl,
    fun v hv => imp v (List.mem_append_left _ hv) (sorts v hv), use⟩

end UsesStrictAfter

/-! ## The search -/

section

variable {v stop : Tree} {vs ws before after after' : List Tree}

theorem prologueIsStrict_of_use (h : v.IsDirective "use strict") :
    prologueIsStrict (v :: vs) = .ok true := by
  obtain ⟨kind, directive⟩ := h
  rw [prologueIsStrict, kind, directive]
  rfl

theorem prologueIsStrict_of_extends (h : v.ExtendsPrologue) (other : ¬ v.IsDirective "use strict") :
    prologueIsStrict (v :: vs) = prologueIsStrict vs := by
  obtain ⟨kind, d, directive, truthy⟩ := h
  have other : d.isText "use strict" = false := by
    rw [Bool.eq_false_iff, ne_eq, Tree.isText_eq_true]
    rintro rfl
    exact other ⟨kind, directive⟩
  rw [prologueIsStrict, kind, directive]
  simp only [bind, Except.bind, truthy, other]
  rfl

theorem prologueIsStrict_of_stop (h : ¬ stop.ExtendsPrologue) :
    prologueIsStrict (stop :: after) = (stop.get? "type").map fun _ => false := by
  cases kind : stop.get? "type" with
  | error e => simp only [prologueIsStrict, kind, bind, Except.bind, Except.map]
  | ok k =>
    by_cases expression : k.isText "ExpressionStatement" = true
    · -- A tree that has one member looked up is an object, so the other can be looked up too.
      obtain ⟨d, directive⟩ : ∃ d, stop.get? "directive" = .ok d := by
        cases stop with
        | obj l fs => exact ⟨_, rfl⟩
        | _ => cases kind
      have falsy : d.truthy = false := by
        rw [Bool.eq_false_iff]
        intro truthy
        rw [Tree.isText_eq_true.mp expression] at kind
        exact h ⟨kind, d, directive, truthy⟩
      simp only [prologueIsStrict, kind, directive, bind, Except.bind, expression, falsy]
      rfl
    · simp only [prologueIsStrict, kind, bind, Except.bind, Bool.eq_false_iff.mpr expression]
      rfl

theorem prologueIsStrict_cons_congr (h : prologueIsStrict vs = prologueIsStrict ws) :
    prologueIsStrict (v :: vs) = prologueIsStrict (v :: ws) := by
  rw [prologueIsStrict, prologueIsStrict, h]

/-- Nothing after a statement that does not extend the prologue makes a difference. -/
theorem prologueIsStrict_append_cons (h : ¬ stop.ExtendsPrologue) :
    prologueIsStrict (before ++ stop :: after) = prologueIsStrict (before ++ stop :: after') := by
  induction before with
  | nil => exact (prologueIsStrict_of_stop h).trans (prologueIsStrict_of_stop h).symm
  | cons v before ih => exact prologueIsStrict_cons_congr ih

theorem prologueIsStrict_eq_true_iff :
    prologueIsStrict vs = .ok true ↔ UsesStrictAfter Tree.ExtendsPrologue vs := by
  induction vs with
  | nil => simp [prologueIsStrict, UsesStrictAfter.not_nil]
  | cons v vs ih =>
    rw [UsesStrictAfter.cons_iff]
    -- The first statement is what the search is for, or lets it go on, or ends it.
    by_cases use : v.IsDirective "use strict"
    · simp [prologueIsStrict_of_use use, use]
    by_cases goesOn : v.ExtendsPrologue
    · rw [prologueIsStrict_of_extends goesOn use, ih]
      simp [use, goesOn]
    · rw [prologueIsStrict_of_stop goesOn]
      cases v.get? "type" <;> simp [use, goesOn, Except.map]

end

/-- A program is strict just if `use strict` comes after statements that all have something true for
their directives. -/
theorem resolveMode_strict_iff {program : Tree} {l : Label} {statements : List Tree}
    (body : program.get? "body" = .ok (.arr l statements))
    (objects : ∀ v ∈ statements, ∃ n, v.object? = some n) (hostEmbedded : Bool) :
    ∃ mode, resolveMode program hostEmbedded = .ok mode ∧
      (mode.strict = true ↔ UsesStrictAfter Tree.ExtendsPrologue statements) ∧
      ((∀ v ∈ statements, v.ExtendsPrologue → ∃ text, v.IsDirective text) →
        (mode.strict = true ↔
          UsesStrictAfter (fun v => ∃ text, text ≠ "" ∧ v.IsDirective text) statements)) ∧
      ∀ before stop after, statements = before ++ stop :: after → ¬ stop.ExtendsPrologue →
        ∀ (program' : Tree) (l' : Label) (after' : List Tree),
          program'.get? "body" = .ok (.arr l' (before ++ stop :: after')) →
          ∃ mode', resolveMode program' hostEmbedded = .ok mode' ∧ mode'.strict = mode.strict := by
  obtain ⟨strict, prologue⟩ := prologueIsStrict_ok objects
  have exactly : strict = true ↔ UsesStrictAfter Tree.ExtendsPrologue statements := by
    rw [← prologueIsStrict_eq_true_iff, prologue, Except.ok.injEq]
  refine ⟨⟨program.isModule, strict, hostEmbedded⟩, ?_, exactly, ?_, ?_⟩
  · rw [resolveMode_of_body body, prologue]
    rfl
  · intro texts
    rw [exactly]
    constructor
    · intro h
      refine h.mono fun v hv goesOn => ?_
      obtain ⟨text, directive⟩ := texts v hv goesOn
      exact ⟨text, directive.extendsPrologue_iff.mp goesOn, directive⟩
    · intro h
      refine h.mono fun v _ => ?_
      rintro ⟨text, some, directive⟩
      exact directive.extendsPrologue_iff.mpr some
  · rintro before stop after rfl ends program' l' after' body'
    refine ⟨⟨program'.isModule, strict, hostEmbedded⟩, ?_, rfl⟩
    rw [resolveMode_of_body body', prologueIsStrict_append_cons ends, prologue]
    rfl

/-- The statement `'text';` -/
def directiveStatement (l : Label) (text : String) : Tree :=
  .obj l [("type", .str "ExpressionStatement"), ("expression", .obj (l + 1)
    [("type", .str "Literal"), ("value", .str text)]), ("directive", .str text)]

def emptyStatement (l : Label) : Tree := .obj l [("type", .str "EmptyStatement")]

def scriptOf (statements : List Tree) : Tree :=
  .obj 0 [("type", .str "Program"), ("body", .arr 1 statements)]

theorem isDirective_directiveStatement (l : Label) (text : String) :
    (directiveStatement l text).IsDirective text := ⟨rfl, rfl⟩

theorem not_extendsPrologue_emptyStatement (l : Label) : ¬ (emptyStatement l).ExtendsPrologue := by
  rintro ⟨-, d, directive, truthy⟩
  obtain rfl := Except.ok.inj directive
  cases truthy

/-- The statements `'a'; 'use strict'; ;` -/
def secondDirective : List Tree :=
  [directiveStatement 2 "a", directiveStatement 4 "use strict", emptyStatement 6]

/-- The program `'a'; 'use strict'; ;` is strict, and it is with `'';` after these statements. -/
theorem resolveMode_strict_iff_second :
    (scriptOf secondDirective).get? "body" = .ok (.arr 1 secondDirective) ∧
    (∀ v ∈ secondDirective, ∃ n, v.object? = some n) ∧
    (∀ v ∈ secondDirective, v.ExtendsPrologue → ∃ text, v.IsDirective text) ∧
    ¬ (emptyStatement 6).ExtendsPrologue ∧
    ∃ mode, resolveMode (scriptOf secondDirective) false = .ok mode ∧ mode.strict = true ∧
      ∃ mode', resolveMode (scriptOf (secondDirective ++ [directiveStatement 7 ""])) false =
        .ok mode' ∧ mode'.strict = true := by
  have objects : ∀ v ∈ secondDirective, ∃ n, v.object? = some n := by
    simp [secondDirective, directiveStatement, emptyStatement, Tree.object?]
  have ends : ¬ (emptyStatement 6).ExtendsPrologue := not_extendsPrologue_emptyStatement 6
  have texts : ∀ v ∈ secondDirective, v.ExtendsPrologue → ∃ text, v.IsDirective text :=
    List.forall_mem_cons.mpr ⟨fun _ => ⟨"a", isDirective_directiveStatement 2 "a"⟩,
      List.forall_mem_cons.mpr ⟨fun _ => ⟨"use strict", isDirective_directiveStatement 4 _⟩,
        List.forall_mem_singleton.mpr fun h => absurd h ends⟩⟩
  obtain ⟨mode, resolved, -, directives, rest⟩ :=
    resolveMode_strict_iff (rfl : (scriptOf secondDirective).get? "body" = _) objects false
  have strict : mode.strict = true := (directives texts).mpr
    ⟨[directiveStatement 2 "a"], directiveStatement 4 "use strict", [emptyStatement 6], rfl,
      List.forall_mem_singleton.mpr ⟨"a", by decide, isDirective_directiveStatement 2 "a"⟩,
      isDirective_directiveStatement 4 "use strict"⟩
  obtain ⟨mode', resolved', same⟩ := rest
    [directiveStatement 2 "a", directiveStatement 4 "use strict"] (emptyStatement 6) [] rfl ends
    (scriptOf (secondDirective ++ [directiveStatement 7 ""])) 1 [directiveStatement 7 ""] rfl
  exact ⟨rfl, objects, texts, ends, mode, resolved, strict, mode', resolved', same.trans strict⟩

/-- The program `''; 'use strict';` begins with these directives and is not strict. -/
theorem not_resolveMode_strict_emptyDirective :
    ¬ ∀ (program : Tree) (l : Label) (statements : List Tree) (hostEmbedded : Bool),
      program.get? "body" = .ok (.arr l statements) →
      (∀ v ∈ statements, ∃ n, v.object? = some n) →
      ∃ mode, resolveMode program hostEmbedded = .ok mode ∧
        (mode.strict = true ↔
          UsesStrictAfter (fun v => ∃ text, v.IsDirective text) statements) := by
  intro strict
  obtain ⟨mode, resolved, detects⟩ := strict
    (scriptOf [directiveStatement 2 "", directiveStatement 4 "use strict"]) 1 _ false rfl
    (by simp [directiveStatement, Tree.object?])
  obtain rfl : ⟨false, false, false⟩ = mode := Except.ok.inj resolved
  exact Bool.false_ne_true (detects.mpr ⟨[directiveStatement 2 ""],
    directiveStatement 4 "use strict", [], rfl,
    List.forall_mem_singleton.mpr ⟨"", isDirective_directiveStatement 2 ""⟩,
    isDirective_directiveStatement 4 "use strict"⟩)

end LexicalScope
