import LexicalScope.Globals

/-! # Stages of an analysis

The globals of a program tree come from four stages: its mode, its scope table, its free references
and their groups. An analysis succeeds exactly if each stage does.
-/

namespace LexicalScope

namespace Run

variable {α β : Type}

theorem outcome_bind_eq_ok {r : Run α} {f : α → Run β} {b : β} :
    (r >>= f).outcome = .ok b ↔ ∃ a, r.outcome = .ok a ∧ (f a).outcome = .ok b := by
  change (Run.bind r f).outcome = .ok b ↔ _
  unfold Run.bind
  cases r.outcome <;> simp

theorem outcome_bind_of_error {r : Run α} {f : α → Run β} {e : Fault} (h : r.outcome = .error e) :
    (r >>= f).outcome = .error e := by
  change (Run.bind r f).outcome = .error e
  rw [Run.bind, h]

theorem outcome_bind_of_ok {r : Run α} {f : α → Run β} {a : α} (h : r.outcome = .ok a) :
    (r >>= f).outcome = (f a).outcome := by
  change (Run.bind r f).outcome = _
  rw [Run.bind, h]

theorem outcome_pure (a : α) : (pure a : Run α).outcome = .ok a := rfl

theorem outcome_note (n : Note) : (note n).outcome = .ok () := rfl

theorem outcome_ofExcept (e : Except Fault α) : (ofExcept e).outcome = e := rfl

theorem outcome_resolve {t : Tree} {hostEmbedded : Bool} {mode : ScopeMode} :
    (resolve t hostEmbedded).outcome = .ok mode ↔ resolveMode t hostEmbedded = .ok mode := by
  simp [resolve, outcome_bind_eq_ok, outcome_ofExcept, outcome_note, outcome_pure]

theorem outcome_bindNew {t : Tree} {mode : ScopeMode} {table : ScopeTable} :
    (bindNew t mode).outcome = .ok table ↔ bindScopes t mode .empty = (table, none) := by
  unfold bindNew
  split
  · next e h => simp [h, fail, outcome_ofExcept]
  · next other h => simp [h, outcome_bind_eq_ok, outcome_note, outcome_pure]

theorem outcome_classify {t : Tree} {table : ScopeTable} {rs : List FreeReference} :
    (classify t table).outcome = .ok rs ↔ freeReferences t table = .ok rs := by
  simp [classify, outcome_bind_eq_ok, outcome_ofExcept, outcome_note, outcome_pure]

end Run

/-- An analysis succeeds with what its four stages give in turn. -/
theorem outcome_globalsOf {t : Tree} {hostEmbedded : Bool} {gs : List FreeVariable} :
    (globalsOf t hostEmbedded).outcome = .ok gs ↔ ∃ mode table rs,
      resolveMode t hostEmbedded = .ok mode ∧ bindScopes t mode .empty = (table, none) ∧
        freeReferences t table = .ok rs ∧ groupReferences rs = .ok gs := by
  simp only [globalsOf, Run.outcome_bind_eq_ok, Run.outcome_resolve, Run.outcome_bindNew,
    Run.outcome_classify, Run.outcome_ofExcept]
  constructor
  · rintro ⟨mode, hm, table, ht, rs, hr, hg⟩
    exact ⟨mode, table, rs, hm, ht, hr, hg⟩
  · rintro ⟨mode, table, rs, hm, ht, hr, hg⟩
    exact ⟨mode, hm, table, ht, rs, hr, hg⟩

theorem Tree.exists_node_of_isProgram {t : Tree} (h : t.isProgram = true) :
    ∃ n, t.node? = some n ∧ n.kind = .program := by
  cases t with
  | obj l fs =>
    have ht : (Node.get ⟨l, fs⟩ "type").isText "Program" = true := h
    refine ⟨⟨l, fs⟩, ?_, ?_⟩
    · simp only [Node.get] at ht
      cases hl : fs.lookup "type" with
      | none => simp [hl, null, isText] at ht
      | some v => simp [node?, hl]
    · rw [Node.kind]
      generalize Node.get ⟨l, fs⟩ "type" = v at ht
      unfold isText at ht
      split at ht
      · obtain rfl := eq_of_beq ht
        rfl
      · cases ht
  | _ => cases h

theorem outcome_findGlobals_value {parser : Parser} {t : Tree} {options : GlobalsOptions}
    {gs : List FreeVariable} :
    (findGlobals parser (.value t) options).outcome = .ok gs ↔
      t.isProgram = true ∧ (globalsOf t options.hostEmbedded).outcome = .ok gs := by
  simp only [findGlobals, Source.program, Source.tree?, Run.outcome_bind_eq_ok, Run.outcome_note,
    Run.outcome_pure]
  by_cases h : t.isProgram = true
  · simp [h, Run.outcome_pure]
  · simp [h, Run.fail, Run.outcome_ofExcept]

theorem outcome_findGlobals_of_fault {parser : Parser} {t : Tree} {options : GlobalsOptions}
    {mode : ScopeMode} {f : Fault} (program : t.isProgram = true)
    (resolved : resolveMode t options.hostEmbedded = .ok mode)
    (failed : (t.entries mode).fault = some f) :
    (findGlobals parser (.value t) options).outcome = .error f := by
  have given : (Source.program parser options (.value t)).outcome = .ok t := by
    simp [Source.program, Source.tree?, program, Run.outcome_pure]
  have bound : (Run.bindNew t mode).outcome = .error f := by
    simp [Run.bindNew, bindScopes, failed, Run.fail, Run.outcome_ofExcept]
  rw [findGlobals, Run.outcome_bind_of_ok given]
  refine Run.outcome_bind_of_error ?_
  rw [globalsOf, Run.outcome_bind_of_ok (Run.outcome_resolve.mpr resolved)]
  exact Run.outcome_bind_of_error bound

end LexicalScope
