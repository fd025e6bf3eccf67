import LexicalScope.Proofs.Analysis
import LexicalScope.Proofs.Metadata.Binding

/-! # What an analysis reads

An analysis finds in a tree what it finds in its core: the same mode, the same scopes with the same
names, and the references of which those of the core are the cores. So metadata, and names that
refer to nothing, have no influence on what is found, however they are changed.
-/

namespace LexicalScope

theorem prologueIsStrict_core (vs : List Tree) :
    prologueIsStrict (vs.map Tree.core) = prologueIsStrict vs := by
  induction vs with
  | nil => rfl
  | cons v vs ih =>
    rw [List.map_cons, prologueIsStrict, prologueIsStrict, Tree.get?_core _ (by decide),
      Tree.get?_core _ (by decide), ih]
    cases v.get? "type" with
    | error e => rfl
    | ok kind =>
      simp only [Except.map, bind, Except.bind, Tree.isText_core]
      split
      · rfl
      · cases v.get? "directive" with
        | error e => rfl
        | ok directive => simp only [Tree.truthy_core, Tree.isText_core]

theorem resolveMode_core (t : Tree) (hostEmbedded : Bool) :
    resolveMode t.core hostEmbedded = resolveMode t hostEmbedded := by
  rw [resolveMode, resolveMode, Tree.get?_core _ (by decide), Tree.get?_core _ (by decide)]
  cases t.get? "sourceType" with
  | error e => rfl
  | ok sourceType =>
    cases t.get? "body" with
    | error e => rfl
    | ok body =>
      simp only [Except.map, bind, Except.bind, Tree.elements_core, Tree.isText_core]
      cases body.elements with
      | error e => rfl
      | ok vs => simp only [prologueIsStrict_core]

theorem Tree.isProgram_core (t : Tree) : t.core.isProgram = t.isProgram := by
  rw [isProgram, isProgram, object?_core, Option.any_map]
  congr 1
  funext n
  rw [n.get_core (by decide), isText_core]

/-- Binding a core leaves the same scopes, and it breaks off where binding the tree does. -/
theorem bindScopes_core (t : Tree) (mode : ScopeMode) (table : ScopeTable) :
    (bindScopes t.core mode table).1 = (bindScopes t mode table).1 ∧
      ((bindScopes t.core mode table).2 = none ↔ (bindScopes t mode table).2 = none) := by
  obtain ⟨items, ends⟩ := t.entries_core mode
  exact ⟨by simp only [bindScopes, items], ends⟩

def FreeReference.core (r : FreeReference) : FreeReference :=
  ⟨r.name.core, r.node.core, r.chain.map Tree.core⟩

theorem FreeReference.place_eq_of_core {r r' : FreeReference} (h : r'.core = r.core)
    (atom : ∃ x, r.name = .atom x) : r'.place = r.place := by
  obtain ⟨x, name⟩ := atom
  obtain ⟨names, nodes, chains⟩ := FreeReference.mk.inj h
  have name' : r'.name = .atom x := by
    rwa [name, Tree.core_atom, Tree.core_eq_atom_iff] at names
  have labels := congrArg (List.map Tree.label?) chains
  simp only [List.map_map, Function.comp_def, Tree.label?_core] at labels
  rw [place, place, name, name', labels, ← Tree.label?_core r'.node, nodes, Tree.label?_core]

theorem FreeReference.places_eq_of_cores {rs rs' : List FreeReference}
    (h : rs'.map core = rs.map core) (atoms : ∀ r ∈ rs, ∃ x, r.name = .atom x) :
    rs'.map place = rs.map place := by
  induction rs generalizing rs' with
  | nil => simp_all
  | cons r rs ih =>
    obtain ⟨r', tail, rfl, head, rest⟩ := List.map_eq_cons_iff.mp h
    obtain ⟨atom, atoms⟩ := List.forall_mem_cons.mp atoms
    rw [List.map_cons, List.map_cons, place_eq_of_core head atom, ih rest atoms]

theorem ScopeTable.captures_core (table : ScopeTable) (ns : List Node) (v : Tree) :
    table.captures (ns.map Node.core) v.core = table.captures ns v := by
  have scopes : (ns.map Node.core).any (fun n => (table.get? n.label).isSome) =
      ns.any fun n => (table.get? n.label).isSome := by
    rw [List.any_map]
    rfl
  cases v with
  | atom a =>
    rw [Tree.core_atom]
    exact captures_alike (Node.forall₂_alike_core ns) fun n _ => rfl
  | _ => simp only [Tree.core, captures, scopes]

namespace Event

variable (e : Event) (table : ScopeTable)

theorem chain_core : e.core.chain = e.chain.map Node.core := by
  rw [chain, chain, List.map_reverse, List.map_cons]
  rfl

theorem occurrence_core (name : Tree) :
    e.core.occurrence name.core = (e.occurrence name).core := by
  have node : e.core.node.tree = e.node.tree.core := e.node.tree_core
  simp only [occurrence, FreeReference.core, chain_core, node, List.map_map, Function.comp_def,
    Node.tree_core]

theorem freeIdentifier_core : e.core.freeIdentifier table =
    (e.freeIdentifier table).map FreeReference.core := by
  have node : e.core.node.tree = e.node.tree.core := e.node.tree_core
  rw [freeIdentifier, freeIdentifier, node, Tree.field_core _ (by decide), chain_core]
  cases e.node.tree.field "name" with
  | error fault => rfl
  | ok v =>
    simp only [Except.map, bind, Except.bind, ScopeTable.captures_core, occurrence_core]
    cases table.captures e.chain v with
    | error fault => rfl
    | ok bound => cases bound <;> rfl

theorem freeThis_core : e.core.freeThis = e.freeThis.map FreeReference.core := by
  have this := e.occurrence_core (.str "this")
  rw [Tree.core_str] at this
  rw [freeThis, freeThis, chain_core, bindsThis_alike (Node.forall₂_alike_core _), this]
  cases bindsThis e.chain with
  | error fault => rfl
  | ok bound => cases bound <;> rfl

theorem free_core : e.core.free table = (e.free table).map FreeReference.core := by
  have kind : e.core.kind = e.kind := rfl
  have outer : e.core.outer = e.outer.map Node.core := rfl
  unfold free
  rw [kind, outer, insideDeclarator_alike (Node.forall₂_alike_core _)]
  split
  · exact e.freeIdentifier_core table
  · cases insideDeclarator e.outer with
    | error fault => rfl
    | ok inside =>
      cases inside with
      | true => rfl
      | false => exact e.freeIdentifier_core table
  · exact e.freeThis_core
  · rfl

end Event

/-- The free references of a core are the cores of the free references of the tree. -/
theorem freeReferences_core (t : Tree) (table : ScopeTable) :
    freeReferences t.core table = (freeReferences t table).map (List.map FreeReference.core) := by
  have free : t.core.events.flatMap (Event.free table) =
      (t.events.flatMap (Event.free table)).map FreeReference.core := by
    rw [t.events_core, Yield.flatMap_map, Yield.map_flatMap]
    exact Yield.flatMap_congr fun e _ => e.free_core table
  rw [freeReferences, freeReferences, free]
  obtain ⟨items, _ | f⟩ := t.events.flatMap (Event.free table) <;> rfl

theorem Analysis.exists_of_core {t t' : Tree} {hostEmbedded : Bool} (a : Analysis t hostEmbedded)
    (same : t'.core = t.core) : ∃ a' : Analysis t' hostEmbedded, a'.mode = a.mode ∧
      a'.table = a.table ∧ a'.free.map FreeReference.core = a.free.map FreeReference.core := by
  have resolved : resolveMode t' hostEmbedded = .ok a.mode := by
    rw [← resolveMode_core t', same, resolveMode_core, a.resolved]
  have bound : bindScopes t' a.mode .empty = (a.table, none) := by
    -- binding a core need not break off with the same fault, so only its end is compared
    have scopes := bindScopes_core t a.mode .empty
    have scopes' := bindScopes_core t' a.mode .empty
    rw [a.bound] at scopes
    rw [same] at scopes'
    exact Prod.ext (scopes'.1.symm.trans scopes.1) (scopes'.2.mp (scopes.2.mpr rfl))
  have classified := freeReferences_core t' a.table
  rw [same, freeReferences_core, a.classified] at classified
  cases free : freeReferences t' a.table with
  | error e => simp [free, Except.map] at classified
  | ok rs =>
    rw [free] at classified
    exact ⟨⟨a.mode, a.table, rs, resolved, bound, free⟩, rfl, rfl, (Except.ok.inj classified).symm⟩

/-- Metadata, and names that refer to nothing, have no influence on scopes and references. -/
theorem findGlobals_core (parser : Parser) (options : GlobalsOptions) {t t' : Tree}
    {gs : List FreeVariable} (same : t'.core = t.core)
    (succeeds : (findGlobals parser (.value t) options).outcome = .ok gs) :
    ∃ gs', (findGlobals parser (.value t') options).outcome = .ok gs' ∧
      FreeVariable.places gs' = FreeVariable.places gs ∧
      ∃ (a : Analysis t options.hostEmbedded) (a' : Analysis t' options.hostEmbedded),
        groupReferences a.free = .ok gs ∧ groupReferences a'.free = .ok gs' ∧
        a'.mode = a.mode ∧ a'.table = a.table ∧
        a'.free.map FreeReference.place = a.free.map FreeReference.place ∧
        a'.free.map FreeReference.core = a.free.map FreeReference.core := by
  obtain ⟨program, a, group⟩ := Analysis.outcome_findGlobals.mp succeeds
  obtain ⟨a', mode, table, cores⟩ := a.exists_of_core same
  have program' : t'.isProgram = true := by
    rw [← Tree.isProgram_core, same, Tree.isProgram_core, program]
  have places : a'.free.map FreeReference.place = a.free.map FreeReference.place :=
    FreeReference.places_eq_of_cores cores (exists_atom_of_groupReferences group)
  obtain ⟨gs', group', grouped⟩ := groupReferences_of_places places group
  exact ⟨gs', Analysis.outcome_findGlobals.mpr ⟨program', a', group'⟩, grouped, a, a', group,
    group', mode, table, places, cores⟩

/-- The expression `o.p` with something in the place of `p`, and an annotation. -/
def memberOf (property annotation : Tree) : Node :=
  ⟨5, [("type", .str "MemberExpression"), ("object", .identifier 6 "o"), ("property", property),
    ("computed", .atom (.bool false)), ("loc", annotation)]⟩

/-- The program `var d; l: o.p;` with something in the place of `l` and `p`, and an annotation. -/
def labeledProgram (name property annotation : Tree) : Node :=
  ⟨0, [("type", .str "Program"), ("body", .arr 1 [
    .obj 10 [("type", .str "VariableDeclaration"), ("kind", .str "var"), ("declarations",
      .arr 11 [.obj 12 [("type", .str "VariableDeclarator"), ("id", .identifier 13 "d")]])],
    .obj 2 [("type", .str "LabeledStatement"), ("label", name), ("body",
      .obj 4 [("type", .str "ExpressionStatement"),
        ("expression", (memberOf property annotation).tree)])]])]⟩

theorem findGlobals_core_member :
    let program := labeledProgram (.identifier 3 "l") (.identifier 7 "p") .null
    let changed :=
      labeledProgram .null (memberOf (.identifier 8 "q") .null).tree (.identifier 9 "r")
    ∃ gs gs', changed.tree.core = program.tree.core ∧
      (findGlobals (fun _ => .returned .null false) (.value program.tree) {}).outcome = .ok gs ∧
      gs.map NameGroup.name = [.str "o"] ∧
      (findGlobals (fun _ => .returned .null false) (.value changed.tree) {}).outcome = .ok gs' ∧
      FreeVariable.places gs' = FreeVariable.places gs ∧
      ∃ (a : Analysis program.tree false) (a' : Analysis changed.tree false),
        groupReferences a.free = .ok gs ∧ groupReferences a'.free = .ok gs' ∧
        a'.mode = a.mode ∧ a'.table = a.table ∧ a.table.scopes = [⟨0, [.str "d"]⟩] ∧
        a'.free.map FreeReference.place = a.free.map FreeReference.place ∧
        a'.free.map FreeReference.core = a.free.map FreeReference.core := by
  intro program changed
  have same : changed.tree.core = program.tree.core := by rfl
  obtain ⟨gs, succeeds, names⟩ : ∃ gs, (findGlobals (fun _ => .returned .null false)
      (.value program.tree) {}).outcome = .ok gs ∧ gs.map NameGroup.name = [.str "o"] :=
    exists_ok_of_map (by decide +kernel)
  obtain ⟨gs', succeeds', places, a, a', group, group', mode, table, occurrences⟩ :=
    findGlobals_core _ _ same succeeds
  have resolved : a.mode = ⟨false, false, false⟩ := Except.ok.inj (a.resolved.symm.trans rfl)
  have bound := congrArg (·.1.scopes) a.bound
  rw [resolved] at bound
  have scopes : a.table.scopes = [⟨0, [.str "d"]⟩] := bound.symm.trans (by decide +kernel)
  exact ⟨gs, gs', same, succeeds, names, succeeds', places, a, a', group, group', mode, table,
    scopes, occurrences⟩

end LexicalScope
