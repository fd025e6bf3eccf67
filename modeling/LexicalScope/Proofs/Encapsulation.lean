import LexicalScope.Proofs.Analysis
import LexicalScope.Proofs.Matching.Opened

/-! # Functions encapsulate their declarations

A program is compared with one that differs in the parameters and the body of one function only.
What is declared inside the function attaches to the function or inside it, so all other scopes are
the same, and so are the free references outside of the function. A reference in the function's own
name is looked up at the function too, and what that declares may differ.
-/

namespace LexicalScope

/-- Two trees are the same but for the parameters and the body of a function. -/
def Tree.AgreesOutside (function : Label) (t t' : Tree) : Prop := t.Matches true (· = function) t'

namespace FreeReference

def goesThrough (function : Label) (test : Node → Bool) (r : FreeReference) : Bool :=
  r.chain.any fun u => u.object?.any fun n => n.label == function && test n

def liesIn (function : Label) (r : FreeReference) : Bool :=
  r.goesThrough function fun n => n.innerLabels.any (r.node.label? == some ·)

/-- Whether a reference has a name that the function declares in one of some tables. -/
def isOwn (function : Label) (tables : List ScopeTable) (r : FreeReference) : Bool :=
  !r.isThis && r.goesThrough function fun n => tables.any (·.declaresName n r.name)

/-- Whether a reference lies outside of a function and has none of the function's own names. -/
def standsOutside (function : Label) (tables : List ScopeTable) (r : FreeReference) : Bool :=
  !r.liesIn function && !r.isOwn function tables

end FreeReference

namespace Event

variable {t t' : Tree} {function : Label} {tables : List ScopeTable} {e e' : Event}

theorem goesThrough_reference {test : Node → Bool} :
    e.reference.goesThrough function test = true ↔
      ∃ n ∈ e.path, n.label = function ∧ test n = true := by
  simp [FreeReference.goesThrough, reference, occurrence, chain_eq, Node.tree, Tree.object?]

theorem liesIn_reference : e.reference.liesIn function = true ↔ e.LiesIn function := by
  rw [FreeReference.liesIn, goesThrough_reference]
  simp [LiesIn, reference, occurrence, Node.tree, Tree.label?]

theorem isOwn_reference (he : e ∈ t.events.items) :
    e.reference.isOwn function tables = true ↔ e.kind ≠ .thisExpression ∧
      (∃ n ∈ e.path, n.label = function) ∧
      ∃ x, e.node.get "name" = .atom x ∧ ∃ T ∈ tables, T.declares function x = true := by
  rw [FreeReference.isOwn, Bool.and_eq_true, goesThrough_reference,
    isThis_reference (s := ⟨t, false⟩) he]
  simp only [Bool.not_eq_true', decide_eq_false_iff_not]
  refine and_congr_right fun hk => ?_
  rw [reference, if_neg hk, occurrence]
  constructor
  · rintro ⟨n, hn, rfl, hd⟩
    obtain ⟨T, hT, hd⟩ := List.any_eq_true.mp hd
    cases hv : e.node.get "name" with
    | atom x => exact ⟨⟨n, hn, rfl⟩, x, rfl, T, hT, by rwa [hv] at hd⟩
    | _ => simp [hv, ScopeTable.declaresName] at hd
  · rintro ⟨⟨n, hn, rfl⟩, x, hv, T, hT, hd⟩
    exact ⟨n, hn, rfl, List.any_eq_true.mpr ⟨T, hT, by rwa [hv]⟩⟩

theorem Alike.isOwn_eq (h : e.Alike e') (he : e ∈ t.events.items) (he' : e' ∈ t'.events.items) :
    e'.reference.isOwn function tables = e.reference.isOwn function tables := by
  rw [Bool.eq_iff_iff, isOwn_reference he, isOwn_reference he', h.kind,
    exists_label_alike (P := (· = function)) h.path]
  simp only [h.get_name_iff]

theorem Binds.owner_of_anyFunction {mode : ScopeMode} {owner : Label} {x : Atom}
    (h : e.Binds mode owner x) (hk : e.kind = .anyFunction) : owner = e.node.label := by
  cases h with
  | parameter _ self => exact self.symm
  | functionSelf _ self => exact self.symm
  | imported kind => simp [hk] at kind
  | _ => simp_all

end Event

/-- Two trees that agree outside of a function at its places in them, with no import inside. -/
structure Tree.Opened (t t' : Tree) (function function' : Node) (around around' : List Node) :
    Prop where
  agrees : t.AgreesOutside function.label t'
  left : t.FunctionAt function around
  right : t'.FunctionAt function' around'
  label : function'.label = function.label
  imports : ∀ e ∈ t.events.items, e.LiesIn function.label → e.kind.isImportSpecifier = false
  imports' : ∀ e ∈ t'.events.items, e.LiesIn function.label → e.kind.isImportSpecifier = false
  aligned : Aligned (Event.Twins function.label) (Event.Inside function.label)
    (Event.Inside function.label) t.events.items t'.events.items

namespace Tree.Opened

variable {t t' : Tree} {function function' : Node} {around around' : List Node} {e e' : Event}
  {hostEmbedded : Bool}

theorem symm (o : t.Opened t' function function' around around') :
    t'.Opened t function' function around' around where
  agrees := by
    rw [o.label]
    exact Tree.Matches.symm o.agrees
  left := o.right
  right := o.left
  label := o.label.symm
  imports := o.label ▸ o.imports'
  imports' := o.label ▸ o.imports
  aligned := by
    rw [o.label]
    exact o.aligned.symm fun _ _ h => h.symm

/-- A report is inside the function, or there is a matching one on the other tree. -/
theorem inside_or_twin (o : t.Opened t' function function' around around')
    (he : e ∈ t.events.items) :
    e.Inside function.label ∨ ∃ e' ∈ t'.events.items, e.Twins function.label e' :=
  o.aligned.mem_left he

theorem inside_of_liesIn (o : t.Opened t' function function' around around')
    (he : e ∈ t.events.items) (h : e.LiesIn function.label) : e.Inside function.label := by
  rcases o.inside_or_twin he with hi | ⟨e', -, twins⟩
  · exact hi
  · exact absurd h (o.left.not_liesIn he twins.past)

theorem hoistsToProgram_eq (o : t.Opened t' function function' around around')
    (a : Analysis t hostEmbedded) (a' : Analysis t' hostEmbedded) :
    a'.mode.hoistsToProgram = a.mode.hoistsToProgram := by
  rw [hoistsToProgram_of_resolveMode a.resolved, hoistsToProgram_of_resolveMode a'.resolved,
    Tree.Matches.isModule_eq o.agrees]

theorem binds_of_binds (o : t.Opened t' function function' around around')
    (a : Analysis t hostEmbedded) (a' : Analysis t' hostEmbedded) {owner : Label} {x : Atom}
    (hf : owner ≠ function.label) (hi : owner ∉ function.innerLabels) (he : e ∈ t.events.items)
    (hb : e.Binds a.mode owner x) : ∃ e' ∈ t'.events.items, e'.Binds a'.mode owner x := by
  rcases o.inside_or_twin he with inside | ⟨e', he', twins⟩
  · rcases inside.owner_mem (o.imports e he inside.liesIn) hb with ho | ⟨n, hn, hl, ho⟩
    · exact absurd ho hf
    · obtain rfl := o.left.eq_of_mem_path he hn hl
      exact absurd ho hi
  · -- only the function itself makes entries from parameters that the other tree may not have
    have closed (hk : e.kind = .anyFunction) : e.node.label ≠ function.label := by
      intro hl
      exact hf ((hb.owner_of_anyFunction hk).trans hl)
    have own := (Yield.fault_flatMap.mp a.fault_entries).2 e he
    have own' := (Yield.fault_flatMap.mp a'.fault_entries).2 e' he'
    have entries := (twins.matching.arranges_entries a.mode closed own).2
    obtain ⟨entry, hm, rfl⟩ := entries.exists_right ((Event.mem_entries own).mpr hb)
    rw [← Event.entries_congr (o.hoistsToProgram_eq a a')] at hm
    exact ⟨e', he', (Event.mem_entries own').mp hm⟩

theorem declares_eq (o : t.Opened t' function function' around around')
    (a : Analysis t hostEmbedded) (a' : Analysis t' hostEmbedded) {owner : Label} {x : Atom}
    (hf : owner ≠ function.label) (hi : owner ∉ function.innerLabels)
    (hi' : owner ∉ function'.innerLabels) :
    a'.table.declares owner x = a.table.declares owner x := by
  rw [Bool.eq_iff_iff, ScopeTable.declares_iff_binds a.bound,
    ScopeTable.declares_iff_binds a'.bound]
  constructor
  · rintro ⟨y, hk, e', he', hb⟩
    exact ⟨y, hk, o.symm.binds_of_binds a' a (o.label ▸ hf) hi' he' hb⟩
  · rintro ⟨y, hk, e, he, hb⟩
    exact ⟨y, hk, o.binds_of_binds a a' hf hi he hb⟩

/-- Reports that stand for one another are free together, the function's own names apart. -/
theorem isFree_iff (o : t.Opened t' function function' around around')
    (a : Analysis t hostEmbedded) (a' : Analysis t' hostEmbedded) (he : e ∈ t.events.items)
    (he' : e' ∈ t'.events.items) (twins : e.Twins function.label e')
    (own : ¬ e.reference.isOwn function.label [a.table, a'.table] = true) :
    e'.IsFree a'.table ↔ e.IsFree a.table := by
  have alike := twins.matching.alike
  by_cases hk : e.kind = .thisExpression
  · rw [Event.isFree_iff, Event.isFree_iff, alike.open_iff, alike.kind]
    simp only [hk, true_or, and_true]
  · rw [Event.isOwn_reference he] at own
    refine alike.isFree_iff fun n hn x hx => ?_
    -- on the chain only the function may declare other names, and it declares this one in neither
    by_cases hl : n.label = function.label
    · have undeclared (T : ScopeTable) (hT : T ∈ [a.table, a'.table]) :
          T.declares function.label x = false := by
        rw [← Bool.not_eq_true]
        exact fun hd => own ⟨hk, ⟨n, hn, hl⟩, x, hx, T, hT, hd⟩
      rw [hl, undeclared a.table (by simp), undeclared a'.table (by simp)]
    · obtain ⟨n', hn', hnn⟩ := exists_right_of_forall₂ alike.path hn
      have outside' : n'.label ∉ function'.innerLabels :=
        o.right.not_mem_innerLabels he' (o.label ▸ twins.past') hn'
      exact o.declares_eq a a' hl (o.left.not_mem_innerLabels he twins.past hn)
        (hnn.label ▸ outside')

theorem liesIn_reference_eq_false (o : t.Opened t' function function' around around')
    (he : e ∈ t.events.items) (past : e.Past function.label) :
    e.reference.liesIn function.label = false := by
  rw [← Bool.not_eq_true, Event.liesIn_reference]
  exact o.left.not_liesIn he past

theorem standsOutside_eq (o : t.Opened t' function function' around around')
    {tables : List ScopeTable} (he : e ∈ t.events.items) (he' : e' ∈ t'.events.items)
    (twins : e.Twins function.label e') :
    e'.reference.standsOutside function.label tables =
      e.reference.standsOutside function.label tables := by
  have past' := o.symm.liesIn_reference_eq_false he' (o.label ▸ twins.past')
  rw [o.label] at past'
  rw [FreeReference.standsOutside, FreeReference.standsOutside, past',
    o.liesIn_reference_eq_false he twins.past,
    twins.matching.alike.isOwn_eq he he']

theorem free_eq (o : t.Opened t' function function' around around')
    (a : Analysis t hostEmbedded) (a' : Analysis t' hostEmbedded)
    (atoms : ∀ r ∈ a.free, ∃ x, r.name = .atom x) :
    (a'.free.filter (·.standsOutside function.label [a.table, a'.table])).map FreeReference.place =
      (a.free.filter (·.standsOutside function.label [a.table, a'.table])).map
        FreeReference.place := by
  classical
  have drop {e : Event} (h : e.Inside function.label) :
      e.reference.standsOutside function.label [a.table, a'.table] = false := by
    rw [FreeReference.standsOutside, Event.liesIn_reference.mpr h.liesIn]
    rfl
  rw [eq_of_freeReferences a.classified, eq_of_freeReferences a'.classified,
    List.filter_map, List.filter_map, List.filter_filter, List.filter_filter, List.map_map,
    List.map_map]
  refine o.aligned.map_filter (fun e _ h => ?left) (fun e _ h => ?right) ?both
  case left => simp [drop h]
  case right => simp [drop h]
  case both =>
    intro e he e' he' twins
    have outside : e'.reference.standsOutside function.label [a.table, a'.table] =
        e.reference.standsOutside function.label [a.table, a'.table] :=
      o.standsOutside_eq he he' twins
    simp only [Function.comp_apply, outside, Bool.and_eq_true, decide_eq_true_eq]
    cases hs : e.reference.standsOutside function.label [a.table, a'.table] with
    | false => simp
    | true =>
      rw [FreeReference.standsOutside, Bool.and_eq_true, Bool.not_eq_true', Bool.not_eq_true'] at hs
      have free := o.isFree_iff a a' he he' twins (Bool.not_eq_true _ ▸ hs.2)
      refine ⟨by rw [decide_eq_decide.mpr free], fun hf => ?_⟩
      refine twins.matching.alike.place_reference fun hk => ?_
      obtain ⟨x, hx⟩ := atoms _ (a.mem_free.mpr ⟨e, he, hf.2, rfl⟩)
      exact ⟨x, by rwa [Event.reference, if_neg hk] at hx⟩

end Tree.Opened

theorem Tree.AgreesOutside.exists_opened {t t' : Tree} {function : Node} {around : List Node}
    (h : t.AgreesOutside function.label t') (at_ : t.FunctionAt function around)
    (nodup' : t'.labels.Nodup) (ends' : t'.events.fault = none)
    (imports : ∀ e ∈ t.events.items ++ t'.events.items, e.LiesIn function.label →
      e.kind.isImportSpecifier = false) :
    ∃ function' around', t.Opened t' function function' around around' := by
  obtain ⟨imports, imports'⟩ := List.forall_mem_append.mp imports
  have functions : ∀ e ∈ (walk [] ⟨t, false⟩).items, e.node.label = function.label →
      e.node.kind.isFunction = true := by
    intro e he hl
    rw [(at_.unique (Visits.of_mem_walk he) hl).1]
    exact at_.isFunction
  have past (t : Tree) : GoesPast function.label [] ⟨t, false⟩ :=
    fun _ _ => List.isChain_singleton _
  have slot : Slot.Matches true (· = function.label) ⟨t, false⟩ ⟨t', false⟩ := ⟨h, rfl⟩
  have aligned := aligned_walk functions slot .nil at_.ends ends' (past t) (past t')
  have own : ⟨.anyFunction, function, around⟩ ∈ t.events.items :=
    at_.visits.mem_walk at_.ends fun _ => Node.anyFunction_mem_reports at_.isFunction
  rcases aligned.mem_left own with inside | ⟨e', he', twins⟩
  · obtain ⟨n, hn, hl, hi⟩ := inside.liesIn
    obtain rfl := at_.eq_of_mem_path own hn hl
    exact absurd hi (Node.not_mem_innerLabels at_.nodup_function)
  · have node := twins.matching.node
    have there : t'.FunctionAt e'.node e'.outer :=
      ⟨ends', Visits.of_mem_walk he', node.kind ▸ at_.isFunction, nodup'⟩
    exact ⟨e'.node, e'.outer, h, at_, there, node.label, imports, imports', aligned⟩

/-- A label that is not a function's own and, in a tree, not inside the function. -/
def Tree.Beyond (t : Tree) (function owner : Label) : Prop :=
  owner ≠ function ∧ ∀ e ∈ t.events.items, e.node.label = function → owner ∉ e.node.innerLabels

/-- What is free outside of a function and declared beyond it does not depend on its parameters and
body, its own names apart. -/
theorem findGlobals_encapsulates (parser : Parser) (options : GlobalsOptions) {t t' : Tree}
    {gs gs' : List FreeVariable} (nodup : t.labels.Nodup) (nodup' : t'.labels.Nodup)
    {function : Node} {around : List Node} (visits : Visits [] ⟨t, false⟩ function around)
    (isFunction : function.kind.isFunction = true) (agrees : t.AgreesOutside function.label t')
    (imports : ∀ e ∈ t.events.items ++ t'.events.items, e.LiesIn function.label →
      e.kind.isImportSpecifier = false)
    (succeeds : (findGlobals parser (.value t) options).outcome = .ok gs)
    (succeeds' : (findGlobals parser (.value t') options).outcome = .ok gs') :
    (∃ (a : Analysis t options.hostEmbedded) (a' : Analysis t' options.hostEmbedded),
      groupReferences a.free = .ok gs ∧ groupReferences a'.free = .ok gs' ∧
      (a'.free.filter (·.standsOutside function.label [a.table, a'.table])).map
          FreeReference.place =
        (a.free.filter (·.standsOutside function.label [a.table, a'.table])).map
          FreeReference.place ∧
      ∀ owner x, t.Beyond function.label owner → t'.Beyond function.label owner →
        a'.table.declares owner x = a.table.declares owner x) ∧
    ∀ e ∈ t.events.items ++ t'.events.items, e.LiesIn function.label → ∀ mode owner x,
      e.Binds mode owner x →
        owner = function.label ∨
          ∃ n ∈ e.path, n.label = function.label ∧ owner ∈ n.innerLabels := by
  obtain ⟨-, a, group⟩ := Analysis.outcome_findGlobals.mp succeeds
  obtain ⟨-, a', group'⟩ := Analysis.outcome_findGlobals.mp succeeds'
  obtain ⟨function', around', o⟩ := agrees.exists_opened
    ⟨a.fault_events, visits, isFunction, nodup⟩ nodup' a'.fault_events imports
  refine ⟨⟨a, a', group, group', o.free_eq a a' (exists_atom_of_groupReferences group), ?scopes⟩,
    ?inside⟩
  case scopes =>
    intro owner x beyond beyond'
    obtain ⟨e, he, rfl, -⟩ := o.left.visits
    obtain ⟨e', he', rfl, -⟩ := o.right.visits
    exact o.declares_eq a a' beyond.1 (beyond.2 e he rfl) (beyond'.2 e' he' o.label)
  case inside =>
    intro e he hl mode owner x binds
    refine Event.Inside.owner_mem ?_ (imports e he hl) binds
    rcases List.mem_append.mp he with he | he
    · exact o.inside_of_liesIn he hl
    · exact o.label ▸ o.symm.inside_of_liesIn he (o.label ▸ hl)

def programOf (statements : List Tree) : Node :=
  ⟨0, [("type", .str "Program"), ("body", .arr 1 statements)]⟩

theorem agreesOutside_programOf {function : Label} {xs ys : List Tree}
    (h : List.Forall₂ (Tree.AgreesOutside function) xs ys) :
    (programOf xs).tree.AgreesOutside function (programOf ys).tree := by
  have statements : (Tree.arr 1 xs).AgreesOutside function (.arr 1 ys) := .of_items (.of_forall₂ h)
  exact .of_members (by simp)
    (.of_forall₂ (.cons ⟨rfl, fun _ => .atom _⟩ (.cons ⟨rfl, fun _ => statements⟩ .nil)))

/-- The arrow function `x => x`, in the place of `p => [p, x]`. -/
def arrowOwn : Node :=
  ⟨arrow.label, [("type", .str "ArrowFunctionExpression"), ("params", .arr 3 [.identifier 4 "x"]),
    ("body", .identifier 5 "x")]⟩

theorem agreesOutside_arrowOwn : arrow.tree.AgreesOutside arrow.label arrowOwn.tree :=
  .of_members (by simp) (.of_forall₂ (.cons ⟨rfl, fun _ => .atom _⟩
    (.cons ⟨rfl, by simp [Kept]⟩ (.cons ⟨rfl, by simp [Kept]⟩ .nil))))

/-- In `x; p => [p, x]` and in `x; x => x`, the first `x` is free. -/
theorem findGlobals_encapsulates_arrow : ∃ gs gs',
    (findGlobals (fun _ => .returned .null false)
      (.value (programOf [.identifier 9 "x", arrow.tree]).tree) {}).outcome = .ok gs ∧
    (findGlobals (fun _ => .returned .null false)
      (.value (programOf [.identifier 9 "x", arrowOwn.tree]).tree) {}).outcome = .ok gs' ∧
    gs.length = 1 ∧ gs'.length = 1 ∧
    ∃ (a : Analysis (programOf [.identifier 9 "x", arrow.tree]).tree false)
      (a' : Analysis (programOf [.identifier 9 "x", arrowOwn.tree]).tree false),
      groupReferences a.free = .ok gs ∧ groupReferences a'.free = .ok gs' ∧
      (a'.free.filter (·.standsOutside arrow.label [a.table, a'.table])).map FreeReference.place =
        (a.free.filter (·.standsOutside arrow.label [a.table, a'.table])).map
          FreeReference.place := by
  have agrees := agreesOutside_programOf
    (.cons (.refl (.identifier 9 "x")) (.cons agreesOutside_arrowOwn .nil))
  obtain ⟨gs, succeeds, one⟩ : ∃ gs, (findGlobals (fun _ => .returned .null false)
      (.value (programOf [.identifier 9 "x", arrow.tree]).tree) {}).outcome = .ok gs ∧
        gs.length = 1 := exists_ok_of_map (by decide +kernel)
  obtain ⟨gs', succeeds', one'⟩ : ∃ gs', (findGlobals (fun _ => .returned .null false)
      (.value (programOf [.identifier 9 "x", arrowOwn.tree]).tree) {}).outcome = .ok gs' ∧
        gs'.length = 1 := exists_ok_of_map (by decide +kernel)
  have imports : ((programOf [.identifier 9 "x", arrow.tree]).tree.events.items ++
      (programOf [.identifier 9 "x", arrowOwn.tree]).tree.events.items).all
        fun e => !e.kind.isImportSpecifier := by decide +kernel
  obtain ⟨⟨a, a', group, group', same, -⟩, -⟩ := findGlobals_encapsulates
    (fun _ => .returned .null false) {} (by decide) (by decide)
    (visits_child (n := programOf [.identifier 9 "x", arrow.tree]) rfl rfl
      (List.mem_cons_of_mem _ (List.mem_singleton_self _))
      (Option.isNone_iff_eq_none.mp (by decide +kernel)))
    rfl agrees (fun e he _ => by simpa using List.all_eq_true.mp imports e he) succeeds succeeds'
  exact ⟨gs, gs', succeeds, succeeds', one, one', a, a', group, group', same⟩

/-- The function whose name is a pattern, without its parameter. -/
def patternNamedBare : Node :=
  ⟨patternNamed.label, [("type", .str "FunctionExpression"), ("id", patternNamed.get "id"),
    ("params", .arr 7 []), ("body", patternNamed.get "body")]⟩

theorem agreesOutside_patternNamedBare :
    patternNamed.tree.AgreesOutside patternNamed.label patternNamedBare.tree :=
  .of_members (by simp) (.of_forall₂ (.cons ⟨rfl, fun _ => .atom _⟩ (.cons ⟨rfl, fun _ => .refl _⟩
    (.cons ⟨rfl, by simp [Kept]⟩ (.cons ⟨rfl, fun _ => .refl _⟩ .nil)))))

/-- The reference in the name of the function is bound by the parameter and free without it. -/
theorem not_findGlobals_encapsulates_patternNamed :
    patternNamedProgram.tree.labels.Nodup ∧ (programOf [patternNamedBare.tree]).tree.labels.Nodup ∧
    Visits [] ⟨patternNamedProgram.tree, false⟩ patternNamed [patternNamedProgram] ∧
    patternNamed.kind.isFunction = true ∧
    patternNamedProgram.tree.AgreesOutside patternNamed.label
      (programOf [patternNamedBare.tree]).tree ∧
    (∀ e ∈ patternNamedProgram.tree.events.items ++
      (programOf [patternNamedBare.tree]).tree.events.items, e.kind.isImportSpecifier = false) ∧
    (findGlobals (fun _ => .returned .null false) (.value patternNamedProgram.tree) {}).outcome =
      .ok [] ∧
    ∃ g r, (findGlobals (fun _ => .returned .null false)
      (.value (programOf [patternNamedBare.tree]).tree) {}).outcome = .ok [g] ∧
      g.members = [r] ∧ r.liesIn patternNamed.label = false := by
  refine ⟨by decide, by decide, ?visits, rfl, ?agrees, ?imports, ?bound, ?free⟩
  case visits =>
    exact visits_child rfl rfl (List.mem_singleton_self _)
      (Option.isNone_iff_eq_none.mp (by decide +kernel))
  case agrees => exact agreesOutside_programOf (.cons agreesOutside_patternNamedBare .nil)
  case imports =>
    have all : (patternNamedProgram.tree.events.items ++
        (programOf [patternNamedBare.tree]).tree.events.items).all
          fun e => !e.kind.isImportSpecifier := by decide +kernel
    intro e he
    simpa using List.all_eq_true.mp all e he
  case bound =>
    obtain ⟨gs, succeeds, none⟩ : ∃ gs, (findGlobals (fun _ => .returned .null false)
        (.value patternNamedProgram.tree) {}).outcome = .ok gs ∧ gs.length = 0 :=
      exists_ok_of_map (by decide +kernel)
    rw [succeeds, List.length_eq_zero_iff.mp none]
  case free =>
    obtain ⟨gs, succeeds, outside⟩ : ∃ gs, (findGlobals (fun _ => .returned .null false)
        (.value (programOf [patternNamedBare.tree]).tree) {}).outcome = .ok gs ∧
          gs.map (fun g => g.members.map (·.liesIn patternNamed.label)) = [[false]] :=
      exists_ok_of_map (by decide +kernel)
    obtain ⟨g, rfl, members⟩ := List.map_eq_singleton_iff.mp outside
    obtain ⟨r, single, outside⟩ := List.map_eq_singleton_iff.mp members
    exact ⟨g, r, succeeds, single, outside⟩

end LexicalScope
