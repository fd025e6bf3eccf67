import Mathlib.Tactic.MkIffOfInductiveProp
import LexicalScope.Proofs.Resolution.Owner

/-! # The table of a program holds what its nodes declare

For a program of the vocabulary the table that binding leaves declares a text at a node exactly if
it is among the names that the node declares by what lies below it.
-/

namespace LexicalScope

/-- A program of the vocabulary in which no label occurs twice. -/
structure Tree.IsProgramAt (t : Tree) (root : Node) : Prop where
  node : t.node? = some root
  kind : root.kind = .program
  vocabulary : t.InVocabulary
  nodup : t.labels.Nodup

namespace Tree.IsProgramAt

variable {t : Tree} {root n m : Node} {around rest : List Node} {mode : ScopeMode} {x : String}

theorem fault_events (ht : t.IsProgramAt root) : t.events.fault = none := ht.vocabulary.fault_walk

theorem wellShaped (ht : t.IsProgramAt root) (hn : Visits [] ⟨t, false⟩ n around) :
    n.WellShaped := by
  obtain ⟨e, he, rfl, rfl⟩ := hn
  exact ht.vocabulary.wellShaped_path (s := ⟨t, false⟩) (by simp) he _ List.mem_cons_self

theorem visits_root (ht : t.IsProgramAt root) : Visits [] ⟨t, false⟩ root [] :=
  (Visits.iff ht.node ht.fault_events).mpr (.inr ⟨rfl, rfl⟩)

theorem root_suffix (ht : t.IsProgramAt root) (hn : Visits [] ⟨t, false⟩ n around) :
    [root] <:+ n :: around := by
  obtain ⟨m, hm, hs⟩ := hn.suffix_path
  obtain rfl := Option.some.inj (ht.node.symm.trans hm)
  exact hs

theorem admits (ht : t.IsProgramAt root) (hn : Visits [] ⟨t, false⟩ n around) :
    n = root ∨ ∃ p rest, around = p :: rest ∧ p.Admits n.tree ∧ n.tree.node? = some n := by
  have hs := ht.root_suffix hn
  obtain ⟨e, he, rfl, rfl⟩ := hn
  rcases ht.vocabulary.admits_parent (s := ⟨t, false⟩) he with ho | ⟨p, rest, ho, hp⟩
  · have same := hs.eq_of_length (by simp [ho])
    exact .inl (List.cons.inj same).1.symm
  · exact .inr ⟨p, rest, ho, hp, (ht.vocabulary.of_mem_walk (s := ⟨t, false⟩) he).1⟩

theorem kind_eq_program (ht : t.IsProgramAt root) (hn : Visits [] ⟨t, false⟩ n around) :
    n.kind = .program ↔ n = root := by
  constructor
  · intro hk
    rcases ht.admits hn with h | ⟨p, rest, -, hp, hn⟩
    · exact h
    · exact absurd hk (hp n hn).1
  · rintro rfl
    exact ht.kind

theorem root_eq (ht : t.IsProgramAt root) {e : Event} (he : e ∈ t.events.items) :
    e.root = root := by
  obtain ⟨before, hb⟩ := ht.root_suffix (Visits.of_mem_walk he)
  cases before with
  | nil =>
    obtain ⟨h, ho⟩ := List.cons.inj hb
    rw [Event.root, ← ho, ← h]
    rfl
  | cons m before =>
    obtain ⟨-, ho⟩ := List.cons.inj hb
    rw [Event.root, ← ho]
    exact List.getLastD_concat

/-- What the sites of a tree give to a node as their nearest owner is what the node gathers. -/
theorem exists_nearest_iff (ht : t.IsProgramAt root) (hn : Visits [] ⟨t, false⟩ n around)
    {test stop : Kind → Bool} (agree : ∀ k, k ≠ .program → test k = stop k)
    {site : Node → List String} :
    (∃ v ns, Visits [] ⟨t, false⟩ v ns ∧ x ∈ site v ∧ Nearest test ns n.label) ↔
      test n.kind = true ∧ x ∈ n.below stop site := by
  have below : n.below test site = n.below stop site := by
    obtain ⟨e, he, rfl, rfl⟩ := hn
    obtain ⟨hn, hv⟩ := ht.vocabulary.of_mem_walk (s := ⟨t, false⟩) he
    have inner := (hv.wellShaped hn).2
    apply List.flatMap_congr
    intro c hc
    obtain ⟨admits, hv⟩ := inner c hc
    exact gather_congr hv (fun m hm => (admits m hm).1) agree
  have same (v : Node) (ns : List Node) (hv : Visits [] ⟨t, false⟩ v ns) :
      Nearest test ns n.label ↔ ns.find? (fun m => test m.kind) = some n := by
    constructor
    · rintro ⟨m, hm, hl⟩
      obtain ⟨rest, hr⟩ := hv.of_mem ht.fault_events (List.mem_of_find?_eq_some hm)
      rwa [← (Visits.eq_of_label_eq ht.nodup hr hn hl).1]
    · intro hf
      exact ⟨n, hf, rfl⟩
  have sites : (∃ v ns, Visits [] ⟨t, false⟩ v ns ∧ x ∈ site v ∧
      ns.find? (fun m => test m.kind) = some n) ↔ _ := exists_site_iff ht.fault_events
  simp only [Node.Owns, List.find?_nil, reduceCtorEq, false_and, false_or] at sites
  rw [← below]
  constructor
  · rintro ⟨v, ns, hv, hx, ho⟩
    obtain ⟨rest, -, hb⟩ := sites.mp ⟨v, ns, hv, hx, (same v ns hv).mp ho⟩
    exact hb
  · intro hb
    obtain ⟨v, ns, hv, hx, ho⟩ := sites.mpr ⟨around, hn, hb⟩
    exact ⟨v, ns, hv, hx, (same v ns hv).mpr ho⟩

end Tree.IsProgramAt

namespace ScopeMode

variable {mode : ScopeMode} {k : Kind}

theorem isVarScope_eq (h : k ≠ .program) : mode.isVarScope k = k.isFunction := by
  have hk : (k == .program) = false := by simpa using h
  simp [isVarScope, Kind.isScope, Kind.isFunctionScope, hk]

theorem isFunctionNameScope_eq (h : k ≠ .program) : mode.isFunctionNameScope k =
    (if mode.hoistsToProgram then Kind.isFunction else Kind.isBlockLevelScope) k := by
  have hk : (k == .program) = false := by simpa using h
  unfold isFunctionNameScope
  split <;> simp [Kind.isScope, hk]

end ScopeMode

theorem Kind.isBlockScope_eq {k : Kind} (h : k ≠ .program) :
    k.isBlockScope = k.isBlockLevelScope := by
  have hk : (k == .program) = false := by simpa using h
  simp [isBlockScope, isScope, isBlockLevelScope, hk]

/-- The names that a node declares, by the sort of the declaration. -/
@[mk_iff]
inductive Node.Declares (mode : ScopeMode) (n : Node) (x : String) : Prop where
  | hoisted (scope : mode.isVarScope n.kind = true)
      (below : x ∈ n.below Kind.isFunction variableNames)
  | lexical (scope : n.kind.isBlockScope = true)
      (below : x ∈ n.below Kind.isBlockLevelScope lexicalNames)
  | function (scope : mode.isFunctionNameScope n.kind = true)
      (below : x ∈ n.below
        (if mode.hoistsToProgram then Kind.isFunction else Kind.isBlockLevelScope) functionNames)
  | parameter (kind : n.kind.isFunction = true) (names : x ∈ n.parameterNames)
  | functionSelf (kind : n.kind.isFunction = true) (names : x ∈ n.nameIn "id")
  | classSelf (kind : n.kind.isClass = true) (names : x ∈ n.nameIn "id")
  | caught (kind : n.kind = .catchClause) (names : x ∈ Pattern.texts (n.get "param"))
  | imported (kind : n.kind = .program) (below : x ∈ n.below (fun _ => false) importNames)

theorem Node.mem_declares {n : Node} {mode : ScopeMode} {x : String} :
    x ∈ n.declares mode.hoistsToProgram ↔ n.Declares mode x := by
  rw [declares_iff]
  unfold declares ScopeMode.isVarScope ScopeMode.isFunctionNameScope
  generalize mode.hoistsToProgram = hoists
  generalize hk : n.kind = k
  cases k <;> cases hoists <;>
    simp [Kind.isScope, Kind.isFunctionScope, Kind.isFunction, Kind.isBlockScope, Kind.isBlock,
      Kind.isBlockLevelScope, Kind.isClass] <;> tauto

theorem nearest_declaration {n : Node} {ns : List Node} {mode : ScopeMode} {var : Bool}
    {owner : Label} (hk : n.kind = .variableDeclaration) :
    Nearest (if var then mode.isVarScope else Kind.isBlockScope) (n :: ns) owner ↔
      Nearest (if var then mode.isVarScope else Kind.isBlockScope) ns owner := by
  have hv : mode.isVarScope n.kind = false := by
    rw [ScopeMode.isVarScope_eq (by simp [hk])]
    simp [hk, Kind.isFunction]
  have hb : n.kind.isBlockScope = false := by
    rw [Kind.isBlockScope_eq (by simp [hk])]
    simp [hk, Kind.isBlockLevelScope, Kind.isBlock, Kind.isFunction]
  cases var <;> simp [Nearest, hv, hb]

namespace Tree.IsProgramAt

variable {t : Tree} {root n v : Node} {around ns : List Node} {mode : ScopeMode} {x : String}

theorem exists_import_iff (ht : t.IsProgramAt root) :
    (∃ v ns, Visits [] ⟨t, false⟩ v ns ∧ x ∈ v.importNames) ↔
      x ∈ root.below (fun _ => false) Node.importNames := by
  rw [← mem_gather_iff ht.fault_events, gather_of_node?_eq_some ht.node]
  simp [Node.importNames, ht.kind]

theorem declares_of_variableNames (ht : t.IsProgramAt root) (hn : Visits [] ⟨t, false⟩ n around)
    (hv : Visits [] ⟨t, false⟩ v ns) (hx : x ∈ v.variableNames)
    (nearest : Nearest mode.isVarScope ns n.label) : n.Declares mode x := by
  obtain ⟨scope, below⟩ := (ht.exists_nearest_iff hn fun k => ScopeMode.isVarScope_eq).mp
    ⟨v, ns, hv, hx, nearest⟩
  exact .hoisted scope below

theorem declares_of_lexicalNames (ht : t.IsProgramAt root) (hn : Visits [] ⟨t, false⟩ n around)
    (hv : Visits [] ⟨t, false⟩ v ns) (hx : x ∈ v.lexicalNames)
    (nearest : Nearest Kind.isBlockScope ns n.label) : n.Declares mode x := by
  obtain ⟨scope, below⟩ := (ht.exists_nearest_iff hn fun k => Kind.isBlockScope_eq).mp
    ⟨v, ns, hv, hx, nearest⟩
  exact .lexical scope below

theorem declares_of_functionNames (ht : t.IsProgramAt root) (hn : Visits [] ⟨t, false⟩ n around)
    (hv : Visits [] ⟨t, false⟩ v ns) (hx : x ∈ v.functionNames)
    (nearest : Nearest mode.isFunctionNameScope ns n.label) : n.Declares mode x := by
  obtain ⟨scope, below⟩ := (ht.exists_nearest_iff hn fun k => ScopeMode.isFunctionNameScope_eq).mp
    ⟨v, ns, hv, hx, nearest⟩
  exact .function scope below

theorem declares_of_declaratorNames (ht : t.IsProgramAt root)
    (hn : Visits [] ⟨t, false⟩ n around) (hv : Visits [] ⟨t, false⟩ v ns)
    (hk : v.kind = .variableDeclaration) (hx : x ∈ v.declaratorNames)
    (nearest : Nearest (if (v.get "kind").isText "var" then mode.isVarScope
      else Kind.isBlockScope) (v :: ns) n.label) : n.Declares mode x := by
  rw [nearest_declaration hk] at nearest
  by_cases var : (v.get "kind").isText "var" = true
  · rw [if_pos var] at nearest
    exact ht.declares_of_variableNames hn hv (by simpa [Node.variableNames, hk, var] using hx)
      nearest
  · rw [if_neg var] at nearest
    exact ht.declares_of_lexicalNames hn hv (by simpa [Node.lexicalNames, hk, var] using hx)
      nearest

theorem eq_of_label (ht : t.IsProgramAt root) (hn : Visits [] ⟨t, false⟩ n around)
    (hv : Visits [] ⟨t, false⟩ v ns) (hl : v.label = n.label) : v = n :=
  (Visits.eq_of_label_eq ht.nodup hv hn hl).1

theorem declares_of_caught (ht : t.IsProgramAt root) (hn : Visits [] ⟨t, false⟩ n around)
    (hv : Visits [] ⟨t, false⟩ v ns) (hk : v.kind = .tryStatement) {handler : Node}
    (handles : (v.get "handler").object? = some handler) (self : handler.label = n.label)
    (binds : Pattern.Binds (handler.get "param") (.str x)) : n.Declares mode x := by
  have shape := ht.wellShaped hv
  simp only [Node.WellShaped, hk] at shape
  rcases shape with none | ⟨c, hc, clause⟩
  · simp [none, Tree.null, Tree.object?] at handles
  · obtain rfl : c = handler := Option.some.inj ((Tree.object?_of_node? hc).symm.trans handles)
    have inside := hv.slot ht.fault_events (Node.mem_slots_handler hk hc) hc
    obtain rfl := ht.eq_of_label hn inside self
    exact .caught clause (Pattern.mem_texts.mpr binds)

theorem declares_of_importNames (ht : t.IsProgramAt root) (hn : Visits [] ⟨t, false⟩ n around)
    (hv : Visits [] ⟨t, false⟩ v ns) (hx : x ∈ v.importNames) (own : root.label = n.label) :
    n.Declares mode x := by
  obtain rfl := ht.eq_of_label hn ht.visits_root own
  exact .imported ht.kind (ht.exists_import_iff.mp ⟨v, ns, hv, hx⟩)

/-- What a report binds at a node is among the names that the node declares. -/
theorem mem_declares_of_binds (ht : t.IsProgramAt root) (hn : Visits [] ⟨t, false⟩ n around)
    {e : Event} (he : e ∈ t.events.items) (hb : e.Binds mode n.label (.str x)) :
    x ∈ n.declares mode.hoistsToProgram := by
  have hv : Visits [] ⟨t, false⟩ e.node e.outer := Visits.of_mem_walk he
  have shape := ht.wellShaped hv
  obtain ⟨target, hr⟩ := exists_mem_reports he
  rw [Node.mem_declares]
  cases hb with
  | declared kind nearest declares target binds =>
    have hk := Node.kind_eq_of_mem_reports (kind ▸ hr) (by decide)
    exact ht.declares_of_declaratorNames hn hv hk
      (Node.mem_declaratorNames.mpr ⟨_, _, declares, target, binds⟩) nearest
  | function kind nearest named =>
    have hk := Node.kind_eq_of_mem_reports (kind ▸ hr) (by decide)
    have names := (Node.mem_nameIn (shape.function (by simp [hk, Kind.isFunction])).1).mpr named
    exact ht.declares_of_functionNames hn hv (by simpa [Node.functionNames, hk] using names)
      nearest
  | parameter kind self declares binds =>
    obtain rfl := ht.eq_of_label hn hv self
    exact .parameter (shape.isFunction (kind ▸ hr))
      (Node.mem_parameterNames.mpr ⟨_, declares, binds⟩)
  | functionSelf kind self named =>
    have hk := shape.isFunction (kind ▸ hr)
    obtain rfl := ht.eq_of_label hn hv self
    exact .functionSelf hk ((Node.mem_nameIn (shape.function hk).1).mpr named)
  | classOuter kind nearest named =>
    have hk := Node.kind_eq_of_mem_reports (kind ▸ hr) (by decide)
    have names := (Node.mem_nameIn (shape.ofClass (by simp [hk, Kind.isClass]))).mpr named
    exact ht.declares_of_lexicalNames hn hv (by simpa [Node.lexicalNames, hk] using names) nearest
  | classSelf kind self named =>
    have hk := shape.isClass (kind ▸ hr)
    obtain rfl := ht.eq_of_label hn hv self
    exact .classSelf hk ((Node.mem_nameIn (shape.ofClass hk)).mpr named)
  | caught kind handles self binds =>
    have hk := Node.kind_eq_of_mem_reports (kind ▸ hr) (by decide)
    exact ht.declares_of_caught hn hv hk handles self binds
  | imported kind own target named =>
    have hk : e.node.kind = e.kind := by
      apply Node.kind_eq_of_mem_reports hr
      rcases kind with kind | kind | kind <;> rw [kind] <;> decide
    exact ht.declares_of_importNames hn hv
      ((Node.mem_importNames shape (hk ▸ kind)).mpr ⟨_, target, named⟩) (ht.root_eq he ▸ own)

theorem reported (ht : t.IsProgramAt root) (hv : Visits [] ⟨t, false⟩ v ns) {k : Kind}
    (hk : ∀ target, k ∈ v.reports target) :
    ⟨k, v, ns⟩ ∈ t.events.items :=
  hv.mem_walk ht.fault_events hk

theorem exists_binds_declared (ht : t.IsProgramAt root) (hv : Visits [] ⟨t, false⟩ v ns)
    (hk : v.kind = .variableDeclaration) (hx : x ∈ v.declaratorNames) {owner : Label}
    (nearest : Nearest (if (v.get "kind").isText "var" then mode.isVarScope
      else Kind.isBlockScope) ns owner) :
    ∃ e ∈ t.events.items, e.Binds mode owner (.str x) := by
  obtain ⟨d, p, hd, hp, hb⟩ := Node.mem_declaratorNames.mp hx
  refine ⟨_, ht.reported hv (k := .variableDeclaration) (by simp [Node.reports, hk]), ?_⟩
  exact .declared rfl ((nearest_declaration hk).mpr nearest) hd hp hb

theorem exists_binds_of_variableNames (ht : t.IsProgramAt root) (hv : Visits [] ⟨t, false⟩ v ns)
    (hx : x ∈ v.variableNames) {owner : Label} (nearest : Nearest mode.isVarScope ns owner) :
    ∃ e ∈ t.events.items, e.Binds mode owner (.str x) := by
  unfold Node.variableNames at hx
  split at hx
  · next hk =>
    split at hx
    · next var => exact ht.exists_binds_declared hv hk hx (by rwa [if_pos var])
    · cases hx
  · cases hx

theorem exists_binds_of_lexicalNames (ht : t.IsProgramAt root) (hv : Visits [] ⟨t, false⟩ v ns)
    (hx : x ∈ v.lexicalNames) {owner : Label} (nearest : Nearest Kind.isBlockScope ns owner) :
    ∃ e ∈ t.events.items, e.Binds mode owner (.str x) := by
  unfold Node.lexicalNames at hx
  split at hx
  · next hk =>
    split at hx
    · cases hx
    · next var => exact ht.exists_binds_declared hv hk hx (by rwa [if_neg var])
  · next hk =>
    have own := (ht.wellShaped hv).ofClass (by simp [hk, Kind.isClass])
    exact ⟨_, ht.reported hv (k := .classDeclaration) (by simp [Node.reports, hk]),
      .classOuter rfl nearest ((Node.mem_nameIn own).mp hx)⟩
  · cases hx

theorem exists_binds_of_functionNames (ht : t.IsProgramAt root) (hv : Visits [] ⟨t, false⟩ v ns)
    (hx : x ∈ v.functionNames) {owner : Label}
    (nearest : Nearest mode.isFunctionNameScope ns owner) :
    ∃ e ∈ t.events.items, e.Binds mode owner (.str x) := by
  unfold Node.functionNames at hx
  split at hx
  · next hk =>
    have own := ((ht.wellShaped hv).function (by simp [hk, Kind.isFunction])).1
    exact ⟨_, ht.reported hv (k := .functionDeclaration) (by simp [Node.reports, hk]),
      .function rfl nearest ((Node.mem_nameIn own).mp hx)⟩
  · cases hx

theorem exists_binds_of_caught (ht : t.IsProgramAt root) (hn : Visits [] ⟨t, false⟩ n around)
    (hk : n.kind = .catchClause) (hx : x ∈ Pattern.texts (n.get "param")) :
    ∃ e ∈ t.events.items, e.Binds mode n.label (.str x) := by
  rcases ht.admits hn with rfl | ⟨p, rest, rfl, hp, hnode⟩
  · simp [ht.kind] at hk
  · obtain ⟨htry, hh⟩ := (hp n hnode).2 hk
    obtain ⟨ns, hv⟩ := hn.of_mem ht.fault_events List.mem_cons_self
    refine ⟨_, ht.reported hv (k := .tryStatement) (by simp [Node.reports, htry]), ?_⟩
    exact .caught rfl (by rw [hh]; rfl) rfl (Pattern.mem_texts.mp hx)

theorem exists_binds_of_importNames (ht : t.IsProgramAt root) (hv : Visits [] ⟨t, false⟩ v ns)
    (hx : x ∈ v.importNames) :
    ∃ e ∈ t.events.items, e.Binds mode root.label (.str x) := by
  have kind : v.kind = .importSpecifier ∨ v.kind = .importDefaultSpecifier ∨
      v.kind = .importNamespaceSpecifier := by
    unfold Node.importNames at hx
    split at hx <;> simp_all
  have reports (target : Bool) : v.kind ∈ v.reports target := by
    rcases kind with hk | hk | hk <;> simp [Node.reports, hk]
  have he := ht.reported hv reports
  obtain ⟨i, hi, hx⟩ := (Node.mem_importNames (ht.wellShaped hv) kind).mp hx
  exact ⟨_, he, .imported kind (by rw [ht.root_eq he]) hi hx⟩

theorem exists_binds_of_mem_declares (ht : t.IsProgramAt root)
    (hn : Visits [] ⟨t, false⟩ n around) (hx : x ∈ n.declares mode.hoistsToProgram) :
    ∃ e ∈ t.events.items, e.Binds mode n.label (.str x) := by
  have shape := ht.wellShaped hn
  cases Node.mem_declares.mp hx with
  | hoisted scope below =>
    obtain ⟨v, ns, hv, hx, nearest⟩ :=
      (ht.exists_nearest_iff hn fun k => ScopeMode.isVarScope_eq).mpr ⟨scope, below⟩
    exact ht.exists_binds_of_variableNames hv hx nearest
  | lexical scope below =>
    obtain ⟨v, ns, hv, hx, nearest⟩ :=
      (ht.exists_nearest_iff hn fun k => Kind.isBlockScope_eq).mpr ⟨scope, below⟩
    exact ht.exists_binds_of_lexicalNames hv hx nearest
  | function scope below =>
    obtain ⟨v, ns, hv, hx, nearest⟩ :=
      (ht.exists_nearest_iff hn fun k => ScopeMode.isFunctionNameScope_eq).mpr ⟨scope, below⟩
    exact ht.exists_binds_of_functionNames hv hx nearest
  | parameter kind names =>
    obtain ⟨p, hp, hb⟩ := Node.mem_parameterNames.mp names
    exact ⟨_, ht.reported hn fun _ => Node.anyFunction_mem_reports kind, .parameter rfl rfl hp hb⟩
  | functionSelf kind names =>
    have named := (Node.mem_nameIn (shape.function kind).1).mp names
    exact ⟨_, ht.reported hn fun _ => Node.anyFunction_mem_reports kind,
      .functionSelf rfl rfl named⟩
  | classSelf kind names =>
    have named := (Node.mem_nameIn (shape.ofClass kind)).mp names
    exact ⟨_, ht.reported hn fun _ => Node.anyClass_mem_reports kind, .classSelf rfl rfl named⟩
  | caught kind names => exact ht.exists_binds_of_caught hn kind names
  | imported kind below =>
    obtain rfl := (ht.kind_eq_program hn).mp kind
    obtain ⟨v, ns, hv, hx⟩ := ht.exists_import_iff.mpr below
    exact ht.exists_binds_of_importNames hv hx

/-- The table of a program declares at a node the names that the node declares. -/
theorem declares_iff (ht : t.IsProgramAt root) {table : ScopeTable}
    (h : bindScopes t mode .empty = (table, none)) (hn : Visits [] ⟨t, false⟩ n around) :
    table.declares n.label (.str x) = true ↔ x ∈ n.declares mode.hoistsToProgram := by
  rw [ScopeTable.declares_iff_binds h]
  constructor
  · rintro ⟨y, hy, e, he, hb⟩
    obtain rfl : y = .str x := by cases y <;> simp_all [Atom.key]
    exact ht.mem_declares_of_binds hn he hb
  · intro hx
    exact ⟨.str x, rfl, ht.exists_binds_of_mem_declares hn hx⟩

end Tree.IsProgramAt

end LexicalScope
