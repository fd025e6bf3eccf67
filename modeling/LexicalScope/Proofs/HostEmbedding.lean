import LexicalScope.Proofs.Analysis
import LexicalScope.Proofs.Binding.Alike
import LexicalScope.Proofs.Binding.Owner

/-! # Host embedding

A script that is embedded in a host leaves its top-level names to the host: `var` names attach to
functions only, and function names to the nearest block, switch or function. Whatever an embedded
script binds along a chain is bound along the same chain without the host, so embedding can only add
free references, and each one it adds has a name that the script leaves to its host.
-/

namespace LexicalScope

/-- A program that holds no program below its root. -/
structure Tree.OneProgram (t : Tree) : Prop where
  isProgram : t.isProgram = true
  below : ∀ e ∈ t.events.items, e.outer ≠ [] → e.node.kind ≠ .program

/-- A declaration of a name that an embedded script leaves to its host. -/
inductive Event.LeftToHost (e : Event) (x : Atom) : Prop where
  | variable {declarator pattern : Tree} (kind : e.kind = .variableDeclaration)
      (var : (e.node.get "kind").isText "var" = true)
      (outside : ∀ n ∈ e.outer, n.kind.isFunction = false)
      (declares : (e.node.get "declarations").Holds declarator)
      (target : declarator.field "id" = .ok pattern) (binds : Pattern.Binds pattern x)
  | function (kind : e.kind = .functionDeclaration)
      (outside : ∀ n, e.outer.find? (fun m => m.kind.isBlockLevelScope) = some n →
        n.kind.isFunction = false)
      (named : (e.node.get "id").IsNamed x)

namespace Tree.OneProgram

variable {t : Tree} {n m : Node} {ns before after path : List Node}

theorem kind_ne_program (h : t.OneProgram) (ends : t.events.fault = none)
    (hn : Visits [] ⟨t, false⟩ n ns) (hm : m :: after <:+ n :: ns) (ha : after ≠ []) :
    m.kind ≠ .program := by
  obtain ⟨e, he, rfl, rfl⟩ := hn.of_suffix ends hm (Nat.zero_le _)
  exact h.below e he ha

theorem exists_scope (h : t.OneProgram) (hn : Visits [] ⟨t, false⟩ n ns) (hp : path <:+ n :: ns)
    (hne : path ≠ []) : ∃ m, path.find? (fun m => m.kind.isScope) = some m := by
  obtain ⟨root, hr, hk⟩ := exists_node_of_isProgram h.isProgram
  obtain ⟨root', hr', hs⟩ := hn.suffix_path
  obtain rfl := Option.some.inj (hr.symm.trans hr')
  have last : [root] <:+ path :=
    List.suffix_of_suffix_length_le hs hp (List.length_pos_of_ne_nil hne)
  rw [← Option.isSome_iff_exists, List.find?_isSome]
  exact ⟨root, last.subset List.mem_cons_self, by simp [hk, Kind.isScope]⟩

theorem find?_isScope_append (h : t.OneProgram) (ends : t.events.fault = none)
    (hn : Visits [] ⟨t, false⟩ n ns) (hp : before ++ m :: after <:+ n :: ns)
    (hb : ∀ k ∈ before, k.kind.isFunction = false) :
    (before ++ m :: after).find? (fun m => m.kind.isScope) =
      (m :: after).find? fun m => m.kind.isScope := by
  have none : before.find? (fun m => m.kind.isScope) = none := by
    rw [List.find?_eq_none]
    intro k hk
    obtain ⟨before, between, rfl⟩ := List.append_of_mem hk
    have below : k :: (between ++ m :: after) <:+ before ++ k :: between ++ m :: after := by
      simp [List.append_assoc]
    have program := h.kind_ne_program ends hn (below.trans hp) (by simp)
    simp [Kind.isScope, hb k hk, program]
  rw [List.find?_append, none, Option.none_or]

theorem find?_isScope (h : t.OneProgram) (ends : t.events.fault = none)
    (hn : Visits [] ⟨t, false⟩ n ns) (hp : path <:+ n :: ns) {test : Kind → Bool}
    (functions : ∀ k : Kind, k.isFunction = true → test k = true)
    (hm : path.find? (fun m => test m.kind) = some m) (hf : m.kind.isFunction = true) :
    path.find? (fun m => m.kind.isScope) = some m := by
  obtain ⟨-, before, after, rfl, hb⟩ := List.find?_eq_some_iff_append.mp hm
  rw [h.find?_isScope_append ends hn hp, List.find?_cons_of_pos (by simp [Kind.isScope, hf])]
  intro k hk
  by_contra hk'
  simpa [functions k.kind (by simpa using hk')] using hb k hk

theorem nearest_isFunctionScope (h : t.OneProgram) (ends : t.events.fault = none)
    (hn : Visits [] ⟨t, false⟩ n ns) (hp : path <:+ n :: ns) {owner : Label}
    (nearest : Nearest Kind.isScope path owner) :
    Nearest Kind.isFunctionScope path owner ∨ ∀ k ∈ path, k.kind.isFunction = false := by
  obtain ⟨m, hm, hl⟩ := nearest
  obtain ⟨scope, before, after, rfl, hb⟩ := List.find?_eq_some_iff_append.mp hm
  have notFunction : ∀ k ∈ before, k.kind.isFunction = false := by
    intro k hk
    have notScope := hb k hk
    simp only [Kind.isScope] at notScope
    simp_all
  by_cases function : m.kind.isFunction = true
  · refine .inl ⟨m, List.find?_eq_some_iff_append.mpr ⟨function, before, after, rfl, ?_⟩, hl⟩
    intro k hk
    simp [Kind.isFunctionScope, notFunction k hk]
  · right
    have program : m.kind = .program := by simpa [Kind.isScope, function] using scope
    have last : after = [] := by
      by_contra hne
      exact h.kind_ne_program ends hn ((List.suffix_append before _).trans hp) hne program
    intro k hk
    rcases List.mem_append.mp hk with hk | hk
    · exact notFunction k hk
    · rw [last, List.mem_singleton] at hk
      simpa [hk] using function

theorem nearest_isBlockLevelScope (h : t.OneProgram) (ends : t.events.fault = none)
    (hn : Visits [] ⟨t, false⟩ n ns) (hp : path <:+ n :: ns) {owner : Label}
    (nearest : Nearest Kind.isScope path owner) : Nearest Kind.isBlockLevelScope path owner ∨
      ∀ k, path.find? (fun m => m.kind.isBlockLevelScope) = some k → k.kind.isFunction = false := by
  refine Classical.or_iff_not_imp_right.mpr fun inside => ?_
  push Not at inside
  obtain ⟨k, hk, function⟩ := inside
  obtain ⟨m, hm, hl⟩ := nearest
  have scope := h.find?_isScope ends hn hp (by simp +contextual [Kind.isBlockLevelScope]) hk
    (by simpa using function)
  obtain rfl := Option.some.inj (scope.symm.trans hm)
  exact ⟨k, hk, hl⟩

end Tree.OneProgram

section

variable {t : Tree} {mode mode' : ScopeMode} {d : Event} {n : Node} {ns : List Node} {x : Atom}
  {owner : Label}

/-- What an embedded script binds at a node is bound there, or around it, without the host. -/
theorem Event.Binds.outward (h : d.Binds mode' n.label x) (one : t.OneProgram)
    (nodup : t.labels.Nodup) (ends : t.events.fault = none) (hd : d ∈ t.events.items)
    (hn : Visits [] ⟨t, false⟩ n ns) (hoists : mode.hoistsToProgram = true)
    (embedded : mode'.hoistsToProgram = false) : ∃ m ∈ n :: ns, d.Binds mode m.label x := by
  have hv : Visits [] ⟨t, false⟩ d.node d.outer := Visits.of_mem_walk hd
  cases h with
  | declared kind nearest declares target binds =>
    refine ⟨n, List.mem_cons_self, .declared kind ?_ declares target binds⟩
    by_cases var : (d.node.get "kind").isText "var" = true
    · rw [if_pos var, ScopeMode.isVarScope_of_embedded embedded] at nearest
      rw [if_pos var, ScopeMode.isVarScope_of_hoists hoists]
      obtain ⟨m, hm, hl⟩ := nearest
      have function : m.kind.isFunction = true := (List.find?_eq_some_iff_append.mp hm).1
      exact ⟨m, one.find?_isScope ends hv List.suffix_rfl (fun k hk => hk) hm function, hl⟩
    · rwa [if_neg var] at nearest ⊢
  | function kind nearest named =>
    rw [ScopeMode.isFunctionNameScope_of_embedded embedded] at nearest
    obtain ⟨m, hm, hl⟩ := nearest
    obtain ⟨-, before, after, ho, hb⟩ := List.find?_eq_some_iff_append.mp hm
    have below : before ++ m :: after <:+ d.node :: d.outer := ho ▸ List.suffix_cons _ _
    have hm := hv.of_suffix ends ((List.suffix_append before _).trans below) (Nat.zero_le _)
    obtain ⟨rfl, rfl⟩ := Visits.eq_of_label_eq nodup hm hn hl
    obtain ⟨k, hk⟩ := one.exists_scope hm List.suffix_rfl (by simp)
    refine ⟨k, List.mem_of_find?_eq_some hk, .function kind ⟨k, ?_, rfl⟩ named⟩
    rw [ScopeMode.isFunctionNameScope_of_hoists hoists, ho,
      one.find?_isScope_append ends hv below, hk]
    intro k hk
    have notBlockLevel := hb k hk
    simp only [Kind.isBlockLevelScope] at notBlockLevel
    simp_all
  | parameter kind self declares binds =>
    exact ⟨n, List.mem_cons_self, .parameter kind self declares binds⟩
  | functionSelf kind self named => exact ⟨n, List.mem_cons_self, .functionSelf kind self named⟩
  | classOuter kind nearest named => exact ⟨n, List.mem_cons_self, .classOuter kind nearest named⟩
  | classSelf kind self named => exact ⟨n, List.mem_cons_self, .classSelf kind self named⟩
  | caught kind handles self binds =>
    exact ⟨n, List.mem_cons_self, .caught kind handles self binds⟩
  | imported kind root target named =>
    exact ⟨n, List.mem_cons_self, .imported kind root target named⟩

/-- What is bound without the host is bound at the same node with it, or left to the host. -/
theorem Event.Binds.inward (h : d.Binds mode owner x) (one : t.OneProgram)
    (ends : t.events.fault = none) (hd : d ∈ t.events.items) (hoists : mode.hoistsToProgram = true)
    (embedded : mode'.hoistsToProgram = false) : d.Binds mode' owner x ∨ d.LeftToHost x := by
  have hv : Visits [] ⟨t, false⟩ d.node d.outer := Visits.of_mem_walk hd
  cases h with
  | declared kind nearest declares target binds =>
    by_cases var : (d.node.get "kind").isText "var" = true
    · rw [if_pos var, ScopeMode.isVarScope_of_hoists hoists] at nearest
      rcases one.nearest_isFunctionScope ends hv List.suffix_rfl nearest with nearest | outside
      · left
        refine .declared kind ?_ declares target binds
        rwa [if_pos var, ScopeMode.isVarScope_of_embedded embedded]
      · right
        refine .variable kind var ?_ declares target binds
        exact fun k hk => outside k (List.mem_cons_of_mem _ hk)
    · left
      refine .declared kind ?_ declares target binds
      rwa [if_neg var] at nearest ⊢
  | function kind nearest named =>
    rw [ScopeMode.isFunctionNameScope_of_hoists hoists] at nearest
    rcases one.nearest_isBlockLevelScope ends hv (List.suffix_cons _ _) nearest with
      nearest | outside
    · left
      refine .function kind ?_ named
      rwa [ScopeMode.isFunctionNameScope_of_embedded embedded]
    · exact .inr (.function kind outside named)
  | parameter kind self declares binds => exact .inl (.parameter kind self declares binds)
  | functionSelf kind self named => exact .inl (.functionSelf kind self named)
  | classOuter kind nearest named => exact .inl (.classOuter kind nearest named)
  | classSelf kind self named => exact .inl (.classSelf kind self named)
  | caught kind handles self binds => exact .inl (.caught kind handles self binds)
  | imported kind root target named => exact .inl (.imported kind root target named)

theorem Event.fault_entries_hostEmbedded (one : t.OneProgram) (ends : t.events.fault = none)
    (hd : d ∈ t.events.items) (hoists : mode.hoistsToProgram = true)
    (h : (d.entries mode).fault = none) : (d.entries mode').fault = none := by
  have hv : Visits [] ⟨t, false⟩ d.node d.outer := Visits.of_mem_walk hd
  have compound := hv.kind_ne_compound ends
  unfold entries at h ⊢
  split <;> rename_i hk <;> simp only [hk] at h
  · split at h
    · rw [if_pos ‹_›]
      obtain ⟨m, hm⟩ := one.exists_scope hv List.suffix_rfl (by simp)
      rw [ScopeMode.isVarScope_of_hoists hoists] at h
      exact Binding.fault_atNearest_of_some compound compound hm
        (fun _ _ => Binding.fault_declarators_owner) h
    · rwa [if_neg ‹_›]
  · have inside : d.outer ≠ [] := by
      intro ho
      obtain ⟨root, hr, hp⟩ := Tree.exists_node_of_isProgram one.isProgram
      obtain ⟨root', hr', hs⟩ := hv.suffix_path
      obtain rfl := Option.some.inj (hr.symm.trans hr')
      obtain ⟨target, reported⟩ := exists_mem_reports hd
      have same := hs.eq_of_length (by simp [ho])
      have own := Node.kind_eq_of_mem_reports reported (by simp [hk])
      rw [← (List.cons.inj same).1, hp, hk] at own
      cases own
    obtain ⟨m, hm⟩ := one.exists_scope hv (List.suffix_cons _ _) inside
    rw [ScopeMode.isFunctionNameScope_of_hoists hoists] at h
    have around (n : Node) (hn : n ∈ d.outer) : n.kind ≠ .compound :=
      compound n (List.mem_cons_of_mem _ hn)
    exact Binding.fault_atNearest_of_some around around hm
      (fun _ _ => Binding.fault_declareIdentifier_owner) h
  all_goals exact h

end

section

variable {t : Tree} {e : Event} {a : Analysis t false} {a' : Analysis t true}

theorem Analysis.hoistsToProgram (a : Analysis t false) : a.mode.hoistsToProgram = true := by
  simp [ScopeMode.hoistsToProgram, a.hostEmbedded_mode]

theorem Analysis.free_eq_of_hoistsToProgram (h : a'.mode.hoistsToProgram = true) :
    a'.free = a.free := by
  have same : a'.table = a.table := by
    have entries : Event.entries a'.mode = Event.entries a.mode :=
      funext (Event.entries_congr (h.trans a.hoistsToProgram.symm))
    rw [a.table_eq, a'.table_eq, Tree.entries, Tree.entries, entries]
  exact Except.ok.inj (a'.classified.symm.trans (same ▸ a.classified))

theorem Event.Declared.outward (h : e.Declared a'.table) (one : t.OneProgram)
    (nodup : t.labels.Nodup) (he : e ∈ t.events.items)
    (embedded : a'.mode.hoistsToProgram = false) :
    e.Declared a.table := by
  obtain ⟨x, hx, n, hn, hd⟩ := h
  obtain ⟨y, hy, d, hd, binds⟩ := (ScopeTable.declares_iff_binds a'.bound).mp hd
  obtain ⟨before, ns, hp⟩ := List.append_of_mem hn
  have below : n :: ns <:+ e.node :: e.outer := ⟨before, hp.symm⟩
  have hv := (Visits.of_mem_walk he).of_suffix a.fault_events below (Nat.zero_le _)
  obtain ⟨m, hm, binds⟩ :=
    binds.outward one nodup a.fault_events hd hv a.hoistsToProgram embedded
  exact ⟨x, hx, m, below.subset hm,
    (ScopeTable.declares_iff_binds a.bound).mpr ⟨y, hy, d, hd, binds⟩⟩

theorem Event.IsFree.embedded (h : e.IsFree a.table) (one : t.OneProgram) (nodup : t.labels.Nodup)
    (he : e ∈ t.events.items) (embedded : a'.mode.hoistsToProgram = false) :
    e.IsFree a'.table := by
  obtain ⟨hopen, hd⟩ := isFree_iff.mp h
  exact isFree_iff.mpr ⟨hopen, hd.imp_right (mt fun hd => hd.outward one nodup he embedded)⟩

theorem Event.IsFree.leftToHost (h : e.IsFree a'.table) (bound : ¬ e.IsFree a.table)
    (one : t.OneProgram) (embedded : a'.mode.hoistsToProgram = false) :
    e.IsReference ∧ ∃ x, e.node.get "name" = .atom x ∧
      ∃ y, y.key = x.key ∧ ∃ d ∈ t.events.items, d.LeftToHost y := by
  obtain ⟨hopen, hd'⟩ := isFree_iff.mp h
  rw [isFree_iff, not_and_or, not_or, not_not] at bound
  obtain ⟨hk, x, hx, n, hn, hd⟩ := bound.resolve_left (not_not.mpr hopen)
  have reference : e.IsReference := by
    rcases h with h | h
    · exact h.1
    · exact absurd h.1 hk
  refine ⟨reference, x, hx, ?_⟩
  obtain ⟨y, hy, d, hd, binds⟩ := (ScopeTable.declares_iff_binds a.bound).mp hd
  rcases binds.inward one a.fault_events hd a.hoistsToProgram embedded with binds | left
  · have declared : a'.table.declares n.label x = true :=
      (ScopeTable.declares_iff_binds a'.bound).mpr ⟨y, hy, d, hd, binds⟩
    exact absurd ⟨x, hx, n, hn, declared⟩ (hd'.resolve_left hk)
  · exact ⟨y, hy, d, hd, left⟩

theorem Analysis.free_sublist (a : Analysis t false) (a' : Analysis t true) (one : t.OneProgram)
    (nodup : t.labels.Nodup) (embedded : a'.mode.hoistsToProgram = false) :
    a.free.Sublist a'.free := by
  classical
  rw [eq_of_freeReferences a.classified, eq_of_freeReferences a'.classified]
  apply List.Sublist.map
  have both : (t.events.items.filter fun e => e.IsFree a.table) =
      (t.events.items.filter fun e => e.IsFree a'.table).filter fun e => e.IsFree a.table := by
    rw [List.filter_filter]
    apply List.filter_congr
    intro e he
    have kept : e.IsFree a.table → e.IsFree a'.table := fun h => h.embedded one nodup he embedded
    simpa using kept
  rw [both]
  exact List.filter_sublist

theorem Analysis.exists_embedded (a : Analysis t false) (one : t.OneProgram) (names : t.TextNames) :
    ∃ a' : Analysis t true, a'.mode = { a.mode with hostEmbedded := true } := by
  refine Analysis.exists_of_stages ((resolveMode_eq_ok a.resolved).2.2 true) ?bound ?classified
  case bound =>
    refine Yield.fault_flatMap.mpr ⟨a.fault_events, ?_⟩
    intro e he
    exact Event.fault_entries_hostEmbedded one a.fault_events he a.hoistsToProgram
      ((Yield.fault_flatMap.mp a.fault_entries).2 e he)
  case classified =>
    intro e he
    exact (Event.Alike.refl e).fault_free (names e he) (a.fault_free he)

end

/-- Embedding a script in a host only adds references, each to a name left to the host. A module
stays as it is. -/
theorem findGlobals_hostEmbedded (parser : Parser) (options : GlobalsOptions) {t : Tree}
    {gs : List FreeVariable} (nodup : t.labels.Nodup)
    (below : ∀ e ∈ t.events.items, e.outer ≠ [] → e.node.kind ≠ .program) (names : t.TextNames)
    (succeeds : (findGlobals parser (.value t) { options with hostEmbedded := false }).outcome =
      .ok gs) :
    ∃ gs', (findGlobals parser (.value t) { options with hostEmbedded := true }).outcome = .ok gs' ∧
      (t.isModule = true → gs' = gs) ∧ ∃ (a : Analysis t false) (a' : Analysis t true),
        groupReferences a.free = .ok gs ∧ groupReferences a'.free = .ok gs' ∧
        a.free.Sublist a'.free ∧ ∀ r ∈ a'.free, r ∉ a.free → ∃ e ∈ t.events.items,
          e.IsReference ∧ e.reference = r ∧ ∃ x, r.name = .str x ∧
            ∃ d ∈ t.events.items, d.LeftToHost (.str x) := by
  obtain ⟨program, a, group⟩ := Analysis.outcome_findGlobals.mp succeeds
  have one : t.OneProgram := ⟨program, below⟩
  obtain ⟨a', -⟩ := a.exists_embedded one names
  obtain ⟨gs', group'⟩ := a'.exists_group names
  refine ⟨gs', Analysis.outcome_findGlobals.mpr ⟨program, a', group'⟩, ?module, a, a', group,
    group', ?_⟩
  case module =>
    intro inModule
    have hoists : a'.mode.hoistsToProgram = true := by
      simp [ScopeMode.hoistsToProgram, a'.inModule_mode, inModule]
    have same : a'.free = a.free := Analysis.free_eq_of_hoistsToProgram hoists
    exact Except.ok.inj (group'.symm.trans (same ▸ group))
  cases embedded : a'.mode.hoistsToProgram with
  | true =>
    have same : a'.free = a.free := Analysis.free_eq_of_hoistsToProgram embedded
    rw [same]
    exact ⟨List.Sublist.refl _, fun r hr hn => absurd hr hn⟩
  | false =>
    refine ⟨a.free_sublist a' one nodup embedded, ?_⟩
    intro r hr hn
    obtain ⟨e, he, free, rfl⟩ := a'.mem_free.mp hr
    have bound : ¬ e.IsFree a.table := fun h => hn (a.mem_free.mpr ⟨e, he, h, rfl⟩)
    obtain ⟨reference, x, hx, y, hy, d, hd, left⟩ := free.leftToHost bound one embedded
    obtain ⟨s, hs⟩ := a'.text_of_mem_free names hr
    have name : e.reference.name = .atom x := (if_neg reference.ne_this).trans hx
    obtain rfl : x = .str s := by simpa [Tree.str] using name.symm.trans hs
    obtain rfl : y = .str s := by cases y <;> simp_all [Atom.key]
    exact ⟨e, he, reference, rfl, s, hs, d, hd, left⟩

/-- The script `var x; x`. -/
def varProgram : Node :=
  ⟨0, [("type", .str "Program"), ("body", .arr 1 [
    .obj 2 [("type", .str "VariableDeclaration"), ("kind", .str "var"),
      ("declarations", .arr 3 [.obj 4 [("type", .str "VariableDeclarator"),
        ("id", .identifier 5 "x")]])],
    .obj 6 [("type", .str "ExpressionStatement"), ("expression", .identifier 7 "x")]])]⟩

/-- Embedded in a host, `var x; x` leaves its one name to it. -/
theorem findGlobals_hostEmbedded_var : ∃ gs',
    (findGlobals (fun _ => .returned .null false) (.value varProgram.tree)
      { hostEmbedded := true }).outcome = .ok gs' ∧ gs'.length = 1 ∧
      ∃ (a : Analysis varProgram.tree false) (a' : Analysis varProgram.tree true),
        groupReferences a.free = .ok [] ∧ groupReferences a'.free = .ok gs' ∧
        a.free.Sublist a'.free ∧ ∀ r ∈ a'.free, r ∉ a.free → ∃ e ∈ varProgram.tree.events.items,
          e.IsReference ∧ e.reference = r ∧ ∃ x, r.name = .str x ∧
            ∃ d ∈ varProgram.tree.events.items, d.LeftToHost (.str x) := by
  obtain ⟨gs, succeeds, none⟩ : ∃ gs, (findGlobals (fun _ => .returned .null false)
      (.value varProgram.tree) {}).outcome = .ok gs ∧ gs.length = 0 :=
    exists_ok_of_map (by decide +kernel)
  obtain rfl := List.length_eq_zero_iff.mp none
  obtain ⟨gs', embedded, one⟩ : ∃ gs', (findGlobals (fun _ => .returned .null false)
      (.value varProgram.tree) { hostEmbedded := true }).outcome = .ok gs' ∧ gs'.length = 1 :=
    exists_ok_of_map (by decide +kernel)
  have below : varProgram.tree.events.items.all
      fun e => e.outer.isEmpty || e.node.kind ≠ .program := by
    decide +kernel
  obtain ⟨gs'', embedded', -, more⟩ := findGlobals_hostEmbedded (fun _ => .returned .null false) {}
    (by decide) (fun e he ho => by simpa [ho] using List.all_eq_true.mp below e he)
    (by decide +kernel) succeeds
  obtain rfl := Except.ok.inj (embedded.symm.trans embedded')
  exact ⟨gs', embedded, one, more⟩

end LexicalScope
