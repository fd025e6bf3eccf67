import LexicalScope.Proofs.Globals
import LexicalScope.Proofs.Reference.Group
import LexicalScope.Proofs.Renaming.Reference

/-! # Renaming a parameter

To rename a parameter of a function throughout its parameters and its body changes nothing in what
an analysis finds, if the new name is not in use. The name of the function is not renamed: a
reference within it that means the parameter would lose it, unless it is the function's own name.
-/

namespace LexicalScope

namespace Renaming

variable {ρ : Renaming} {inside : Bool}

theorem get?_rename_of_ne (t : Tree) {key : String} (h : key ≠ "name") :
    ∃ flag, (t.rename ρ inside).get? key = (t.get? key).map (Tree.rename ρ flag) := by
  cases t with
  | obj l fs =>
    refine ⟨ρ.enters inside l key, ?_⟩
    rw [Tree.rename, Tree.get?, Tree.get?, Except.map]
    exact congrArg _ (Node.get_rename ⟨l, fs⟩ h)
  | atom a => exact ⟨inside, by rw [Tree.rename_atom]; rfl⟩
  | arr l vs => exact ⟨inside, by rw [Tree.rename]; rfl⟩

theorem prologueIsStrict_rename (vs : List Tree) :
    prologueIsStrict (vs.map (Tree.rename ρ inside)) = prologueIsStrict vs := by
  induction vs with
  | nil => rfl
  | cons v vs ih =>
    rw [List.map_cons, prologueIsStrict, prologueIsStrict, Tree.get?_rename _ (by decide),
      Tree.get?_rename _ (by decide), ih]
    cases v.get? "type" with
    | error e => rfl
    | ok kind =>
      simp only [Except.map, bind, Except.bind, Tree.isText_rename]
      split
      · rfl
      · cases v.get? "directive" with
        | error e => rfl
        | ok directive => simp only [Tree.truthy_rename, Tree.isText_rename]

theorem resolveMode_rename (t : Tree) (hostEmbedded : Bool) :
    resolveMode (t.rename ρ inside) hostEmbedded = resolveMode t hostEmbedded := by
  obtain ⟨flag, hb⟩ : ∃ flag, (t.rename ρ inside).get? "body" =
      (t.get? "body").map (Tree.rename ρ flag) := get?_rename_of_ne t (by decide)
  rw [resolveMode, resolveMode, Tree.get?_rename _ (by decide), hb]
  cases t.get? "sourceType" with
  | error e => rfl
  | ok sourceType =>
    cases t.get? "body" with
    | error e => rfl
    | ok body =>
      simp only [Except.map, bind, Except.bind, Tree.elements_rename, Tree.isText_rename]
      cases body.elements with
      | error e => rfl
      | ok vs => simp only [prologueIsStrict_rename]

theorem isProgram_rename (t : Tree) : (t.rename ρ inside).isProgram = t.isProgram := by
  rw [Tree.isProgram, Tree.isProgram, Tree.object?_rename, Option.any_map]
  congr 1
  funext n
  rw [n.get_rename_plain (by decide), Tree.isText_rename]

end Renaming

theorem declares_of_function {t : Tree} {mode : ScopeMode} {e : Event} {n : Node} {x : Atom}
    (h : (t.entries mode).fault = none) (he : e ∈ t.events.items) (hk : e.kind = .anyFunction)
    (hn : e.node = n)
    (hx : (∃ p, (n.get "params").Holds p ∧ Pattern.Binds p x) ∨ (n.get "id").IsNamed x) :
    ((t.entries mode).items.foldl ScopeTable.enter .empty).declares n.label x = true := by
  subst hn
  have binds : e.Binds mode e.node.label x := by
    rcases hx with ⟨p, hp, hb⟩ | hx
    · exact .parameter hk rfl hp hb
    · exact .functionSelf hk rfl hx
  exact (ScopeTable.declares_foldl_enter _ _ _ _).mpr
    (.inr ⟨x, (Tree.mem_entries h).mpr ⟨e, he, binds⟩, rfl⟩)

namespace Renaming.At

variable {ρ : Renaming} {t : Tree} {function : Node} {around : List Node} {mode : ScopeMode}

theorem follows_events (at_ : ρ.At t function around) :
    t.events.Follows (fun e e' => ∃ inside, e.Renamed ρ function around inside e')
      (t.rename ρ false).events :=
  follows_walk at_.label at_.isFunction (Slot.renamed_rename t false)
    ⟨at_.ends, fun _ _ => at_.unique, .nil, by simp, fun _ => .inl (by simp)⟩

theorem exists_function_event (at_ : ρ.At t function around) :
    ⟨.anyFunction, function, around⟩ ∈ t.events.items ∧
      ∃ e' ∈ (t.rename ρ false).events.items, e'.kind = .anyFunction ∧
        e'.node = function.rename ρ false := by
  have he : ⟨.anyFunction, function, around⟩ ∈ t.events.items :=
    at_.visits.mem_walk at_.ends fun _ => Node.anyFunction_mem_reports at_.isFunction
  obtain ⟨e', he', inside, h⟩ := exists_right_of_forall₂ (at_.follows_events at_.ends).2 he
  have outside : inside = false := by
    by_contra hi
    exact at_.functionAt.not_mem_around (h.within (by simpa using hi))
  subst outside
  exact ⟨he, e', he', h.kind, h.node⟩

theorem binds_new (at_ : ρ.At t function around) (hf : (t.entries mode).fault = none) {p : Tree}
    (hp : (function.get "params").Holds p) (hb : Pattern.Binds p ρ.old) :
    ∃ p', ((function.rename ρ false).get "params").Holds p' ∧ Pattern.Binds p' (.str ρ.new) := by
  obtain ⟨vs, hv, hm⟩ := hp
  have enters : ρ.enters false function.label "params" = true := by
    simp [Renaming.enters, at_.label]
  have ends : (Pattern.names p).fault = none := by
    have own := (Yield.fault_flatMap.mp hf).2 _ at_.exists_function_event.1
    have params := (Yield.fault_append.mp (Yield.fault_append.mp own).1).2
    have each := (Yield.fault_flatMap.mp params).2 p (Tree.mem_ofExcept_elements.mpr ⟨vs, hv, hm⟩)
    exact (Yield.fault_flatMap.mp (Yield.fault_append.mp each).2).1
  refine ⟨p.rename ρ true, ⟨vs.map (Tree.rename ρ true), ?_, List.mem_map_of_mem hm⟩, ?_⟩
  · rw [function.get_rename (by decide), enters, Tree.elements_rename, hv]
    rfl
  · obtain ⟨v, hv, rfl⟩ := exists_right_of_forall₂ (Pattern.follows_names ρ true p ends).2 hb
    simpa [Renaming.name, Renaming.atom, Pattern.Binds] using hv

theorem tables (at_ : ρ.At t function around) (hf : (t.entries mode).fault = none)
    (hf' : ((t.rename ρ false).entries mode).fault = none)
    (entries : List.Forall₂ (Entry.Renamed ρ function.tree.labels) (t.entries mode).items
      ((t.rename ρ false).entries mode).items)
    (parameter : ∃ p, (function.get "params").Holds p ∧ Pattern.Binds p ρ.old) :
    ρ.Tables function ((t.entries mode).items.foldl ScopeTable.enter .empty)
      (((t.rename ρ false).entries mode).items.foldl ScopeTable.enter .empty) where
  same owner x hx := declares_renamed entries hx
  old := declares_of_function hf at_.exists_function_event.1 rfl rfl (.inl parameter)
  new := by
    obtain ⟨-, e', he', hk, hn⟩ := at_.exists_function_event
    obtain ⟨p, hp, hb⟩ := parameter
    exact declares_of_function (n := function.rename ρ false) hf' he' hk hn
      (.inl (at_.binds_new hf hp hb))

theorem declares_ownName (at_ : ρ.At t function around)
    (hf' : ((t.rename ρ false).entries mode).fault = none)
    (own : ∃ a, (function.get "id").IsNamed a ∧ a.key = ρ.old.key) :
    (((t.rename ρ false).entries mode).items.foldl ScopeTable.enter .empty).declares
      function.label ρ.old = true := by
  obtain ⟨x, own, hx⟩ := own
  obtain ⟨-, e', he', hk, hn⟩ := at_.exists_function_event
  have kept : ((function.rename ρ false).get "id").IsNamed x := by
    rw [function.get_rename_plain (by decide)]
    refine ⟨(Tree.truthy_rename _).trans own.1, ?_⟩
    rw [Tree.field_name_rename, own.2]
    rfl
  rw [← ScopeTable.declares_congr_key hx]
  exact declares_of_function (n := function.rename ρ false) hf' he' hk hn (.inr kept)

end Renaming.At

namespace Renaming.At

variable {ρ : Renaming} {t : Tree} {function : Node} {around : List Node} {mode : ScopeMode}
  {table : ScopeTable} {rs : List FreeReference}

/-- Binding and classifying a renamed tree succeed where they did, with references at the same
places. -/
theorem exists_freeReferences (at_ : ρ.At t function around)
    (bound : bindScopes t mode .empty = (table, none)) (free : freeReferences t table = .ok rs)
    (atoms : ∀ r ∈ rs, ∃ a, r.name = .atom a)
    (imports : ∀ e ∈ t.events.items, function ∈ e.outer → e.kind ≠ .importSpecifier ∧
      e.kind ≠ .importDefaultSpecifier ∧ e.kind ≠ .importNamespaceSpecifier)
    (parameter : ∃ p, (function.get "params").Holds p ∧ Pattern.Binds p ρ.old)
    (fresh : ∀ e ∈ t.events.items, e.node.get "name" ≠ .str ρ.new)
    (own : (∃ a, (function.get "id").IsNamed a ∧ a.key = ρ.old.key) ∨
      ∀ e ∈ (walk (function :: around) ⟨function.get "id", true⟩).items, e.kind.refers = true →
        ∀ a, e.node.get "name" = .atom a → a.key ≠ ρ.old.key) :
    ∃ table' rs', bindScopes (t.rename ρ false) mode .empty = (table', none) ∧
      freeReferences (t.rename ρ false) table' = .ok rs' ∧
        List.Forall₂ (fun r r' => r'.place = r.place) rs rs' := by
  obtain ⟨rfl, hf⟩ := Prod.mk.inj bound
  obtain ⟨hr, rfl⟩ := Yield.toExcept_eq_ok.mp free
  have events := at_.follows_events
  have follows : (t.entries mode).Follows (Entry.Renamed ρ function.tree.labels)
      ((t.rename ρ false).entries mode) := by
    refine events.flatMap ?_
    rintro e he e' ⟨inside, h⟩
    exact h.follows_entries mode at_ he (imports e he)
  obtain ⟨hf', entries⟩ := follows hf
  have tables := at_.tables hf hf' entries parameter
  have own := own.imp_left (at_.declares_ownName hf')
  generalize (t.entries mode).items.foldl ScopeTable.enter .empty = table at hr atoms tables
  generalize hb' : ((t.rename ρ false).entries mode).items.foldl ScopeTable.enter .empty = table'
    at tables own
  have references : (t.events.flatMap (Event.free table)).Follows (fun r r' => r'.place = r.place)
      ((t.rename ρ false).events.flatMap (Event.free table')) := by
    refine events.flatMap ?_
    rintro e he e' ⟨inside, h⟩
    refine h.follows_free at_ he tables (fresh e he) ?_ ?_
    · rcases own with own | own
      · exact .inl own
      · exact .inr (own e)
    · intro r hm
      exact atoms r ((Yield.mem_flatMap_iff hr).mpr ⟨e, he, hm⟩)
  obtain ⟨hr', places⟩ := references hr
  exact ⟨table', _, Prod.ext hb' hf', Yield.toExcept_eq_ok.mpr ⟨hr', rfl⟩, places⟩

end Renaming.At

/-- Renaming a parameter leaves the references as they are, if no reference in the function's name
means the parameter. -/
theorem findGlobals_rename (parser : Parser) (options : GlobalsOptions) {t : Tree}
    {gs : List FreeVariable} (nodup : t.labels.Nodup)
    (succeeds : (findGlobals parser (.value t) options).outcome = .ok gs)
    {function : Node} {around : List Node} (visits : Visits [] ⟨t, false⟩ function around)
    (isFunction : function.kind.isFunction = true)
    (imports : ∀ e ∈ t.events.items, function ∈ e.outer → e.kind ≠ .importSpecifier ∧
      e.kind ≠ .importDefaultSpecifier ∧ e.kind ≠ .importNamespaceSpecifier)
    {x : Atom} (parameter : ∃ p, (function.get "params").Holds p ∧ Pattern.Binds p x)
    {y : String} (fresh : ∀ e ∈ t.events.items, e.node.get "name" ≠ .str y)
    (own : (∃ a, (function.get "id").IsNamed a ∧ a.key = x.key) ∨
      ∀ e ∈ (walk (function :: around) ⟨function.get "id", true⟩).items, e.kind.refers = true →
        ∀ a, e.node.get "name" = .atom a → a.key ≠ x.key) :
    ∃ gs', (findGlobals parser (.value (t.rename ⟨function.label, x, y⟩ false)) options).outcome =
        .ok gs' ∧ FreeVariable.places gs' = FreeVariable.places gs := by
  obtain ⟨program, globals⟩ := outcome_findGlobals_value.mp succeeds
  obtain ⟨mode, table, rs, hmode, bound, free, group⟩ := outcome_globalsOf.mp globals
  have ends : t.events.fault = none :=
    (Yield.fault_flatMap.mp (show (t.entries mode).fault = none from (Prod.mk.inj bound).2)).1
  have at_ : Renaming.At ⟨function.label, x, y⟩ t function around :=
    ⟨ends, visits, rfl, isFunction, nodup⟩
  obtain ⟨table', rs', bound', free', references⟩ := at_.exists_freeReferences bound free
    (exists_atom_of_groupReferences group) imports parameter fresh own
  have same : rs'.map FreeReference.place = rs.map FreeReference.place := by
    have related : List.Forall₂ Eq (rs'.map FreeReference.place) (rs.map FreeReference.place) := by
      rw [List.forall₂_map_left_iff, List.forall₂_map_right_iff]
      exact references.flip
    rwa [List.forall₂_eq_eq_eq] at related
  obtain ⟨gs', group', places⟩ := groupReferences_of_places same group
  refine ⟨gs', outcome_findGlobals_value.mpr ⟨?_, outcome_globalsOf.mpr ?_⟩, places⟩
  · rwa [Renaming.isProgram_rename]
  · exact ⟨mode, table', rs', (Renaming.resolveMode_rename t _).trans hmode, bound', free', group'⟩

/-- Renaming the parameter of `p => [p, x]` leaves `x` as the free variable. -/
theorem findGlobals_rename_arrow : ∃ gs,
    (findGlobals (fun _ => .returned .null false) (.value arrowProgram.tree) {}).outcome = .ok gs ∧
      gs.length = 1 ∧ ∃ gs', (findGlobals (fun _ => .returned .null false)
        (.value (arrowProgram.tree.rename ⟨arrow.label, .str "p", "q"⟩ false)) {}).outcome =
          .ok gs' ∧ FreeVariable.places gs' = FreeVariable.places gs := by
  have ends : arrowProgram.tree.events.fault = none :=
    Option.isNone_iff_eq_none.mp (by decide +kernel)
  have imports : arrowProgram.tree.events.items.all fun e => e.kind ≠ .importSpecifier ∧
      e.kind ≠ .importDefaultSpecifier ∧ e.kind ≠ .importNamespaceSpecifier := by
    decide +kernel
  have fresh : arrowProgram.tree.events.items.all fun e => !(e.node.get "name").isText "q" := by
    decide +kernel
  have parameter : Pattern.Binds (.identifier 4 "p") (.str "p") := by
    rw [Pattern.Binds, Pattern.names_of_isIdentifier rfl]
    exact List.mem_singleton_self _
  obtain ⟨gs, succeeds, one⟩ : ∃ gs, (findGlobals (fun _ => .returned .null false)
      (.value arrowProgram.tree) {}).outcome = .ok gs ∧ gs.length = 1 :=
    exists_ok_of_map (by decide +kernel)
  refine ⟨gs, succeeds, one, findGlobals_rename (fun _ => .returned .null false) {} (by decide)
    succeeds (visits_child rfl rfl (List.mem_singleton_self _) ends) rfl (fun e he _ => ?_)
    ⟨_, ⟨_, rfl, List.mem_singleton_self _⟩, parameter⟩ (fun e he hy => ?_) (.inr ?_)⟩
  · simpa using List.all_eq_true.mp imports e he
  · simpa [hy, Tree.isText, Tree.str] using List.all_eq_true.mp fresh e he
  · have none : walk [arrow, arrowProgram] ⟨arrow.get "id", true⟩ = .empty :=
      walk_of_node?_eq_none rfl
    simp [none]

/-- The reference in the function's name is bound before the renaming and free after it. -/
theorem not_findGlobals_rename_patternNamed :
    patternNamedProgram.tree.labels.Nodup ∧
    (findGlobals (fun _ => .returned .null false) (.value patternNamedProgram.tree) {}).outcome =
      .ok [] ∧
    Visits [] ⟨patternNamedProgram.tree, false⟩ patternNamed [patternNamedProgram] ∧
    patternNamed.kind.isFunction = true ∧
    (∀ e ∈ patternNamedProgram.tree.events.items, e.kind ≠ .importSpecifier ∧
      e.kind ≠ .importDefaultSpecifier ∧ e.kind ≠ .importNamespaceSpecifier) ∧
    (∃ p, (patternNamed.get "params").Holds p ∧ Pattern.Binds p (.str "x")) ∧
    (∀ z, patternNamedProgram.tree.rename ⟨patternNamed.label, .str "y", z⟩ true =
      patternNamedProgram.tree) ∧
    ¬ ∃ gs', (findGlobals (fun _ => .returned .null false)
      (.value (patternNamedProgram.tree.rename ⟨patternNamed.label, .str "x", "y"⟩ false))
      {}).outcome = .ok gs' ∧ FreeVariable.places gs' = FreeVariable.places [] := by
  refine ⟨by decide, ?succeeds, ?visits, rfl, ?imports, ?parameter, fun _ => rfl, ?fails⟩
  case succeeds =>
    obtain ⟨gs, succeeds, none⟩ : ∃ gs, (findGlobals (fun _ => .returned .null false)
        (.value patternNamedProgram.tree) {}).outcome = .ok gs ∧ gs.length = 0 :=
      exists_ok_of_map (by decide +kernel)
    rw [succeeds, List.length_eq_zero_iff.mp none]
  case visits =>
    exact visits_child rfl rfl (List.mem_singleton_self _)
      (Option.isNone_iff_eq_none.mp (by decide +kernel))
  case imports =>
    have all : patternNamedProgram.tree.events.items.all fun e => e.kind ≠ .importSpecifier ∧
        e.kind ≠ .importDefaultSpecifier ∧ e.kind ≠ .importNamespaceSpecifier := by
      decide +kernel
    intro e he
    simpa using List.all_eq_true.mp all e he
  case parameter =>
    refine ⟨_, ⟨_, rfl, List.mem_singleton_self _⟩, ?_⟩
    rw [Pattern.Binds, Pattern.names_of_isIdentifier rfl]
    exact List.mem_singleton_self _
  case fails =>
    rintro ⟨gs', succeeds, places⟩
    obtain ⟨gs, succeeds', one⟩ : ∃ gs, (findGlobals (fun _ => .returned .null false) (.value
        (patternNamedProgram.tree.rename ⟨patternNamed.label, .str "x", "y"⟩ false))
          {}).outcome = .ok gs ∧ gs.length = 1 := exists_ok_of_map (by decide +kernel)
    obtain rfl : gs = gs' := Except.ok.inj (succeeds'.symm.trans succeeds)
    have lengths := congrArg List.length places
    simp [FreeVariable.places, one] at lengths

end LexicalScope
