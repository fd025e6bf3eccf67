import LexicalScope.Proofs.Walk.Report
import LexicalScope.Scope.Binding

/-! # Which names are bound where

A binding site is a report that adds a name to the scope of an owner. The sites are listed here form
by form, each with the owner it has by its own chain. Where binding a tree runs to its end, the
table that it leaves declares just what the sites of the walk bind, up to the equality of names.
-/

namespace LexicalScope

namespace Tree

def Holds (t v : Tree) : Prop := ∃ vs, t.elements = .ok vs ∧ v ∈ vs

def IsNamed (identifier : Tree) (x : Atom) : Prop :=
  identifier.truthy = true ∧ identifier.field "name" = .ok (.atom x)

theorem mem_ofExcept_elements {t v : Tree} : v ∈ (Yield.ofExcept t.elements).items ↔ t.Holds v :=
  Yield.mem_ofExcept

end Tree

def Pattern.Binds (pattern : Tree) (x : Atom) : Prop := .atom x ∈ (names pattern).items

/-- The first of some nodes whose kind passes a test has a label. -/
def Nearest (test : Kind → Bool) (ns : List Node) (owner : Label) : Prop :=
  ∃ n, ns.find? (fun m => test m.kind) = some n ∧ n.label = owner

theorem find?_of_nearest? {test : Kind → Bool} {ns : List Node} {found : Option Node}
    (h : nearest? test ns = .ok found) : ns.find? (fun m => test m.kind) = found := by
  induction ns with
  | nil => exact Except.ok.inj h
  | cons n ns ih =>
    simp only [nearest?] at h
    split at h
    · cases h
    · split at h
      · next ht =>
        obtain rfl := Except.ok.inj h
        simp [ht]
      · next ht => simpa [ht] using ih h

/-- A report binds a name at an owner. -/
inductive Event.Binds (mode : ScopeMode) (e : Event) (owner : Label) (x : Atom) : Prop where
  | declared {declarator pattern : Tree} (kind : e.kind = .variableDeclaration)
      (nearest : Nearest (if (e.node.get "kind").isText "var" then mode.isVarScope
        else Kind.isBlockScope) e.path owner)
      (declares : (e.node.get "declarations").Holds declarator)
      (target : declarator.field "id" = .ok pattern) (binds : Pattern.Binds pattern x)
  | function (kind : e.kind = .functionDeclaration)
      (nearest : Nearest mode.isFunctionNameScope e.outer owner)
      (named : (e.node.get "id").IsNamed x)
  | parameter {pattern : Tree} (kind : e.kind = .anyFunction) (self : e.node.label = owner)
      (declares : (e.node.get "params").Holds pattern) (binds : Pattern.Binds pattern x)
  | functionSelf (kind : e.kind = .anyFunction) (self : e.node.label = owner)
      (named : (e.node.get "id").IsNamed x)
  | classOuter (kind : e.kind = .classDeclaration)
      (nearest : Nearest Kind.isBlockScope e.outer owner)
      (named : (e.node.get "id").IsNamed x)
  | classSelf (kind : e.kind = .anyClass) (self : e.node.label = owner)
      (named : (e.node.get "id").IsNamed x)
  | caught {handler : Node} (kind : e.kind = .tryStatement)
      (handles : (e.node.get "handler").object? = some handler) (self : handler.label = owner)
      (binds : Pattern.Binds (handler.get "param") x)
  | imported {identifier : Tree} (kind : e.kind = .importSpecifier ∨
        e.kind = .importDefaultSpecifier ∨ e.kind = .importNamespaceSpecifier)
      (root : e.root.label = owner) (target : e.node.tree.field "local" = .ok identifier)
      (named : identifier.field "name" = .ok (.atom x))

namespace Binding

variable {owner o : Label} {x : Atom}

theorem mem_declareName {t : Tree} :
    Entry.name o x ∈ (declareName owner t).items ↔ o = owner ∧ t = .atom x := by
  cases t <;> simp [declareName, Tree.asName, Except.map, Yield.ofExcept]
  tauto

theorem mem_declarePattern {pattern : Tree} (h : (declarePattern owner pattern).fault = none) :
    Entry.name o x ∈ (declarePattern owner pattern).items ↔
      o = owner ∧ Pattern.Binds pattern x := by
  have hs := (Yield.fault_append.mp h).2
  rw [declarePattern, Yield.mem_append_iff h, Yield.mem_flatMap_iff hs]
  simp only [Yield.items_single, List.mem_singleton, reduceCtorEq, false_or, mem_declareName,
    Pattern.Binds]
  constructor
  · rintro ⟨t, ht, rfl, rfl⟩
    exact ⟨rfl, ht⟩
  · rintro ⟨rfl, hx⟩
    exact ⟨_, hx, rfl, rfl⟩

theorem mem_declareIdentifier {identifier : Tree}
    (h : (declareIdentifier owner identifier).fault = none) :
    Entry.name o x ∈ (declareIdentifier owner identifier).items ↔
      o = owner ∧ identifier.IsNamed x := by
  unfold declareIdentifier at h ⊢
  by_cases ht : identifier.truthy = true
  · simp only [ht, if_true] at h ⊢
    have hs := (Yield.fault_append.mp h).2
    rw [Yield.mem_append_iff h, Yield.mem_flatMap_iff hs]
    cases hn : identifier.field "name" with
    | error e => simp [hn, Yield.ofExcept, Except.map] at hs
    | ok v =>
      simp only [Yield.ofExcept, Except.map, Yield.items_single, Yield.items_ofList,
        List.mem_singleton, reduceCtorEq, false_or, exists_eq_left, mem_declareName, Tree.IsNamed,
        ht, hn, Except.ok.injEq, true_and]
  · simp [ht, Tree.IsNamed]

theorem mem_atNearest {test : Kind → Bool} {ns : List Node} {bind : Label → Yield Entry} {P : Prop}
    (each : ∀ l, (bind l).fault = none → (Entry.name o x ∈ (bind l).items ↔ o = l ∧ P))
    (h : (atNearest test ns bind).fault = none) :
    Entry.name o x ∈ (atNearest test ns bind).items ↔ Nearest test ns o ∧ P := by
  unfold atNearest at h ⊢
  cases hn : nearest? test ns with
  | error e => simp [hn] at h
  | ok found =>
    have hf := find?_of_nearest? hn
    cases found with
    | none => simp [Nearest, hf]
    | some n =>
      simp only [hn] at h
      simp [Nearest, hf, each n.label h, eq_comm]

theorem mem_declarators {n : Node} (h : (declarators n owner).fault = none) :
    Entry.name o x ∈ (declarators n owner).items ↔ o = owner ∧ ∃ d pattern,
      (n.get "declarations").Holds d ∧ d.field "id" = .ok pattern ∧ Pattern.Binds pattern x := by
  have hs := (Yield.fault_append.mp h).2
  have each := (Yield.fault_flatMap.mp hs).2
  rw [declarators, Yield.mem_append_iff h, Yield.mem_flatMap_iff hs]
  simp only [Yield.items_single, List.mem_singleton, reduceCtorEq, false_or,
    Tree.mem_ofExcept_elements]
  have one (d : Tree) (hd : (declarator owner d).fault = none) :
      Entry.name o x ∈ (declarator owner d).items ↔
        o = owner ∧ ∃ pattern, d.field "id" = .ok pattern ∧ Pattern.Binds pattern x := by
    unfold declarator at hd ⊢
    cases hp : d.field "id" with
    | error e => simp [hp] at hd
    | ok pattern =>
      simp only [hp] at hd
      simp [mem_declarePattern hd]
  constructor
  · rintro ⟨d, hd, hx⟩
    obtain ⟨rfl, pattern, hp, hx⟩ := (one d (each d (Tree.mem_ofExcept_elements.mpr hd))).mp hx
    exact ⟨rfl, d, pattern, hd, hp, hx⟩
  · rintro ⟨rfl, d, pattern, hd, hp, hx⟩
    exact ⟨d, hd, (one d (each d (Tree.mem_ofExcept_elements.mpr hd))).mpr ⟨rfl, pattern, hp, hx⟩⟩

theorem mem_functionNames {n : Node} (h : (functionNames n).fault = none) :
    Entry.name o x ∈ (functionNames n).items ↔ o = n.label ∧
      ((∃ p, (n.get "params").Holds p ∧ Pattern.Binds p x) ∨ (n.get "id").IsNamed x) := by
  obtain ⟨hp, hi⟩ := Yield.fault_append.mp h
  have hs := (Yield.fault_append.mp hp).2
  have each := (Yield.fault_flatMap.mp hs).2
  rw [functionNames, Yield.mem_append_iff h, Yield.mem_append_iff hp, Yield.mem_flatMap_iff hs,
    mem_declareIdentifier hi]
  simp only [Yield.items_single, List.mem_singleton, reduceCtorEq, false_or,
    Tree.mem_ofExcept_elements]
  constructor
  · rintro (⟨p, hp, hx⟩ | ⟨rfl, hx⟩)
    · have hd := each p (Tree.mem_ofExcept_elements.mpr hp)
      obtain ⟨rfl, hb⟩ := (mem_declarePattern hd).mp hx
      exact ⟨rfl, .inl ⟨p, hp, hb⟩⟩
    · exact ⟨rfl, .inr hx⟩
  · rintro ⟨rfl, ⟨p, hp, hx⟩ | hx⟩
    · have hd := each p (Tree.mem_ofExcept_elements.mpr hp)
      exact .inl ⟨p, hp, (mem_declarePattern hd).mpr ⟨rfl, hx⟩⟩
    · exact .inr ⟨rfl, hx⟩

theorem not_binds_of_falsy {t : Tree} (h : t.truthy = false) : ¬ Pattern.Binds t x := by
  have hi : Pattern.isIdentifier t = false := by
    cases t with
    | obj l fs =>
      obtain rfl : fs = [] := by simpa [Tree.truthy] using h
      rfl
    | _ => rfl
  have hp : Pattern.parts? t = none := by
    cases t with
    | obj l fs =>
      obtain rfl : fs = [] := by simpa [Tree.truthy] using h
      rfl
    | _ => rfl
  simp [Pattern.Binds, Pattern.names_of_unsupported hi hp]

theorem mem_catchNames {n : Node} (h : (catchNames n).fault = none) :
    Entry.name o x ∈ (catchNames n).items ↔ ∃ handler : Node,
      (n.get "handler").object? = some handler ∧ handler.label = o ∧
        Pattern.Binds (handler.get "param") x := by
  unfold catchNames at h ⊢
  cases hh : n.get "handler" with
  | obj l fs =>
    have absent (hp : (Node.get ⟨l, fs⟩ "param").truthy = false) :
        ¬ Pattern.Binds (Node.get ⟨l, fs⟩ "param") x := not_binds_of_falsy hp
    simp only [hh, Tree.object?, Option.some.injEq, exists_eq_left'] at h ⊢
    by_cases ho : (Tree.obj l fs).truthy = true
    · by_cases hp : (Node.get ⟨l, fs⟩ "param").truthy = true
      · simp only [ho, hp, if_true] at h ⊢
        rw [mem_declarePattern h, eq_comm]
      · simp [ho, hp, absent (by simpa using hp)]
    · obtain rfl : fs = [] := by simpa [Tree.truthy] using ho
      simp [ho, absent rfl]
  | atom a =>
    simp only [hh] at h ⊢
    split <;> simp_all [Tree.object?]
  | arr l vs =>
    simp only [hh] at h ⊢
    split <;> simp_all [Tree.object?]

theorem mem_importName {n : Node} {root : Label} (h : (importName n root).fault = none) :
    Entry.name o x ∈ (importName n root).items ↔ o = root ∧ ∃ identifier,
      n.tree.field "local" = .ok identifier ∧ identifier.field "name" = .ok (.atom x) := by
  have hs := (Yield.fault_append.mp h).2
  rw [importName, Yield.mem_append_iff h, Yield.mem_flatMap_iff hs]
  simp only [Yield.items_single, List.mem_singleton, reduceCtorEq, false_or, Yield.mem_ofExcept,
    mem_declareName]
  cases hl : n.tree.field "local" with
  | error e => simp [bind, Except.bind]
  | ok identifier =>
    cases hn : identifier.field "name" with
    | error e => simp [bind, Except.bind, hn]
    | ok v =>
      simp only [bind, Except.bind, pure, Except.pure, hn, Except.ok.injEq, exists_eq_left',
        List.mem_singleton, exists_eq_left]

end Binding

open Binding

namespace Event

variable {mode : ScopeMode} {e : Event} {owner : Label} {x : Atom}

theorem binds_of_mem_entries (h : (e.entries mode).fault = none)
    (hx : Entry.name owner x ∈ (e.entries mode).items) : e.Binds mode owner x := by
  unfold entries at h hx
  split at hx <;> rename_i hk <;> simp only [hk] at h
  · obtain ⟨hn, d, p, hd, hp, hb⟩ := (mem_atNearest (fun _ => mem_declarators) h).mp hx
    exact .declared hk hn hd hp hb
  · obtain ⟨hn, hb⟩ := (mem_atNearest (fun _ => mem_declareIdentifier) h).mp hx
    exact .function hk hn hb
  · obtain ⟨rfl, ⟨p, hp, hb⟩ | hb⟩ := (mem_functionNames h).mp hx
    · exact .parameter hk rfl hp hb
    · exact .functionSelf hk rfl hb
  · obtain ⟨hn, hb⟩ := (mem_atNearest (fun _ => mem_declareIdentifier) h).mp hx
    exact .classOuter hk hn hb
  · obtain ⟨rfl, hb⟩ := (mem_declareIdentifier h).mp hx
    exact .classSelf hk rfl hb
  · obtain ⟨handler, hh, rfl, hb⟩ := (mem_catchNames h).mp hx
    exact .caught hk hh rfl hb
  · obtain ⟨rfl, i, hi, hn⟩ := (mem_importName h).mp hx
    exact .imported (.inl hk) rfl hi hn
  · obtain ⟨rfl, i, hi, hn⟩ := (mem_importName h).mp hx
    exact .imported (.inr (.inl hk)) rfl hi hn
  · obtain ⟨rfl, i, hi, hn⟩ := (mem_importName h).mp hx
    exact .imported (.inr (.inr hk)) rfl hi hn
  · cases hx

theorem mem_entries_of_binds (h : (e.entries mode).fault = none) (hb : e.Binds mode owner x) :
    Entry.name owner x ∈ (e.entries mode).items := by
  unfold entries at h ⊢
  cases hb with
  | declared kind nearest declares target binds =>
    simp only [kind] at h ⊢
    exact (mem_atNearest (fun _ => mem_declarators) h).mpr ⟨nearest, _, _, declares, target, binds⟩
  | function kind nearest named =>
    simp only [kind] at h ⊢
    exact (mem_atNearest (fun _ => mem_declareIdentifier) h).mpr ⟨nearest, named⟩
  | parameter kind self declares binds =>
    simp only [kind] at h ⊢
    exact (mem_functionNames h).mpr ⟨self.symm, .inl ⟨_, declares, binds⟩⟩
  | functionSelf kind self named =>
    simp only [kind] at h ⊢
    exact (mem_functionNames h).mpr ⟨self.symm, .inr named⟩
  | classOuter kind nearest named =>
    simp only [kind] at h ⊢
    exact (mem_atNearest (fun _ => mem_declareIdentifier) h).mpr ⟨nearest, named⟩
  | classSelf kind self named =>
    simp only [kind] at h ⊢
    exact (mem_declareIdentifier h).mpr ⟨self.symm, named⟩
  | caught kind handles self binds =>
    simp only [kind] at h ⊢
    exact (mem_catchNames h).mpr ⟨_, handles, self, binds⟩
  | imported kind root target named =>
    rcases kind with kind | kind | kind <;> simp only [kind] at h ⊢ <;>
      exact (mem_importName h).mpr ⟨root.symm, _, target, named⟩

theorem mem_entries (h : (e.entries mode).fault = none) :
    Entry.name owner x ∈ (e.entries mode).items ↔ e.Binds mode owner x :=
  ⟨binds_of_mem_entries h, mem_entries_of_binds h⟩

end Event

def Entry.owner : Entry → Label
  | .scope owner | .name owner _ => owner

namespace ScopeTable

theorem declares_foldl_enter (es : List Entry) (table : ScopeTable) (owner : Label) (x : Atom) :
    (es.foldl enter table).declares owner x = true ↔
      table.declares owner x = true ∨ ∃ y, Entry.name owner y ∈ es ∧ y.key = x.key := by
  induction es generalizing table with
  | nil => simp
  | cons entry es ih =>
    rw [List.foldl_cons, ih]
    cases entry with
    | scope other => simp [enter]
    | name other z =>
      simp only [enter, declares_declare, Bool.or_eq_true, Bool.and_eq_true, decide_eq_true_eq,
        beq_iff_eq, List.mem_cons, Entry.name.injEq]
      constructor
      · rintro ((⟨rfl, hz⟩ | h) | ⟨y, hy, hk⟩)
        · exact .inr ⟨z, .inl ⟨rfl, rfl⟩, hz⟩
        · exact .inl h
        · exact .inr ⟨y, .inr hy, hk⟩
      · rintro (h | ⟨y, ⟨rfl, rfl⟩ | hy, hk⟩)
        · exact .inl (.inr h)
        · exact .inl (.inl ⟨rfl, hk⟩)
        · exact .inr ⟨y, hy, hk⟩

theorem mem_owners_create (table : ScopeTable) (owner other : Label) :
    owner ∈ (table.create other).owners ↔ owner ∈ table.owners ∨ other = owner := by
  rw [owners_create]
  split
  · next h =>
    constructor
    · exact .inl
    · rintro (hm | rfl)
      · exact hm
      · exact h
  · rw [List.mem_append, List.mem_singleton, eq_comm]

theorem mem_owners_enter (table : ScopeTable) (entry : Entry) (owner : Label) :
    owner ∈ (table.enter entry).owners ↔ owner ∈ table.owners ∨ entry.owner = owner := by
  cases entry with
  | scope other => exact table.mem_owners_create owner other
  | name other x =>
    rw [enter, owners_declare]
    exact table.mem_owners_create owner other

theorem mem_owners_foldl_enter (es : List Entry) (table : ScopeTable) (owner : Label) :
    owner ∈ (es.foldl enter table).owners ↔
      owner ∈ table.owners ∨ ∃ entry ∈ es, entry.owner = owner := by
  induction es generalizing table with
  | nil => simp
  | cons entry es ih =>
    rw [List.foldl_cons, ih, mem_owners_enter, or_assoc]
    simp

end ScopeTable

theorem Tree.mem_entries {t : Tree} {mode : ScopeMode} (h : (t.entries mode).fault = none)
    {owner : Label} {x : Atom} :
    Entry.name owner x ∈ (t.entries mode).items ↔ ∃ e ∈ t.events.items, e.Binds mode owner x := by
  have each := (Yield.fault_flatMap.mp h).2
  rw [entries, Yield.mem_flatMap_iff h]
  constructor
  · rintro ⟨e, he, hx⟩
    exact ⟨e, he, (Event.mem_entries (each e he)).mp hx⟩
  · rintro ⟨e, he, hb⟩
    exact ⟨e, he, (Event.mem_entries (each e he)).mpr hb⟩

/-- A table that binding leaves declares what the reports of the walk bind. -/
theorem ScopeTable.declares_iff_binds {t : Tree} {mode : ScopeMode} {table : ScopeTable}
    (h : bindScopes t mode .empty = (table, none)) {owner : Label} {x : Atom} :
    table.declares owner x = true ↔
      ∃ y, y.key = x.key ∧ ∃ e ∈ t.events.items, e.Binds mode owner y := by
  obtain ⟨rfl, hf⟩ := Prod.mk.inj h
  rw [declares_foldl_enter]
  simp only [declares_empty, Bool.false_eq_true, false_or, Tree.mem_entries hf]
  exact exists_congr fun y => and_comm

/-- A table that binding leaves declares a name at a node exactly if a report of the walk binds it
there. -/
theorem declares_bindScopes_iff {t : Tree} {mode : ScopeMode} {table : ScopeTable}
    (h : bindScopes t mode .empty = (table, none)) :
    t.events.fault = none ∧ ∀ owner x, table.declares owner x = true ↔
      ∃ y, y.key = x.key ∧ ∃ e ∈ t.events.items, e.Binds mode owner y := by
  have hf : (t.entries mode).fault = none := (Prod.mk.inj h).2
  refine ⟨(Yield.fault_flatMap.mp hf).1, ?_⟩
  intro owner x
  exact ScopeTable.declares_iff_binds h

theorem declares_bindScopes_iff_arrow : ∃ table,
    bindScopes arrowProgram.tree ⟨false, false, false⟩ .empty = (table, none) ∧
      table.declares arrow.label (.str "p") = true ∧ arrowProgram.tree.events.fault = none ∧
      ∀ owner x, table.declares owner x = true ↔ ∃ y, y.key = x.key ∧
        ∃ e ∈ arrowProgram.tree.events.items, e.Binds ⟨false, false, false⟩ owner y := by
  have ends : (bindScopes arrowProgram.tree ⟨false, false, false⟩ .empty).2 = none :=
    Option.isNone_iff_eq_none.mp (by decide +kernel)
  exact ⟨_, Prod.ext rfl ends, by decide +kernel, declares_bindScopes_iff (Prod.ext rfl ends)⟩

end LexicalScope
