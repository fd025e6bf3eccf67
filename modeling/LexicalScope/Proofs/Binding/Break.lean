import LexicalScope.Proofs.Binding.Function
import LexicalScope.Proofs.Binding.Within
import LexicalScope.Proofs.Pattern.Break

/-! # Where binding breaks off

Binding goes from report to report. Where it breaks off, everything that the reports before have
bound is in the table, and nothing that any later one would bind. Of the report at fault the table
holds the scope that it had opened, all names of the patterns before the broken one, and the names
that this one gives before the place at fault. The own name of a function comes after all of its
parameters.
-/

namespace LexicalScope

def Entry.name? : Entry → Option Atom
  | .scope _ => none
  | .name _ x => some x

namespace ScopeTable

variable (t : ScopeTable) {opened : Option Label} {owner : Label} {xs : List Atom} {x : Atom}

/-- The table with the scope of an owner, if there is one, and some names in it. -/
def record : Option Label → List Atom → ScopeTable
  | none, _ => t
  | some owner, xs => xs.foldl (·.declare owner ·) (t.create owner)

theorem record_eq_foldl (owner : Label) (xs : List Atom) :
    t.record (some owner) xs = (.scope owner :: xs.map (.name owner)).foldl enter t := by
  rw [List.foldl_cons, List.foldl_map]
  rfl

theorem declares_record : (t.record opened xs).declares owner x = true ↔
    t.declares owner x = true ∨ opened = some owner ∧ ∃ y ∈ xs, y.key = x.key := by
  cases opened with
  | none => simp [record]
  | some other =>
    rw [record_eq_foldl, declares_foldl_enter]
    simp only [List.mem_cons, List.mem_map, reduceCtorEq, false_or, Entry.name.injEq,
      Option.some.injEq]
    refine or_congr_right ⟨?_, ?_⟩
    · rintro ⟨y, ⟨z, hz, rfl, rfl⟩, hk⟩
      exact ⟨rfl, z, hz, hk⟩
    · rintro ⟨rfl, y, hy, hk⟩
      exact ⟨y, ⟨y, hy, rfl, rfl⟩, hk⟩

theorem mem_owners_record :
    owner ∈ (t.record opened xs).owners ↔ owner ∈ t.owners ∨ opened = some owner := by
  cases opened with
  | none => simp [record]
  | some other =>
    rw [record_eq_foldl, mem_owners_foldl_enter]
    refine or_congr_right ?_
    simp only [List.mem_cons, List.mem_map, exists_eq_or_imp, Entry.owner, Option.some.injEq,
      or_iff_left_iff_imp]
    rintro ⟨_, ⟨x, -, rfl⟩, rfl⟩
    rfl

theorem foldl_enter_eq_record {es : List Entry} (own : ∀ entry ∈ es, entry.owner = owner) :
    (.scope owner :: es).foldl enter t = t.record (some owner) (es.filterMap Entry.name?) := by
  have there : owner ∈ (t.create owner).owners := (t.mem_owners_create owner owner).mpr (.inr rfl)
  rw [List.foldl_cons, record]
  change es.foldl enter (t.create owner) = _
  generalize t.create owner = u at there ⊢
  induction es generalizing u with
  | nil => rfl
  | cons entry es ih =>
    obtain ⟨first, rest⟩ := List.forall_mem_cons.mp own
    have kept := (u.mem_owners_enter entry owner).mpr (.inl there)
    rw [List.foldl_cons, ih rest _ kept]
    cases entry with
    | scope other =>
      obtain rfl : other = owner := first
      have same : u.create other = u := dif_pos there
      rw [enter, same]
      rfl
    | name other x =>
      obtain rfl : other = owner := first
      rfl

end ScopeTable

namespace Binding

def added (y : Yield Entry) : Yield Atom := ⟨y.items.filterMap Entry.name?, y.fault⟩

variable {owner : Label} {f : Fault}

theorem added_append (p q : Yield Entry) : added (p ++ q) = added p ++ added q := by
  obtain ⟨as, _ | e⟩ := p <;> simp [added]

theorem added_flatMap {α : Type} (p : Yield α) (g : α → Yield Entry) :
    added (p.flatMap g) = p.flatMap fun a => added (g a) := by
  have collect (as : List α) :
      added (Yield.collect g as) = Yield.collect (fun a => added (g a)) as := by
    induction as with
    | nil => rfl
    | cons a as ih => rw [Yield.collect_cons, added_append, ih, Yield.collect_cons]
  rw [Yield.flatMap, added_append, collect]
  rfl

theorem added_scope (owner : Label) (y : Yield Entry) :
    added (.single (.scope owner) ++ y) = added y := by
  rw [added_append]
  exact Yield.empty_append _

theorem added_declareName (owner : Label) (t : Tree) :
    added (declareName owner t) = .ofExcept (t.asName.map ([·])) := by
  unfold declareName
  cases t.asName <;> rfl

theorem added_declarePattern (owner : Label) (pattern : Tree) :
    added (declarePattern owner pattern) = Pattern.atoms pattern := by
  rw [declarePattern, added_scope, added_flatMap]
  simp only [added_declareName]
  rfl

def Declares (d : Tree) (xs : List Atom) : Prop :=
  ∃ pattern, d.field "id" = .ok pattern ∧ Pattern.Yields pattern xs

/-- A declarator has no target, or one that breaks off after some names. -/
inductive DeclaratorBreaksOff (d : Tree) : List Atom → Fault → Prop where
  | absent {f : Fault} (fails : d.field "id" = .error f) : DeclaratorBreaksOff d [] f
  | target {pattern : Tree} {left : List Atom} {f : Fault} (target : d.field "id" = .ok pattern)
      (broken : Pattern.BreaksOff pattern left f) : DeclaratorBreaksOff d left f

def declaratorAtoms (d : Tree) : Yield Atom :=
  match d.field "id" with
  | .error e => .fail e
  | .ok pattern => Pattern.atoms pattern

theorem declares_of_eq_ofList {d : Tree} {xs : List Atom} (h : declaratorAtoms d = .ofList xs) :
    Declares d xs := by
  unfold declaratorAtoms at h
  cases hd : d.field "id" with
  | error e =>
    rw [hd] at h
    cases h
  | ok pattern =>
    rw [hd] at h
    exact ⟨pattern, hd, Pattern.atoms_eq_ofList_iff.mp h⟩

theorem declaratorBreaksOff_of_eq_some {d : Tree} {left : List Atom}
    (h : declaratorAtoms d = ⟨left, some f⟩) : DeclaratorBreaksOff d left f := by
  unfold declaratorAtoms at h
  cases hd : d.field "id" with
  | error e =>
    rw [hd] at h
    cases h
    exact .absent hd
  | ok pattern =>
    rw [hd] at h
    exact .target hd (Pattern.atoms_eq_some_iff.mp h)

theorem added_declarators (n : Node) (owner : Label) : added (declarators n owner) =
    (Yield.ofExcept (n.get "declarations").elements).flatMap declaratorAtoms := by
  rw [declarators, added_scope, added_flatMap]
  refine Yield.flatMap_congr fun d _ => ?_
  unfold declarator declaratorAtoms
  cases d.field "id" with
  | error e => rfl
  | ok pattern => exact added_declarePattern _ _

theorem added_names {found : Except Fault Tree} : added ((Yield.ofExcept
    (found.map ([·]))).flatMap (declareName owner)) =
      .ofExcept ((found.bind Tree.asName).map ([·])) := by
  cases found with
  | error e => rfl
  | ok v => exact (congrArg added (Yield.flatMap_single v _)).trans (added_declareName owner v)

theorem added_declareIdentifier (owner : Label) (identifier : Tree) :
    added (declareIdentifier owner identifier) =
      if identifier.truthy then .ofExcept (identifier.nameOf.map ([·])) else .empty := by
  unfold declareIdentifier
  split
  · rw [added_scope, added_names]
    rfl
  · rfl

theorem added_functionNames (n : Node) : added (functionNames n) =
    (Yield.ofExcept (n.get "params").elements).flatMap Pattern.atoms ++
      added (declareIdentifier n.label (n.get "id")) := by
  rw [functionNames, added_append, added_scope, added_flatMap]
  simp only [added_declarePattern]

theorem added_importName (n : Node) (root : Label) : added (importName n root) =
    .ofExcept (((n.tree.field "local").bind Tree.nameOf).map ([·])) := by
  rw [importName, added_scope]
  have found : (do
      let identifier ← n.tree.field "local"
      return [← identifier.field "name"] : Except Fault (List Tree)) =
        ((n.tree.field "local").bind (·.field "name")).map ([·]) := by
    cases n.tree.field "local" with
    | error e => rfl
    | ok identifier =>
      change (identifier.field "name" >>= fun v => pure [v]) = _
      change _ = (identifier.field "name").map ([·])
      cases identifier.field "name" <;> rfl
  rw [found, added_names]
  cases n.tree.field "local" <;> rfl

end Binding

open Binding

/-- Where a report looks for the owner of what it declares, and for which kinds. -/
inductive Event.SeeksOwner (mode : ScopeMode) (e : Event) : (Kind → Bool) → List Node → Prop where
  | declaration (kind : e.kind = .variableDeclaration) : SeeksOwner mode e
      (if (e.node.get "kind").isText "var" then mode.isVarScope else Kind.isBlockScope) e.path
  | function (kind : e.kind = .functionDeclaration) :
      SeeksOwner mode e mode.isFunctionNameScope e.outer
  | class (kind : e.kind = .classDeclaration) : SeeksOwner mode e Kind.isBlockScope e.outer

/-- The owner to which a report that only has a name to add adds it. -/
inductive Event.NamesAt (mode : ScopeMode) (e : Event) : Label → Prop where
  | function {owner : Label} (kind : e.kind = .functionDeclaration)
      (nearest : Nearest mode.isFunctionNameScope e.outer owner) : NamesAt mode e owner
  | classOuter {owner : Label} (kind : e.kind = .classDeclaration)
      (nearest : Nearest Kind.isBlockScope e.outer owner) : NamesAt mode e owner
  | classSelf (kind : e.kind = .anyClass) : NamesAt mode e e.node.label

/-- A report breaks binding off, with the scope opened by then and the names added to it. -/
inductive Event.BreaksOff (mode : ScopeMode) (e : Event) :
    Option Label → List Atom → Fault → Prop where
  | owner {test : Kind → Bool} {ns : List Node} {f : Fault} (seeks : e.SeeksOwner mode test ns)
      (fails : nearest? test ns = .error f) : BreaksOff mode e none [] f
  | declarations {owner : Label} {f : Fault} (kind : e.kind = .variableDeclaration)
      (nearest : Nearest (if (e.node.get "kind").isText "var" then mode.isVarScope
        else Kind.isBlockScope) e.path owner)
      (fails : (e.node.get "declarations").elements = .error f) :
      BreaksOff mode e (some owner) [] f
  | declarator {owner : Label} {before after : List Tree} {d : Tree} {xss : List (List Atom)}
      {left : List Atom} {f : Fault} (kind : e.kind = .variableDeclaration)
      (nearest : Nearest (if (e.node.get "kind").isText "var" then mode.isVarScope
        else Kind.isBlockScope) e.path owner)
      (list : (e.node.get "declarations").elements = .ok (before ++ d :: after))
      (complete : List.Forall₂ Declares before xss) (broken : DeclaratorBreaksOff d left f) :
      BreaksOff mode e (some owner) (xss.flatten ++ left) f
  | parameters {f : Fault} (kind : e.kind = .anyFunction)
      (fails : (e.node.get "params").elements = .error f) :
      BreaksOff mode e (some e.node.label) [] f
  | parameter {before after : List Tree} {p : Tree} {xss : List (List Atom)} {left : List Atom}
      {f : Fault} (kind : e.kind = .anyFunction)
      (list : (e.node.get "params").elements = .ok (before ++ p :: after))
      (complete : List.Forall₂ Pattern.Yields before xss) (broken : Pattern.BreaksOff p left f) :
      BreaksOff mode e (some e.node.label) (xss.flatten ++ left) f
  | functionSelf {ps : List Tree} {xss : List (List Atom)} {f : Fault}
      (kind : e.kind = .anyFunction) (list : (e.node.get "params").elements = .ok ps)
      (complete : List.Forall₂ Pattern.Yields ps xss)
      (present : (e.node.get "id").truthy = true) (fails : (e.node.get "id").nameOf = .error f) :
      BreaksOff mode e (some e.node.label) xss.flatten f
  | named {owner : Label} {f : Fault} (names : e.NamesAt mode owner)
      (present : (e.node.get "id").truthy = true) (fails : (e.node.get "id").nameOf = .error f) :
      BreaksOff mode e (some owner) [] f
  | handler (kind : e.kind = .tryStatement) (present : (e.node.get "handler").truthy = true)
      (foreign : (e.node.get "handler").object? = none) : BreaksOff mode e none [] .notObject
  | caught {handler : Node} {left : List Atom} {f : Fault} (kind : e.kind = .tryStatement)
      (handles : (e.node.get "handler").object? = some handler)
      (present : (handler.get "param").truthy = true)
      (broken : Pattern.BreaksOff (handler.get "param") left f) :
      BreaksOff mode e (some handler.label) left f
  | imported {f : Fault} (kind : e.kind.isImportSpecifier = true)
      (fails : (e.node.tree.field "local").bind Tree.nameOf = .error f) :
      BreaksOff mode e (some e.root.label) [] f

namespace Binding

variable {f : Fault}

theorem ofExcept_of_eq_some {r : Except Fault Atom} {xs : List Atom}
    (h : Yield.ofExcept (r.map ([·])) = ⟨xs, some f⟩) : r = .error f ∧ xs = [] := by
  cases r with
  | error e =>
    cases h
    exact ⟨rfl, rfl⟩
  | ok x => cases h

theorem identifier_of_eq_some {t : Tree} {xs : List Atom}
    (h : (if t.truthy then .ofExcept (t.nameOf.map ([·])) else .empty) =
      (⟨xs, some f⟩ : Yield Atom)) : t.truthy = true ∧ t.nameOf = .error f ∧ xs = [] := by
  split at h
  · next present => exact ⟨present, ofExcept_of_eq_some h⟩
  · cases h

end Binding

namespace Event

variable {mode : ScopeMode} {e : Event} {owner : Label} {y z : Yield Entry}

/-- Where the entries of a report break off, what they record is what the report leaves. -/
def Leaves (mode : ScopeMode) (e : Event) (y : Yield Entry) : Prop :=
  ∀ f, y.fault = some f → ∃ opened names, e.BreaksOff mode opened names f ∧
    ∀ table : ScopeTable, y.items.foldl ScopeTable.enter table = table.record opened names

theorem leaves_of_owned (opens : y = .single (.scope owner) ++ z) (own : OwnedBy (· = owner) z)
    (breaks : ∀ names f, added y = ⟨names, some f⟩ → e.BreaksOff mode (some owner) names f) :
    e.Leaves mode y := by
  intro f h
  have adds : added y = ⟨(added z).items, some f⟩ := by
    rw [← h, opens, added_scope]
    rfl
  refine ⟨some owner, (added z).items, breaks _ _ adds, fun table => ?_⟩
  rw [opens]
  exact table.foldl_enter_eq_record own

theorem leaves_declarators (kind : e.kind = .variableDeclaration)
    (nearest : Nearest (if (e.node.get "kind").isText "var" then mode.isVarScope
      else Kind.isBlockScope) e.path owner) : e.Leaves mode (declarators e.node owner) := by
  refine leaves_of_owned rfl (.flatMap fun d => ?_) fun names f broken => ?_
  · unfold declarator
    split
    · exact .fail _
    · exact ownedBy_declarePattern (Q := (· = owner)) rfl _
  · rw [added_declarators, Yield.flatMap_ofExcept_eq_some] at broken
    rcases broken with ⟨fails, rfl⟩ | ⟨before, d, after, xss, left, list, complete, broken, rfl⟩
    · exact .declarations kind nearest fails
    · exact .declarator kind nearest list (complete.imp fun _ _ => declares_of_eq_ofList)
        (declaratorBreaksOff_of_eq_some broken)

theorem leaves_functionNames (kind : e.kind = .anyFunction) :
    e.Leaves mode (functionNames e.node) := by
  have opens : functionNames e.node = .single (.scope e.node.label) ++ (_ ++ _) :=
    Yield.append_assoc _ _ _
  refine leaves_of_owned opens (.append (.flatMap fun p => ?_) ?_) fun names f broken => ?_
  · exact ownedBy_declarePattern (Q := (· = e.node.label)) rfl p
  · exact ownedBy_declareIdentifier (Q := (· = e.node.label)) rfl _
  · rw [added_functionNames, Yield.append_eq_some, added_declareIdentifier] at broken
    rcases broken with broken | ⟨xs, ys, complete, broken, rfl⟩
    · rw [Yield.flatMap_ofExcept_eq_some] at broken
      rcases broken with ⟨fails, rfl⟩ | ⟨before, p, after, xss, left, list, complete, broken, rfl⟩
      · exact .parameters kind fails
      · exact .parameter kind list (complete.imp fun _ _ => Pattern.atoms_eq_ofList_iff.mp)
          (Pattern.atoms_eq_some_iff.mp broken)
    · obtain ⟨ps, list⟩ := Yield.fault_ofExcept.mp
        (Yield.fault_flatMap.mp (congrArg Yield.fault complete)).1
      rw [list, Yield.ofExcept, Yield.flatMap_ofList, Yield.collect_eq_ofList] at complete
      obtain ⟨xss, complete, rfl⟩ := complete
      obtain ⟨present, fails, rfl⟩ := identifier_of_eq_some broken
      rw [List.append_nil]
      exact .functionSelf kind list (complete.imp fun _ _ => Pattern.atoms_eq_ofList_iff.mp)
        present fails

theorem leaves_declareIdentifier (names : e.NamesAt mode owner) :
    e.Leaves mode (declareIdentifier owner (e.node.get "id")) := by
  unfold declareIdentifier
  split
  · next present =>
    refine leaves_of_owned rfl (.flatMap (ownedBy_declareName rfl)) fun xs f broken => ?_
    rw [added_scope, added_names] at broken
    obtain ⟨fails, rfl⟩ := ofExcept_of_eq_some broken
    exact .named names present fails
  · intro f h
    cases h

theorem leaves_catchNames (kind : e.kind = .tryStatement) :
    e.Leaves mode (catchNames e.node) := by
  unfold catchNames
  dsimp only
  split
  · next present =>
    split
    · next label fs handles =>
      have handler : (e.node.get "handler").object? = some ⟨label, fs⟩ := by rw [handles]; rfl
      split
      · next param =>
        refine leaves_of_owned rfl (.flatMap (ownedBy_declareName rfl)) fun xs f broken => ?_
        rw [added_declarePattern] at broken
        exact .caught kind handler param (Pattern.atoms_eq_some_iff.mp broken)
      · intro f h
        cases h
    · next foreign =>
      intro f h
      cases h
      refine ⟨none, [], .handler kind present ?_, fun _ => rfl⟩
      cases hh : e.node.get "handler" with
      | obj label fs => exact absurd hh (foreign label fs)
      | _ => rfl
  · intro f h
    cases h

theorem leaves_importName (kind : e.kind.isImportSpecifier = true) :
    e.Leaves mode (importName e.node e.root.label) := by
  refine leaves_of_owned rfl (.flatMap (ownedBy_declareName rfl)) fun xs f broken => ?_
  rw [added_importName] at broken
  obtain ⟨fails, rfl⟩ := ofExcept_of_eq_some broken
  exact .imported kind fails

theorem leaves_atNearest {test : Kind → Bool} {ns : List Node} {bind : Label → Yield Entry}
    (seeks : e.SeeksOwner mode test ns)
    (each : ∀ owner, Nearest test ns owner → e.Leaves mode (bind owner)) :
    e.Leaves mode (atNearest test ns bind) := by
  unfold atNearest
  cases hn : nearest? test ns with
  | error g =>
    intro f h
    obtain rfl := Option.some.inj h
    exact ⟨none, [], .owner seeks hn, fun _ => rfl⟩
  | ok found =>
    cases found with
    | none =>
      intro f h
      cases h
    | some n => exact each n.label ⟨n, find?_of_nearest? hn, rfl⟩

theorem leaves_entries (mode : ScopeMode) (e : Event) : e.Leaves mode (e.entries mode) := by
  unfold entries
  split
  case h_1 kind =>
    exact leaves_atNearest (.declaration kind) fun _ nearest => leaves_declarators kind nearest
  case h_2 kind =>
    exact leaves_atNearest (.function kind) fun _ nearest =>
      leaves_declareIdentifier (.function kind nearest)
  case h_3 kind => exact leaves_functionNames kind
  case h_4 kind =>
    exact leaves_atNearest (.class kind) fun _ nearest =>
      leaves_declareIdentifier (.classOuter kind nearest)
  case h_5 kind => exact leaves_declareIdentifier (.classSelf kind)
  case h_6 kind => exact leaves_catchNames kind
  case h_7 kind | h_8 kind | h_9 kind => exact leaves_importName (by rw [kind]; rfl)
  case h_10 =>
    intro f h
    cases h

end Event

/-- Where binding breaks off, the reports before are bound in full and the next one up to its fault;
nothing later leaves anything. -/
theorem bindScopes_breaksOff {t : Tree} {mode : ScopeMode} {table : ScopeTable} {f : Fault}
    (fails : (bindScopes t mode table).2 = some f) :
    ∃ done rest recorded, t.events.items = done ++ rest ∧
      (∀ e ∈ done, (e.entries mode).fault = none) ∧
      recorded = (done.flatMap fun e => (e.entries mode).items).foldl ScopeTable.enter table ∧
      (∀ owner x, recorded.declares owner x = true ↔ table.declares owner x = true ∨
        ∃ y, y.key = x.key ∧ ∃ e ∈ done, e.Binds mode owner y) ∧
      (rest = [] ∧ t.events.fault = some f ∧ (bindScopes t mode table).1 = recorded ∨
        ∃ e later opened names, rest = e :: later ∧ e.BreaksOff mode opened names f ∧
          (bindScopes t mode table).1 = recorded.record opened names ∧
          (∀ owner, owner ∈ (bindScopes t mode table).1.owners ↔
            owner ∈ recorded.owners ∨ opened = some owner) ∧
          ∀ owner x, (bindScopes t mode table).1.declares owner x = true ↔
            recorded.declares owner x = true ∨
              opened = some owner ∧ ∃ y ∈ names, y.key = x.key) := by
  have bound {done : List Event} (complete : ∀ e ∈ done, (e.entries mode).fault = none)
      (owner : Label) (x : Atom) :
      ((done.flatMap fun e => (e.entries mode).items).foldl ScopeTable.enter table).declares owner
        x = true ↔ table.declares owner x = true ∨
          ∃ y, y.key = x.key ∧ ∃ e ∈ done, e.Binds mode owner y := by
    rw [ScopeTable.declares_foldl_enter]
    refine or_congr_right (exists_congr fun y => ?_)
    rw [and_comm, List.mem_flatMap]
    refine and_congr_right fun _ => exists_congr fun e => and_congr_right fun he => ?_
    exact Event.mem_entries (complete e he)
  have entries : t.events.flatMap (Event.entries mode) = ⟨(t.entries mode).items, some f⟩ :=
    congrArg (Yield.mk _) fails
  rcases Yield.flatMap_eq_some.mp entries with ⟨done, e, later, ess, es, split, complete, broken,
    items⟩ | ⟨broken, ess, complete, items⟩
  all_goals
    obtain ⟨ends, rfl⟩ := Yield.forall₂_ofList_iff.mp complete
    rw [← List.flatMap_def] at items
  · obtain ⟨opened, names, breaks, records⟩ :=
      Event.leaves_entries mode e f (congrArg Yield.fault broken)
    rw [broken] at records
    have left : (bindScopes t mode table).1 = ((done.flatMap fun e =>
        (e.entries mode).items).foldl ScopeTable.enter table).record opened names := by
      rw [bindScopes, items, List.foldl_append, records]
    refine ⟨done, e :: later, _, split, ends, rfl, bound ends, .inr
      ⟨e, later, opened, names, rfl, breaks, left, fun owner => ?_, fun owner x => ?_⟩⟩
    · rw [left, ScopeTable.mem_owners_record]
    · rw [left, ScopeTable.declares_record]
  · exact ⟨_, [], _, (List.append_nil _).symm, ends, rfl, bound ends, .inl
      ⟨rfl, broken, by rw [bindScopes, items]⟩⟩

/-- The function `function f(a, { b, c: 1, d }, e) { }` -/
def literalParameter : Node :=
  ⟨8, [("type", .str "FunctionDeclaration"), ("id", .identifier 9 "f"),
    ("params", .arr 10 [.identifier 11 "a",
      .obj 12 [("type", .str "ObjectPattern"), ("properties", .arr 13 [
        .obj 14 [("type", .str "Property"), ("value", .identifier 15 "b")],
        .obj 16 [("type", .str "Property"), ("value", .obj 17 [("type", .str "Literal")])],
        .obj 18 [("type", .str "Property"), ("value", .identifier 19 "d")]])],
      .identifier 20 "e"]),
    ("body", .obj 21 [("type", .str "BlockStatement"), ("body", .arr 22 [])])]⟩

/-- The program `var z; function f(a, { b, c: 1, d }, e) { } var y;` -/
def literalParameterProgram : Node :=
  let declaration (l : Label) (name : String) : Tree :=
    .obj l [("type", .str "VariableDeclaration"), ("kind", .str "var"),
      ("declarations", .arr (l + 1) [.obj (l + 2) [("type", .str "VariableDeclarator"),
        ("id", .identifier (l + 3) name)]])]
  ⟨0, [("type", .str "Program"),
    ("body", .arr 1 [declaration 2 "z", literalParameter.tree, declaration 23 "y"])]⟩

/-- At the literal, `z` is bound in the program and `a` and `b` in the function, and `f` nowhere. -/
theorem bindScopes_breaksOff_literal : ∃ f,
    (bindScopes literalParameterProgram.tree ⟨false, false, false⟩ .empty).2 = some f ∧
    (bindScopes literalParameterProgram.tree ⟨false, false, false⟩ .empty).1.scopes =
      [⟨0, [.str "z"]⟩, ⟨8, [.str "a", .str "b"]⟩] ∧
    ∃ done e later opened names,
      literalParameterProgram.tree.events.items = done ++ e :: later ∧
      (∀ d ∈ done, (d.entries ⟨false, false, false⟩).fault = none) ∧
      e.BreaksOff ⟨false, false, false⟩ opened names f ∧
      (bindScopes literalParameterProgram.tree ⟨false, false, false⟩ .empty).1 =
        ((done.flatMap fun d => (d.entries ⟨false, false, false⟩).items).foldl
          ScopeTable.enter .empty).record opened names := by
  have failed : (bindScopes literalParameterProgram.tree ⟨false, false, false⟩
      .empty).2.isSome = true := by decide +kernel
  obtain ⟨f, fails⟩ := Option.isSome_iff_exists.mp failed
  refine ⟨f, fails, by decide +kernel, ?_⟩
  obtain ⟨done, rest, _, split, complete, rfl, -, ⟨-, broken, -⟩ | ⟨e, later, opened, names, rfl,
    breaks, left, -⟩⟩ := bindScopes_breaksOff fails
  · have ends : literalParameterProgram.tree.events.fault = none :=
      Option.isNone_iff_eq_none.mp (by decide +kernel)
    rw [ends] at broken
    cases broken
  · exact ⟨done, e, later, opened, names, split, complete, breaks, left⟩

end LexicalScope
