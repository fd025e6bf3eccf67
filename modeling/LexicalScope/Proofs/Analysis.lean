import LexicalScope.Proofs.Binding.Exactness
import LexicalScope.Proofs.Globals
import LexicalScope.Proofs.Reference.Alike
import LexicalScope.Proofs.Reference.Group
import LexicalScope.Proofs.Vocabulary.Success

/-! # Analyses

An analysis of a program holds its mode, the table that binding leaves and the free references in
the order of the walk. The globals of a program are the groups of the free references of its
analysis, and where names are texts, grouping cannot fail.
-/

namespace LexicalScope

/-- What is found of a program, up to the grouping of its free references. -/
structure Analysis (t : Tree) (hostEmbedded : Bool) where
  mode : ScopeMode
  table : ScopeTable
  free : List FreeReference
  resolved : resolveMode t hostEmbedded = .ok mode
  bound : bindScopes t mode .empty = (table, none)
  classified : freeReferences t table = .ok free

/-- What a node has for its name, if anything, is a text. -/
def Node.TextName (n : Node) : Prop := ∀ v, n.tree.field "name" = .ok v → ∃ s, v = .str s

instance (n : Node) : Decidable n.TextName :=
  match h : n.tree.field "name" with
  | .ok (.atom (.str s)) => isTrue fun _ hv => ⟨s, (Except.ok.inj (h.symm.trans hv)).symm⟩
  | .ok (.atom .null) | .ok (.atom (.bool _)) | .ok (.atom (.number _)) | .ok (.arr _ _)
  | .ok (.obj _ _) => isFalse fun names => by
      obtain ⟨s, hs⟩ := names _ h
      cases hs
  | .error _ => isTrue fun _ hv => by
      rw [h] at hv
      cases hv

/-- Every node that the walk meets has a text for its name, if it has one. -/
def Tree.TextNames (t : Tree) : Prop := ∀ e ∈ t.events.items, e.node.TextName

instance (t : Tree) : Decidable t.TextNames :=
  inferInstanceAs (Decidable (∀ e ∈ t.events.items, e.node.TextName))

def Tree.isModule (t : Tree) : Bool := t.object?.any fun n => (n.get "sourceType").isText "module"

/-- The mode of a program depends on its statements through their directives only. -/
theorem resolveMode_of_body {t : Tree} {l : Label} {vs : List Tree} {hostEmbedded : Bool}
    (body : t.get? "body" = .ok (.arr l vs)) :
    resolveMode t hostEmbedded = (prologueIsStrict vs).map fun strict =>
      ⟨t.isModule, strict, hostEmbedded⟩ := by
  cases t with
  | obj m fs =>
    have source : (Tree.obj m fs).get? "sourceType" = .ok (Node.get ⟨m, fs⟩ "sourceType") := rfl
    simp only [resolveMode, source, body, Tree.elements_arr, bind, Except.bind]
    cases prologueIsStrict vs <;> rfl
  | _ => cases body

theorem resolveMode_eq_ok {t : Tree} {hostEmbedded : Bool} {mode : ScopeMode}
    (h : resolveMode t hostEmbedded = .ok mode) :
    mode.inModule = t.isModule ∧ mode.hostEmbedded = hostEmbedded ∧
      ∀ b, resolveMode t b = .ok { mode with hostEmbedded := b } := by
  unfold resolveMode at h ⊢
  cases t with
  | obj l fs =>
    simp only [Tree.get?, bind, Except.bind] at h ⊢
    cases hv : (Node.get ⟨l, fs⟩ "body").elements with
    | error e => simp [hv] at h
    | ok vs =>
      simp only [hv] at h ⊢
      cases hs : prologueIsStrict vs with
      | error e => simp [hs] at h
      | ok strict =>
        simp only [hs, pure, Except.pure] at h ⊢
        obtain rfl := Except.ok.inj h
        exact ⟨rfl, rfl, fun _ => rfl⟩
  | _ => cases h

theorem hoistsToProgram_of_resolveMode {t : Tree} {hostEmbedded : Bool} {mode : ScopeMode}
    (h : resolveMode t hostEmbedded = .ok mode) :
    mode.hoistsToProgram = (t.isModule || !hostEmbedded) := by
  obtain ⟨inModule, embedded, -⟩ := resolveMode_eq_ok h
  rw [ScopeMode.hoistsToProgram, inModule, embedded]

namespace Analysis

variable {t : Tree} {hostEmbedded : Bool} {e : Event} {r : FreeReference} {gs : List FreeVariable}

/-- The globals of a tree are the groups of the free references of its analysis. -/
theorem outcome_findGlobals {parser : Parser} {options : GlobalsOptions} :
    (findGlobals parser (.value t) options).outcome = .ok gs ↔
      t.isProgram = true ∧
        ∃ a : Analysis t options.hostEmbedded, groupReferences a.free = .ok gs := by
  rw [outcome_findGlobals_value, outcome_globalsOf]
  refine and_congr_right fun _ => ?_
  constructor
  · rintro ⟨mode, table, rs, hm, hb, hc, hg⟩
    exact ⟨⟨mode, table, rs, hm, hb, hc⟩, hg⟩
  · rintro ⟨a, hg⟩
    exact ⟨a.mode, a.table, a.free, a.resolved, a.bound, a.classified, hg⟩

theorem exists_of_stages {mode : ScopeMode} (resolved : resolveMode t hostEmbedded = .ok mode)
    (bound : (t.entries mode).fault = none)
    (classified : ∀ e ∈ t.events.items,
      (e.free ((t.entries mode).items.foldl ScopeTable.enter .empty)).fault = none) :
    ∃ a : Analysis t hostEmbedded, a.mode = mode :=
  ⟨⟨mode, _, _, resolved, Prod.ext rfl bound, Yield.toExcept_eq_ok.mpr
    ⟨Yield.fault_flatMap.mpr ⟨(Yield.fault_flatMap.mp bound).1, classified⟩, rfl⟩⟩, rfl⟩

theorem fault_entries (a : Analysis t hostEmbedded) : (t.entries a.mode).fault = none :=
  (Prod.mk.inj a.bound).2

theorem table_eq (a : Analysis t hostEmbedded) :
    a.table = (t.entries a.mode).items.foldl ScopeTable.enter .empty :=
  (Prod.mk.inj a.bound).1.symm

theorem fault_events (a : Analysis t hostEmbedded) : t.events.fault = none :=
  (Yield.fault_flatMap.mp a.fault_entries).1

theorem fault_free (a : Analysis t hostEmbedded) (he : e ∈ t.events.items) :
    (e.free a.table).fault = none :=
  (Yield.fault_flatMap.mp (Yield.toExcept_eq_ok.mp a.classified).1).2 e he

theorem hostEmbedded_mode (a : Analysis t hostEmbedded) : a.mode.hostEmbedded = hostEmbedded :=
  (resolveMode_eq_ok a.resolved).2.1

theorem inModule_mode (a : Analysis t hostEmbedded) : a.mode.inModule = t.isModule :=
  (resolveMode_eq_ok a.resolved).1

theorem mem_free (a : Analysis t hostEmbedded) :
    r ∈ a.free ↔ ∃ e ∈ t.events.items, e.IsFree a.table ∧ e.reference = r := by
  classical
  rw [eq_of_freeReferences a.classified]
  simp only [List.mem_map, List.mem_filter, decide_eq_true_eq, and_assoc]

theorem text_of_isFree (a : Analysis t hostEmbedded) (names : t.TextNames)
    (he : e ∈ t.events.items) (hf : e.IsFree a.table) (hk : e.kind ≠ .thisExpression) :
    ∃ s, e.node.get "name" = .str s := by
  rcases hf with ⟨hi, -⟩ | ⟨hk', -⟩
  · obtain ⟨v, hv⟩ := Event.exists_field_of_isReference hi (a.fault_free he)
    obtain ⟨s, rfl⟩ := names e he v hv
    exact ⟨s, Tree.get_of_field hv⟩
  · exact absurd hk' hk

theorem text_of_mem_free (a : Analysis t hostEmbedded) (names : t.TextNames) (hr : r ∈ a.free) :
    ∃ s, r.name = .str s := by
  obtain ⟨e, he, hf, rfl⟩ := a.mem_free.mp hr
  unfold Event.reference Event.occurrence
  by_cases hk : e.kind = .thisExpression
  · exact ⟨"this", by rw [if_pos hk]⟩
  · obtain ⟨s, hs⟩ := a.text_of_isFree names he hf hk
    exact ⟨s, by rw [if_neg hk, hs]⟩

theorem exists_group (a : Analysis t hostEmbedded) (names : t.TextNames) :
    ∃ gs, groupReferences a.free = .ok gs :=
  groupReferences_ok fun _ hr => a.text_of_mem_free names hr

theorem exists_of_named {mode : ScopeMode} (resolved : resolveMode t hostEmbedded = .ok mode)
    (bound : (t.entries mode).fault = none)
    (named : ∀ e ∈ t.events.items, e.kind = .identifier ∨ e.kind = .variablePattern →
      ∃ s, e.node.get "name" = .str s) :
    ∃ (a : Analysis t hostEmbedded) (gs : List FreeVariable), a.mode = mode ∧
      groupReferences a.free = .ok gs ∧ ∀ r ∈ a.free, ∃ s, r.name = .str s := by
  have ends : t.events.fault = none := (Yield.fault_flatMap.mp bound).1
  obtain ⟨a, hm⟩ := exists_of_stages resolved bound fun e he => by
    have typed : ∀ m ∈ e.path, m.kind ≠ .compound := (Visits.of_mem_walk he).kind_ne_compound ends
    exact Event.fault_free_of_named typed (named e he)
  have texts : ∀ r ∈ a.free, ∃ s, r.name = .str s := by
    intro r hr
    obtain ⟨e, he, free, rfl⟩ := a.mem_free.mp hr
    rcases free with ⟨reference, -⟩ | ⟨hk, -⟩
    · obtain ⟨s, hs⟩ := named e he (reference.imp id And.left)
      exact ⟨s, by rw [Event.reference, if_neg reference.ne_this]; exact hs⟩
    · exact ⟨"this", by rw [Event.reference, if_pos hk]; rfl⟩
  obtain ⟨gs, group⟩ := groupReferences_ok texts
  exact ⟨a, gs, hm, group, texts⟩

end Analysis

end LexicalScope
