import LexicalScope.Proofs.FaultSort
import LexicalScope.Proofs.Globals
import LexicalScope.Proofs.Vocabulary.Basic

/-! # Faults of an analysis

An analysis of a tree breaks off only where the tree is malformed, or where something stands that is
no pattern. It never finds that the input is no program, or that a text cannot be parsed.
-/

namespace LexicalScope

/-- A fault that lies in a part of a tree. -/
def Fault.OfTree : Fault → Prop
  | notObject | missingField _ | notIndexable | notIterable | notHashable | notComparable
  | unsupportedPattern _ => True
  | _ => False

theorem ErrorsIn.outcome_bind {α β : Type} {P : Fault → Prop} {r : Run α} {g : α → Run β}
    (h : ErrorsIn P r.outcome) (hg : ∀ a, ErrorsIn P (g a).outcome) :
    ErrorsIn P (r >>= g).outcome := by
  cases hr : r.outcome with
  | ok a =>
    rw [Run.outcome_bind_of_ok hr]
    exact hg a
  | error e =>
    rw [Run.outcome_bind_of_error hr]
    exact errorsIn_error (h e hr)

/-! ## Reading a tree -/

namespace Tree

variable (t : Tree) (key : String)

theorem errorsIn_get? : ErrorsIn Fault.OfTree (t.get? key) := by
  cases t with
  | obj l fs => exact errorsIn_ok _
  | _ => exact errorsIn_error trivial

theorem errorsIn_field : ErrorsIn Fault.OfTree (t.field key) := by
  unfold field
  split
  · split
    · exact errorsIn_ok _
    · exact errorsIn_error trivial
  · exact errorsIn_error trivial

theorem errorsIn_elements : ErrorsIn Fault.OfTree t.elements := by
  unfold elements
  split
  · split
    · exact errorsIn_ok _
    · exact errorsIn_ok _
    · exact errorsIn_ok _
    · exact errorsIn_error trivial
  · exact errorsIn_ok _

theorem errorsIn_asName : ErrorsIn Fault.OfTree t.asName := by
  cases t with
  | atom a => exact errorsIn_ok _
  | _ => exact errorsIn_error trivial

theorem errorsIn_position : ErrorsIn Fault.OfTree t.position := by
  refine (t.errorsIn_get? "loc").bind fun location => .ite (errorsIn_ok _) ?_
  refine (location.errorsIn_get? "start").bind fun start => .ite (errorsIn_ok _) ?_
  exact (start.errorsIn_get? "line").bind fun line =>
    (start.errorsIn_get? "column").bind fun column => errorsIn_ok _

theorem ofTree_unsupported : t.unsupported.OfTree := by
  unfold unsupported
  split
  · trivial
  · next e h =>
    unfold positionSuffix at h
    split at h
    · exact (errorsIn_position _).map _ e h
    · cases h

theorem failsWith_elements : (Yield.ofExcept t.elements).FailsWith Fault.OfTree :=
  .ofExcept t.errorsIn_elements

end Tree

namespace Pattern

theorem failsWith_entryTarget (entry : Tree) : (entryTarget entry).FailsWith Fault.OfTree :=
  .ofExcept <| (entry.errorsIn_get? "value").bind fun _ =>
    .ite (errorsIn_ok _) ((entry.errorsIn_get? "argument").bind fun _ => errorsIn_ok _)

theorem failsWith_parts {t : Tree} {ps : Yield Tree} (h : parts? t = some ps) :
    ps.FailsWith Fault.OfTree := by
  unfold parts? at h
  cases hn : t.object? with
  | none => simp [hn] at h
  | some n =>
    simp only [hn, Option.bind_eq_bind, Option.bind_some] at h
    split at h <;> cases h
    · exact (Tree.failsWith_elements _).flatMap fun entry _ => failsWith_entryTarget entry
    · exact .ofExcept ((Tree.errorsIn_elements _).map _)
    · exact .of_fault_eq_none rfl
    · exact .of_fault_eq_none rfl

theorem failsWith_names (t : Tree) : (names t).FailsWith Fault.OfTree := by
  induction hk : t.height using Nat.strongRecOn generalizing t with
  | ind k ih =>
    cases hi : isIdentifier t with
    | true =>
      rw [names_of_isIdentifier hi]
      exact .ofExcept ((t.errorsIn_field "name").map _)
    | false =>
      cases hp : parts? t with
      | none =>
        rw [names_of_unsupported hi hp]
        exact .fail t.ofTree_unsupported
      | some ps =>
        rw [names_of_parts hi hp]
        refine (failsWith_parts hp).flatMap fun u hu => ?_
        exact ih u.height (hk ▸ height_of_mem_parts hp hu) u rfl

end Pattern

/-! ## Walking a tree -/

namespace Node

variable (n : Node) (key : String)

theorem failsWith_computedKey : (n.computedKey key).FailsWith Fault.OfTree :=
  .of_fault_eq_none (n.fault_computedKey key)

theorem failsWith_plains : (n.plains key).FailsWith Fault.OfTree := (n.get key).failsWith_elements

theorem failsWith_targets : (n.targets key).FailsWith Fault.OfTree := (n.get key).failsWith_elements

theorem failsWith_properties : ((Yield.ofExcept (n.get key).elements).flatMap
    propertySlots).FailsWith Fault.OfTree :=
  (n.get key).failsWith_elements.flatMap fun entry _ =>
    .of_fault_eq_none (fault_propertySlots entry)

theorem failsWith_slots : n.slots.FailsWith Fault.OfTree := by
  unfold slots
  split
  all_goals
    repeat' with_reducible apply Yield.FailsWith.append
  all_goals
    first
    | exact .of_fault_eq_none rfl
    | simp only [failsWith_computedKey, failsWith_plains, failsWith_targets, failsWith_properties]

end Node

theorem failsWith_walk (outer : List Node) (s : Slot) : (walk outer s).FailsWith Fault.OfTree := by
  induction s using slot_induction generalizing outer with
  | step s ih =>
    cases hn : s.value.node? with
    | none =>
      rw [walk_of_node?_eq_none hn]
      exact .of_fault_eq_none rfl
    | some n =>
      rw [walk_of_node?_eq_some hn]
      refine .append (n.failsWith_slots.flatMap fun c hc => ih n hn c hc _) ?_
      unfold Node.events
      split
      · exact .fail trivial
      · exact .of_fault_eq_none rfl

/-! ## Binding and classifying -/

namespace Binding

variable (owner : Label)

theorem failsWith_declareName (t : Tree) : (declareName owner t).FailsWith Fault.OfTree :=
  .ofExcept (t.errorsIn_asName.map _)

theorem failsWith_declarePattern (pattern : Tree) :
    (declarePattern owner pattern).FailsWith Fault.OfTree :=
  .append (.of_fault_eq_none rfl) <|
    (Pattern.failsWith_names pattern).flatMap fun t _ => failsWith_declareName owner t

theorem failsWith_declareIdentifier (t : Tree) :
    (declareIdentifier owner t).FailsWith Fault.OfTree := by
  unfold declareIdentifier
  split
  · refine .append (.of_fault_eq_none rfl) (.flatMap (.ofExcept ?_) fun t _ => ?_)
    · exact (t.errorsIn_field "name").map _
    · exact failsWith_declareName owner t
  · exact .of_fault_eq_none rfl

theorem failsWith_declarators (n : Node) : (declarators n owner).FailsWith Fault.OfTree := by
  refine .append (.of_fault_eq_none rfl) ((Tree.failsWith_elements _).flatMap fun t _ => ?_)
  unfold declarator
  split
  · next e h => exact .fail (t.errorsIn_field "id" e h)
  · exact failsWith_declarePattern owner _

theorem failsWith_functionNames (n : Node) : (functionNames n).FailsWith Fault.OfTree := by
  refine .append (.append (.of_fault_eq_none rfl) ?_) (failsWith_declareIdentifier _ _)
  exact (Tree.failsWith_elements _).flatMap fun t _ => failsWith_declarePattern _ t

theorem failsWith_catchNames (n : Node) : (catchNames n).FailsWith Fault.OfTree := by
  unfold catchNames
  dsimp only
  split
  · split
    · split
      · exact failsWith_declarePattern _ _
      · exact .of_fault_eq_none rfl
    · exact .fail trivial
  · exact .of_fault_eq_none rfl

theorem failsWith_importName (n : Node) : (importName n owner).FailsWith Fault.OfTree := by
  refine .append (.of_fault_eq_none rfl) (.flatMap (.ofExcept ?_) fun t _ => ?_)
  · exact (n.tree.errorsIn_field "local").bind fun identifier =>
      (identifier.errorsIn_field "name").bind fun _ => errorsIn_ok _
  · exact failsWith_declareName owner t

theorem failsWith_atNearest (test : Kind → Bool) (nodes : List Node) {bind : Label → Yield Entry}
    (h : ∀ l, (bind l).FailsWith Fault.OfTree) :
    (atNearest test nodes bind).FailsWith Fault.OfTree := by
  have search : ErrorsIn Fault.OfTree (nearest? test nodes) := by
    induction nodes with
    | nil => exact errorsIn_ok _
    | cons n ns ih => exact .ite (errorsIn_error trivial) (.ite (errorsIn_ok _) ih)
  unfold atNearest
  split
  · next e he => exact .fail (search e he)
  · exact .of_fault_eq_none rfl
  · exact h _

end Binding

namespace Event

open Binding

variable (e : Event)

theorem failsWith_entries (mode : ScopeMode) : (e.entries mode).FailsWith Fault.OfTree := by
  unfold entries
  split
  · exact failsWith_atNearest _ _ fun l => failsWith_declarators l _
  · exact failsWith_atNearest _ _ fun l => failsWith_declareIdentifier l _
  · exact failsWith_functionNames _
  · exact failsWith_atNearest _ _ fun l => failsWith_declareIdentifier l _
  · exact failsWith_declareIdentifier _ _
  · exact failsWith_catchNames _
  · exact failsWith_importName _ _
  · exact failsWith_importName _ _
  · exact failsWith_importName _ _
  · exact .of_fault_eq_none rfl

theorem failsWith_freeIdentifier (table : ScopeTable) :
    (e.freeIdentifier table).FailsWith Fault.OfTree := by
  have captures (name : Tree) : ErrorsIn Fault.OfTree (table.captures e.chain name) := by
    cases name with
    | atom a => exact errorsIn_ok _
    | _ => exact .ite (errorsIn_error trivial) (errorsIn_ok _)
  exact .ofExcept <| (e.node.tree.errorsIn_field "name").bind fun name =>
    (captures name).bind fun _ => .ite (errorsIn_ok _) (errorsIn_ok _)

theorem errorsIn_insideDeclarator (ns : List Node) :
    ErrorsIn Fault.OfTree (insideDeclarator ns) := by
  induction ns with
  | nil => exact errorsIn_ok _
  | cons n ns ih => exact .ite (errorsIn_error trivial) (.ite ih (errorsIn_ok _))

theorem errorsIn_bindsThis (ns : List Node) : ErrorsIn Fault.OfTree (bindsThis ns) := by
  induction ns with
  | nil => exact errorsIn_ok _
  | cons n ns ih =>
    exact .ite (errorsIn_error trivial) (.ite (errorsIn_ok _) (.ite (errorsIn_ok _) ih))

theorem failsWith_free (table : ScopeTable) : (e.free table).FailsWith Fault.OfTree := by
  unfold free
  split
  · exact e.failsWith_freeIdentifier table
  · split
    · next f h => exact .fail (errorsIn_insideDeclarator _ f h)
    · exact .of_fault_eq_none rfl
    · exact e.failsWith_freeIdentifier table
  · exact .ofExcept <| (errorsIn_bindsThis _).bind fun _ => .ite (errorsIn_ok _) (errorsIn_ok _)
  · exact .of_fault_eq_none rfl

end Event

namespace Tree

variable (t : Tree)

theorem failsWith_entries (mode : ScopeMode) : (t.entries mode).FailsWith Fault.OfTree :=
  (failsWith_walk [] _).flatMap fun e _ => e.failsWith_entries mode

theorem errorsIn_freeReferences (table : ScopeTable) :
    ErrorsIn Fault.OfTree (freeReferences t table) :=
  ((failsWith_walk [] _).flatMap fun e _ => e.failsWith_free table).toExcept

end Tree

theorem errorsIn_groupReferences (rs : List FreeReference) :
    ErrorsIn Fault.OfTree (groupReferences rs) := by
  have add (gs : List FreeVariable) :
      ErrorsIn Fault.OfTree (Grouping.addAll FreeReference.name gs rs) := by
    induction rs generalizing gs with
    | nil => exact errorsIn_ok _
    | cons r rs ih => exact r.name.errorsIn_asName.bind fun x => ih _
  exact (add []).bind fun gs => .ite (errorsIn_ok _) (errorsIn_error trivial)

theorem errorsIn_resolveMode (t : Tree) (hostEmbedded : Bool) :
    ErrorsIn Fault.OfTree (resolveMode t hostEmbedded) := by
  have prologue (vs : List Tree) : ErrorsIn Fault.OfTree (prologueIsStrict vs) := by
    induction vs with
    | nil => exact errorsIn_ok _
    | cons v vs ih =>
      refine (v.errorsIn_get? "type").bind fun _ => .ite (errorsIn_ok _) ?_
      exact (v.errorsIn_get? "directive").bind fun _ =>
        .ite (errorsIn_ok _) (.ite (errorsIn_ok _) ih)
  refine (t.errorsIn_get? "sourceType").bind fun _ => (t.errorsIn_get? "body").bind fun body => ?_
  exact body.errorsIn_elements.bind fun vs => (prologue vs).bind fun _ => errorsIn_ok _

/-- What breaks an analysis of a tree off lies in a part of the tree. -/
theorem errorsIn_globalsOf (t : Tree) (hostEmbedded : Bool) :
    ErrorsIn Fault.OfTree (globalsOf t hostEmbedded).outcome := by
  have resolve : ErrorsIn Fault.OfTree (Run.resolve t hostEmbedded).outcome :=
    .outcome_bind (errorsIn_resolveMode t hostEmbedded) fun _ => errorsIn_ok _
  have bindNew (mode : ScopeMode) : ErrorsIn Fault.OfTree (Run.bindNew t mode).outcome := by
    unfold Run.bindNew
    split
    · next f h =>
      have broken : (t.entries mode).fault = some f := congrArg Prod.snd h
      exact errorsIn_error (t.failsWith_entries mode f broken)
    · exact errorsIn_ok _
  have classify (table : ScopeTable) : ErrorsIn Fault.OfTree (Run.classify t table).outcome :=
    .outcome_bind (t.errorsIn_freeReferences table) fun _ => errorsIn_ok _
  exact .outcome_bind resolve fun mode => .outcome_bind (bindNew mode) fun table =>
    .outcome_bind (classify table) fun rs => errorsIn_groupReferences rs

end LexicalScope
