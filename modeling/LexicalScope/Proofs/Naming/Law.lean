import Mathlib.Logic.Equiv.Basic
import LexicalScope.Proofs.Naming.Binding

/-! # What is free under other names

A name is bound around the image of a node exactly if the name it is the image of is bound around
the node. So names are opaque to an analysis: one of a tree with other names gives the same scopes
and the same references, under the images of their names.
-/

namespace LexicalScope

variable {φ : NameMap}

namespace ScopeTable

variable (table : ScopeTable)

theorem binds_mapNames (x : Atom) (n : Node) :
    (table.mapNames φ).binds (φ.atom x) (n.mapNames φ) = table.binds x n := by
  have arguments : φ.atom x = .str "arguments" ↔ x = .str "arguments" :=
    NameMap.atom_eq_str_iff φ.arguments
  simp only [binds, arguments, Node.kind_mapNames, Node.label_mapNames, declares_mapNames]

theorem captures_mapNames (ns : List Node) (v : Tree) :
    (table.mapNames φ).captures (ns.map (Node.mapNames φ)) (φ.member "name" v) =
      (table.captures ns v).mapError (Fault.mapNames φ) := by
  have scopes : (ns.map (Node.mapNames φ)).any (fun n => ((table.mapNames φ).get? n.label).isSome) =
      ns.any fun n => (table.get? n.label).isSome := by
    rw [List.any_map]
    simp only [Function.comp_def, Node.label_mapNames, get?_mapNames, Option.isSome_map]
  cases v with
  | atom a =>
    have undefined : φ.atom a = .str "undefined" ↔ a = .str "undefined" :=
      NameMap.atom_eq_str_iff φ.undefined
    have image : φ.member "name" (.atom a) = .atom (φ.atom a) := rfl
    rw [image, captures, captures, List.any_map]
    simp only [undefined, Function.comp_def, binds_mapNames]
    rfl
  | arr l vs =>
    rw [Tree.member_arr]
    simp only [captures, scopes]
    split <;> rfl
  | obj l fs =>
    rw [Tree.member_obj]
    simp only [captures, scopes]
    split <;> rfl

end ScopeTable

theorem insideDeclarator_mapNames (ns : List Node) :
    insideDeclarator (ns.map (Node.mapNames φ)) =
      (insideDeclarator ns).mapError (Fault.mapNames φ) := by
  induction ns with
  | nil => rfl
  | cons n ns ih =>
    rw [List.map_cons, insideDeclarator, insideDeclarator, Node.kind_mapNames, ih]
    split
    · rfl
    · split <;> rfl

theorem bindsThis_mapNames (ns : List Node) : bindsThis (ns.map (Node.mapNames φ)) =
    (bindsThis ns).mapError (Fault.mapNames φ) := by
  rw [bindsThis_alike (Node.forall₂_alike_mapNames ns)]
  induction ns with
  | nil => rfl
  | cons n ns ih =>
    rw [bindsThis]
    split
    · rfl
    · split
      · rfl
      · split
        · rfl
        · exact ih

/-- The same occurrence of the image of a name. The name of `this` stays. -/
def FreeReference.mapNames (φ : NameMap) (r : FreeReference) : FreeReference where
  name := if r.isThis then r.name else φ.member "name" r.name
  node := r.node.mapNames φ
  chain := r.chain.map (Tree.mapNames φ)

namespace Event

variable {t : Tree} {e : Event} {table : ScopeTable}

theorem chain_mapNames : (e.mapNames φ).chain = e.chain.map (Node.mapNames φ) := by
  rw [chain, chain, List.map_reverse, List.map_cons]
  rfl

theorem occurrence_mapNames (φ : NameMap) (he : e ∈ t.events.items) (name : Tree) :
    (e.occurrence name).mapNames φ = (e.mapNames φ).occurrence
      (if e.kind = .thisExpression then name else φ.member "name" name) := by
  have this : (e.occurrence name).isThis = decide (e.kind = .thisExpression) :=
    isThis_reference (s := ⟨t, false⟩) he
  rw [FreeReference.mapNames, this]
  simp only [occurrence, chain_mapNames, List.map_map, Function.comp_def, Node.tree_mapNames,
    node_mapNames, decide_eq_true_eq]

theorem freeIdentifier_mapNames (he : e ∈ t.events.items) (hk : e.kind ≠ .thisExpression) :
    (e.mapNames φ).freeIdentifier (table.mapNames φ) =
      (e.freeIdentifier table).bimap (FreeReference.mapNames φ) (Fault.mapNames φ) := by
  unfold freeIdentifier
  rw [node_mapNames, Node.tree_mapNames, Tree.field_mapNames, chain_mapNames,
    ← Yield.ofExcept_bimap]
  congr 1
  cases e.node.tree.field "name" with
  | error fault => rfl
  | ok v =>
    have image := occurrence_mapNames φ he v
    rw [if_neg hk] at image
    simp only [bind, Except.bind, Except.map, Except.mapError, ScopeTable.captures_mapNames]
    cases table.captures e.chain v with
    | error fault => rfl
    | ok bound =>
      cases bound with
      | true => rfl
      | false =>
        rw [← image]
        rfl

theorem freeThis_mapNames (he : e ∈ t.events.items) (hk : e.kind = .thisExpression) :
    (e.mapNames φ).freeThis = e.freeThis.bimap (FreeReference.mapNames φ) (Fault.mapNames φ) := by
  unfold freeThis
  rw [chain_mapNames, bindsThis_mapNames, ← Yield.ofExcept_bimap]
  congr 1
  cases bindsThis e.chain with
  | error fault => rfl
  | ok bound =>
    have image := occurrence_mapNames φ he (.str "this")
    rw [if_pos hk] at image
    cases bound with
    | true => rfl
    | false =>
      rw [← image]
      rfl

theorem free_mapNames (he : e ∈ t.events.items) : (e.mapNames φ).free (table.mapNames φ) =
    (e.free table).bimap (FreeReference.mapNames φ) (Fault.mapNames φ) := by
  unfold free
  rw [kind_mapNames, outer_mapNames, insideDeclarator_mapNames]
  split
  · next hk => exact freeIdentifier_mapNames he (by simp [hk])
  · next hk =>
    cases insideDeclarator e.outer with
    | error fault => rfl
    | ok inside =>
      cases inside with
      | true => rfl
      | false => exact freeIdentifier_mapNames he (by simp [hk])
  · next hk => exact freeThis_mapNames he hk
  · rfl

end Event

theorem freeReferences_mapNames (t : Tree) (table : ScopeTable) :
    freeReferences (t.mapNames φ) (table.mapNames φ) =
      ((freeReferences t table).map (List.map (FreeReference.mapNames φ))).mapError
        (Fault.mapNames φ) := by
  rw [freeReferences, freeReferences, t.events_mapNames,
    Yield.flatMap_bimap fun e he => Event.free_mapNames he, Yield.toExcept_bimap]

def NameMap.exchange (a b : String) (ha : a ≠ "undefined" ∧ a ≠ "arguments")
    (hb : b ≠ "undefined" ∧ b ≠ "arguments") : NameMap where
  text := Equiv.swap a b
  injective := (Equiv.swap a b).injective
  undefined := Equiv.swap_apply_of_ne_of_ne ha.1.symm hb.1.symm
  arguments := Equiv.swap_apply_of_ne_of_ne ha.2.symm hb.2.symm

/-- Where names are exchanged for others throughout a tree, scopes, references and faults are the
same but for the names. -/
theorem analysis_mapNames (φ : NameMap) (t : Tree) (mode : ScopeMode) (table : ScopeTable) :
    bindScopes (t.mapNames φ) mode (table.mapNames φ) =
      ((bindScopes t mode table).1.mapNames φ,
        (bindScopes t mode table).2.map (Fault.mapNames φ)) ∧
    freeReferences (t.mapNames φ) ((bindScopes t mode table).1.mapNames φ) =
      ((freeReferences t (bindScopes t mode table).1).map
        (List.map (FreeReference.mapNames φ))).mapError (Fault.mapNames φ) :=
  ⟨bindScopes_mapNames t mode table, freeReferences_mapNames t _⟩

/-- In `p => [p, x]` only `x` is free, so in `x => [x, p]` only `p` is. -/
theorem analysis_mapNames_exchange : ∃ (φ : NameMap) (table : ScopeTable) (rs : List FreeReference),
    bindScopes arrowProgram.tree ⟨false, false, false⟩ .empty = (table, none) ∧
    freeReferences arrowProgram.tree table = .ok rs ∧
    rs.map (fun r => r.name.isText "x") = [true] ∧
    bindScopes (arrowProgram.tree.mapNames φ) ⟨false, false, false⟩ .empty =
      (table.mapNames φ, none) ∧
    freeReferences (arrowProgram.tree.mapNames φ) (table.mapNames φ) =
      .ok (rs.map (FreeReference.mapNames φ)) ∧
    (rs.map (FreeReference.mapNames φ)).map (fun r => r.name.isText "p") = [true] := by
  let φ : NameMap := .exchange "p" "x" (by decide) (by decide)
  let bound := bindScopes arrowProgram.tree ⟨false, false, false⟩ .empty
  have ends : bound.2 = none := by decide +kernel
  obtain ⟨rs, classified, one⟩ : ∃ rs, freeReferences arrowProgram.tree bound.1 = .ok rs ∧
      rs.map (fun r => (r.name.isText "x", (r.mapNames φ).name.isText "p")) = [(true, true)] :=
    exists_ok_of_map (by decide +kernel)
  obtain ⟨scopes, references⟩ :=
    analysis_mapNames φ arrowProgram.tree ⟨false, false, false⟩ .empty
  rw [ScopeTable.mapNames_empty] at scopes
  have reported := congrArg (List.map Prod.fst) one
  have renamed := congrArg (List.map Prod.snd) one
  rw [List.map_map] at reported renamed
  refine ⟨φ, bound.1, rs, Prod.ext rfl ends, classified, reported, ?_, ?_, ?_⟩
  · exact scopes.trans (Prod.ext rfl (congrArg (Option.map (Fault.mapNames φ)) ends))
  · exact references.trans (by rw [classified]; rfl)
  · rw [List.map_map]
    exact renamed

end LexicalScope
