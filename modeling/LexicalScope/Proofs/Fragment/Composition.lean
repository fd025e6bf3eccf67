import LexicalScope.Proofs.Fragment.Binding
import LexicalScope.Proofs.Fragment.Capture
import LexicalScope.Proofs.Resolution.Agreement

/-! # Fragments in their context

Analyzing a fragment alone and analyzing the whole tree find the same free references in the
fragment, up to those that the nodes around it capture. Declarations in the fragment have the same
owners in both, or an owner around the fragment in the tree; nothing outside of the fragment has an
owner in it.
-/

namespace LexicalScope

def FreeReference.passes (l : Label) (r : FreeReference) : Bool := r.chain.any (·.label? == some l)

theorem Event.passes_reference {e : Event} {l : Label} :
    e.reference.passes l = true ↔ ∃ m ∈ e.path, m.label = l := by
  simp [FreeReference.passes, reference, occurrence, chain_eq, Node.tree, Tree.label?]

theorem Event.reference_below (e : Event) (around : List Node) :
    (e.below around).reference = e.reference.within around := by
  simp only [reference, occurrence, FreeReference.within, kind_below, node_below, chain_eq,
    path_below, List.reverse_append, List.map_append]
  rfl

namespace Tree

variable {t : Tree} {n : Node} {around : List Node} {mode : ScopeMode} {T N : ScopeTable}
  {e : Event} {owner : Label} {x : Atom}

/-- A fragment that can stand alone: no identifier, no part of a pattern and no clause of a `try`.
-/
structure Composable (t : Tree) (n : Node) (around : List Node) : Prop where
  vocabulary : t.InVocabulary
  nodup : t.labels.Nodup
  visits : Visits [] ⟨t, false⟩ n around
  identifier : n.kind ≠ .identifier
  clause : n.kind ≠ .catchClause
  pattern : n.kind.isPattern = false

namespace Composable

theorem at_ (c : t.Composable n around) : t.FragmentAt n around where
  ends := c.vocabulary.fault_walk
  visits := c.visits
  nodup := c.nodup

theorem fragment (c : t.Composable n around) : n.tree.InVocabulary := by
  obtain ⟨e, he, rfl, -⟩ := c.visits
  exact (c.vocabulary.of_mem_walk (s := ⟨t, false⟩) he).2

theorem exists_of_binds (c : t.Composable n around) (he : e ∈ t.events.items)
    (binds : e.Binds mode owner x) (hl : owner ∈ n.tree.labels) :
    ∃ f ∈ n.tree.events.items, f.below around = e := by
  rcases binds.owner_mem_or_handles with ⟨m, hm, rfl⟩ | ⟨kind, handler, handles, rfl⟩
  · exact c.at_.exists_of_mem_path c.identifier he hm hl
  · have met := Visits.of_mem_walk he
    obtain ⟨target, hr⟩ := exists_mem_reports he
    have kind : e.node.kind = .tryStatement :=
      Node.kind_eq_of_mem_reports (kind ▸ hr) (by decide)
    -- the handler is a clause, so the fragment is not the handler itself
    have shape := (c.vocabulary.wellShaped_path (s := ⟨t, false⟩) (by simp) he) e.node
      List.mem_cons_self
    simp only [Node.WellShaped, kind] at shape
    obtain ⟨clause, hn, hk⟩ : ∃ clause, (e.node.get "handler").node? = some clause ∧
        clause.kind = .catchClause := by
      rcases shape with absent | clause
      · rw [absent] at handles
        cases handles
      · exact clause
    obtain rfl := Option.some.inj ((Tree.object?_of_node? hn).symm.trans handles)
    have below := c.visits.suffix_of_mem_labels c.nodup
      (met.slot c.at_.ends (Node.mem_slots_handler kind hn) hn) hl
    rcases List.suffix_cons_iff.mp below with same | below
    · exact absurd ((List.cons.inj same).1 ▸ hk) c.clause
    · exact c.at_.exists_of_mem_path c.identifier he (below.subset List.mem_cons_self)
        List.mem_cons_self

theorem declares_of_mem (c : t.Composable n around)
    (boundT : bindScopes t mode .empty = (T, none))
    (boundN : bindScopes n.tree mode .empty = (N, none)) (hl : owner ∈ n.tree.labels)
    (h : T.declares owner x = true) : N.declares owner x = true := by
  obtain ⟨y, hy, e, he, binds⟩ := (ScopeTable.declares_iff_binds boundT).mp h
  obtain ⟨f, hf, rfl⟩ := c.exists_of_binds he binds hl
  refine (ScopeTable.declares_iff_binds boundN).mpr ⟨y, hy, f, hf, ?_⟩
  rcases binds.of_below with ⟨m, hm, rfl⟩ | binds
  · exact absurd hl (c.at_.not_mem_labels hm)
  · exact binds

theorem declares_or_around (c : t.Composable n around)
    (boundT : bindScopes t mode .empty = (T, none))
    (boundN : bindScopes n.tree mode .empty = (N, none)) (h : N.declares owner x = true) :
    T.declares owner x = true ∨ ∃ m ∈ around, T.declares m.label x = true := by
  obtain ⟨y, hy, e, he, binds⟩ := (ScopeTable.declares_iff_binds boundN).mp h
  have he := c.at_.mem_events c.identifier he
  rcases binds.below around with binds | ⟨m, hm, binds⟩
  · exact .inl ((ScopeTable.declares_iff_binds boundT).mpr ⟨y, hy, _, he, binds⟩)
  · exact .inr ⟨m, hm, (ScopeTable.declares_iff_binds boundT).mpr ⟨y, hy, _, he, binds⟩⟩

theorem isReference_below (c : t.Composable n around) (he : e ∈ n.tree.events.items) :
    (e.below around).IsReference ↔ e.IsReference := by
  unfold Event.IsReference
  refine or_congr_right (and_congr_right fun kind => ?_)
  have hn : n ∈ e.outer := by
    obtain ⟨inner, hp⟩ := Event.exists_path_eq he
    have hm : n ∈ e.path := hp ▸ List.mem_append_right _ List.mem_cons_self
    refine (List.mem_cons.mp hm).resolve_left ?_
    rintro rfl
    obtain ⟨target, hr⟩ := exists_mem_reports he
    refine c.identifier (Node.kind_of_variablePattern_mem_reports (kind ▸ hr) fun same => ?_)
    have shape := (c.fragment.wellShaped (c.fragment.of_mem_walk (s := ⟨_, false⟩) he).1).1
    simp [Node.WellShaped, same] at shape
  obtain ⟨m, hm⟩ := Option.isSome_iff_exists.mp
    (List.find?_isSome (p := fun m : Node => !m.kind.isPattern) |>.mpr ⟨n, hn, by simp [c.pattern]⟩)
  rw [Event.kind_below] at kind
  rw [Event.outer_below, List.find?_append, hm, Option.some_or]

theorem isFree_below_iff (c : t.Composable n around)
    (boundT : bindScopes t mode .empty = (T, none))
    (boundN : bindScopes n.tree mode .empty = (N, none)) (he : e ∈ n.tree.events.items) :
    (e.below around).IsFree T ↔
      e.IsFree N ∧ T.capturesAlong e.reference (n :: around) = false := by
  rw [Event.isFree_below he (c.isReference_below he)]
  refine and_congr_left fun loose => ?_
  rw [Event.isFree_iff, Event.isFree_iff]
  refine and_congr_right fun _ => ?_
  by_cases hk : e.kind = .thisExpression
  · simp only [hk, true_or]
  have name : e.reference.name = e.node.get "name" := if_neg hk
  rw [ScopeTable.capturesAlong_name (by simp [Event.isThis_reference he, hk]), name] at loose
  simp only [hk, false_or]
  refine not_congr ⟨?_, ?_⟩
  · rintro ⟨x, hx, m, hm, hd⟩
    exact ⟨x, hx, m, hm, c.declares_of_mem boundT boundN
      (label_mem_of_mem_path he c.fragment.fault_walk hm) hd⟩
  · rintro ⟨x, hx, m, hm, hd⟩
    rcases c.declares_or_around boundT boundN hd with hd | ⟨k, hk, hd⟩
    · exact ⟨x, hx, m, hm, hd⟩
    · have free := (loose k hk).1
      rw [hx, ScopeTable.declaresName, hd] at free
      cases free

open scoped Classical in
/-- The tree and the fragment alone have the same free references, but for those that a node around
captures. -/
theorem filter_passes_eq (c : t.Composable n around)
    (boundT : bindScopes t mode .empty = (T, none))
    (boundN : bindScopes n.tree mode .empty = (N, none)) :
    ((t.events.items.filter fun e => e.IsFree T).map Event.reference).filter (·.passes n.label) =
      (((n.tree.events.items.filter fun e => e.IsFree N).map Event.reference).filter
        fun r => !T.capturesAlong r (n :: around)).map (·.within around) := by
  have passes : ∀ e ∈ t.events.items,
      e.reference.passes n.label = decide (e.node.label ∈ n.tree.labels) := by
    intro e he
    rw [Bool.eq_iff_iff, Event.passes_reference, decide_eq_true_iff, c.at_.mem_labels_iff he]
  have within := filter_walk_eq (s := ⟨t, false⟩) c.nodup c.at_.ends c.visits c.identifier
  rw [List.filter_map, List.filter_map, List.map_map, List.filter_filter, List.filter_filter]
  calc
    _ = ((t.events.items.filter fun e => decide (e.node.label ∈ n.tree.labels)).filter
          fun e => e.IsFree T).map Event.reference := by
        rw [List.filter_filter]
        congr 1
        apply List.filter_congr
        intro e he
        rw [Function.comp_apply, passes e he, Bool.and_comm]
    _ = ((n.tree.events.items.filter fun e => (e.below around).IsFree T).map
          fun e => (e.below around).reference) := by
        rw [Tree.events, within, List.filter_map, List.map_map]
        rfl
    _ = _ := by
        simp only [Event.reference_below]
        congr 1
        apply List.filter_congr
        intro e he
        rw [Bool.eq_iff_iff]
        simp [c.isFree_below_iff boundT boundN he, and_comm]

end Composable

end Tree

/-- Free below a node is what is free in the node alone and not captured by those around it. -/
theorem freeReferences_fragment {t : Tree} {n : Node} {around : List Node} (mode : ScopeMode)
    (vocabulary : t.InVocabulary) (nodup : t.labels.Nodup)
    (visits : Visits [] ⟨t, false⟩ n around) (identifier : n.kind ≠ .identifier)
    (clause : n.kind ≠ .catchClause) (pattern : n.kind.isPattern = false) :
    ∃ T N rs rn, bindScopes t mode .empty = (T, none) ∧ bindScopes n.tree mode .empty = (N, none) ∧
      freeReferences t T = .ok rs ∧ freeReferences n.tree N = .ok rn ∧
      rs.filter (·.passes n.label) =
        (rn.filter fun r => !T.capturesAlong r (n :: around)).map (·.within around) := by
  have c : t.Composable n around := ⟨vocabulary, nodup, visits, identifier, clause, pattern⟩
  have boundT : bindScopes t mode .empty = ((bindScopes t mode .empty).1, none) :=
    Prod.ext rfl (vocabulary.fault_entries mode)
  have boundN : bindScopes n.tree mode .empty = ((bindScopes n.tree mode .empty).1, none) :=
    Prod.ext rfl (c.fragment.fault_entries mode)
  obtain ⟨rs, freeT⟩ : ∃ rs, freeReferences t (bindScopes t mode .empty).1 = .ok rs :=
    ⟨_, Yield.toExcept_eq_ok.mpr ⟨vocabulary.fault_free _, rfl⟩⟩
  obtain ⟨rn, freeN⟩ : ∃ rn, freeReferences n.tree (bindScopes n.tree mode .empty).1 = .ok rn :=
    ⟨_, Yield.toExcept_eq_ok.mpr ⟨c.fragment.fault_free _, rfl⟩⟩
  refine ⟨_, _, rs, rn, boundT, boundN, freeT, freeN, ?_⟩
  rw [eq_of_freeReferences freeT, eq_of_freeReferences freeN]
  exact c.filter_passes_eq boundT boundN

/-- Of the two references that are free in `[p, x]`, the function `p => [p, x]` captures one. -/
theorem freeReferences_fragment_pair : ∃ T N rs rn,
    bindScopes arrowProgram.tree ⟨false, false, false⟩ .empty = (T, none) ∧
    bindScopes pair.tree ⟨false, false, false⟩ .empty = (N, none) ∧
    freeReferences arrowProgram.tree T = .ok rs ∧ freeReferences pair.tree N = .ok rn ∧
    rs.length = 1 ∧ rn.length = 2 ∧ rs.filter (·.passes pair.label) =
      (rn.filter fun r => !T.capturesAlong r [pair, arrow, arrowProgram]).map
        (·.within [arrow, arrowProgram]) := by
  have ends : arrowProgram.tree.events.fault = none :=
    Option.isNone_iff_eq_none.mp (by decide +kernel)
  have body : ⟨pair.tree, false⟩ ∈ arrow.slots.items := by
    rw [Node.slots_of_isFunction rfl]
    exact List.mem_append_right _ (List.mem_singleton_self _)
  have visits : Visits [] ⟨arrowProgram.tree, false⟩ pair [arrow, arrowProgram] :=
    (visits_child (m := arrow) rfl rfl (List.mem_singleton_self _) ends).slot ends body rfl
  obtain ⟨T, N, rs, rn, boundT, boundN, freeT, freeN, same⟩ :=
    freeReferences_fragment ⟨false, false, false⟩ arrowProgram_inVocabulary (by decide) visits
      (by decide) (by decide) (by decide)
  obtain ⟨rs', freeT', one⟩ : ∃ rs', freeReferences arrowProgram.tree
      (bindScopes arrowProgram.tree ⟨false, false, false⟩ .empty).1 = .ok rs' ∧ rs'.length = 1 :=
    exists_ok_of_map (by decide +kernel)
  obtain ⟨rn', freeN', two⟩ : ∃ rn', freeReferences pair.tree
      (bindScopes pair.tree ⟨false, false, false⟩ .empty).1 = .ok rn' ∧ rn'.length = 2 :=
    exists_ok_of_map (by decide +kernel)
  rw [boundT] at freeT'
  rw [boundN] at freeN'
  obtain rfl := Except.ok.inj (freeT.symm.trans freeT')
  obtain rfl := Except.ok.inj (freeN.symm.trans freeN')
  exact ⟨T, N, rs, rn, boundT, boundN, freeT, freeN, one, two, same⟩

end LexicalScope
