import LexicalScope.Proofs.Reference.Alike
import LexicalScope.Proofs.Walk.Below

/-! # Capture

A reference that is free in a fragment may be captured by the nodes around the fragment. A node
captures the names that it declares and, if it is a function but no arrow, `arguments` and `this`; a
class field captures the `this` that comes from its value. Nothing else around a fragment matters to
whether a reference in it is free.
-/

namespace LexicalScope

instance (n m : Node) : Decidable (Initializes n m) := inferInstanceAs (Decidable (_ ∧ _))

namespace ScopeTable

/-- Whether a node captures a reference that comes from the node next below it. -/
def capturesFrom (table : ScopeTable) (r : FreeReference) (below n : Node) : Bool :=
  if r.isThis then n.kind.declaresArguments || decide (Initializes n below)
  else table.declaresName n r.name || r.name.isText "arguments" && n.kind.declaresArguments

/-- Whether one of the nodes around the first node of a path captures a reference that comes from
there. -/
def capturesAlong (table : ScopeTable) (r : FreeReference) : List Node → Bool
  | below :: n :: ns => table.capturesFrom r below n || table.capturesAlong r (n :: ns)
  | _ => false

variable {table : ScopeTable} {r : FreeReference} {n : Node} {ns : List Node}

@[simp]
theorem declaresName_empty (name : Tree) : empty.declaresName n name = false := by
  cases name <;> rfl

theorem capturesAlong_this (h : r.isThis = true) : table.capturesAlong r (n :: ns) = false ↔
    (∀ m ∈ ns, m.kind.declaresArguments = false) ∧
      (n :: ns).IsChain fun below m => ¬ Initializes m below := by
  induction ns generalizing n with
  | nil => simp [capturesAlong]
  | cons m ns ih =>
    rw [capturesAlong, Bool.or_eq_false_iff, ih, List.forall_mem_cons, List.isChain_cons_cons]
    simp only [capturesFrom, h, if_true, Bool.or_eq_false_iff, decide_eq_false_iff_not]
    tauto

theorem capturesAlong_name (h : r.isThis = false) : table.capturesAlong r (n :: ns) = false ↔
    ∀ m ∈ ns, table.declaresName m r.name = false ∧
      (r.name = .str "arguments" → m.kind.declaresArguments = false) := by
  have arguments : r.name.isText "arguments" = true ↔ r.name = .str "arguments" := by
    cases r.name with
    | atom a => cases a <;> simp [Tree.isText, Tree.str]
    | _ => simp [Tree.isText, Tree.str]
  induction ns generalizing n with
  | nil => simp [capturesAlong]
  | cons m ns ih =>
    simp only [capturesAlong, capturesFrom, h, Bool.false_eq_true, if_false, Bool.or_eq_false_iff,
      Bool.and_eq_false_imp, arguments, ih, List.forall_mem_cons]

end ScopeTable

namespace Event

variable {table : ScopeTable} {n : Node} {around : List Node} {e : Event}

theorem exists_path_eq (he : e ∈ n.tree.events.items) : ∃ inner, e.path = inner ++ [n] := by
  obtain ⟨m, hm, inner, hp⟩ := suffix_path_of_mem_walk he
  obtain rfl : m = n := by
    have same := Tree.tree_of_node? hm
    simp only [Node.tree, Tree.obj.injEq] at same
    cases m
    cases n
    simp_all
  exact ⟨inner, hp.symm⟩

theorem isFree_this (hk : e.kind = .thisExpression) : e.IsFree table ↔ e.ThisUnbound := by
  simp [IsFree, IsReference, hk]

theorem isFree_name (hk : e.kind ≠ .thisExpression) :
    e.IsFree table ↔ e.IsReference ∧ table.Unbound e.chain (e.node.get "name") := by
  simp [IsFree, hk]

theorem thisUnbound_below (hp : ∃ inner, e.path = inner ++ [n]) :
    (e.below around).ThisUnbound ↔ e.ThisUnbound ∧
      (∀ m ∈ around, m.kind.declaresArguments = false) ∧
      (n :: around).IsChain fun below m => ¬ Initializes m below := by
  obtain ⟨inner, hp⟩ := hp
  simp only [thisUnbound_iff, chain_eq, List.isChain_reverse, path_below, hp, List.append_assoc,
    List.singleton_append, Kind.declaresArguments_eq_false]
  rw [List.isChain_split, ← List.singleton_append, ← List.append_assoc, List.forall_mem_append]
  tauto

theorem unbound_below {name : Tree} : table.Unbound (e.below around).chain name ↔
    table.Unbound e.chain name ∧ ∀ m ∈ around, table.declaresName m name = false ∧
      (name = .str "arguments" → m.kind.declaresArguments = false) := by
  simp only [Kind.declaresArguments_eq_false]
  constructor
  · rintro ⟨hu, hd, ha⟩
    simp only [mem_chain, path_below, List.forall_mem_append] at hd ha
    refine ⟨⟨hu, by simpa using hd.1, fun h => by simpa using (ha h).1⟩, ?_⟩
    intro m hm
    exact ⟨hd.2 m hm, fun h => (ha h).2 m hm⟩
  · rintro ⟨⟨hu, hd, ha⟩, around⟩
    simp only [mem_chain] at hd ha
    refine ⟨hu, ?_, ?_⟩
    · simp only [mem_chain, path_below, List.forall_mem_append]
      exact ⟨hd, fun m hm => (around m hm).1⟩
    · simp only [mem_chain, path_below, List.forall_mem_append]
      exact fun h => ⟨ha h, fun m hm => (around m hm).2 h⟩

theorem isReference_below_cons (pattern : n.kind.isPattern = false)
    (declarator : n.kind ≠ .variableDeclarator) :
    (e.below (n :: around)).IsReference ↔ e.IsReference := by
  unfold IsReference
  refine or_congr_right (and_congr_right fun _ => ?_)
  rw [outer_below, List.find?_append,
    List.find?_cons_of_pos (p := fun m : Node => !m.kind.isPattern) (by simp [pattern])]
  cases e.outer.find? fun m => !m.kind.isPattern with
  | none => simpa using declarator
  | some m => rfl

/-- What is free below further nodes is free without them and captured by none of them. -/
theorem isFree_below (he : e ∈ n.tree.events.items)
    (reference : (e.below around).IsReference ↔ e.IsReference) :
    (e.below around).IsFree table ↔
      e.IsFree table ∧ table.capturesAlong e.reference (n :: around) = false := by
  have this := isThis_reference he
  by_cases hk : e.kind = .thisExpression
  · rw [isFree_this hk, isFree_this (e := e.below around) hk,
      ScopeTable.capturesAlong_this (by simp [this, hk]), thisUnbound_below (exists_path_eq he)]
  · have name : e.reference.name = e.node.get "name" := if_neg hk
    rw [isFree_name hk, isFree_name (e := e.below around) hk, reference,
      ScopeTable.capturesAlong_name (by simp [this, hk]), name, node_below, unbound_below,
      and_assoc]

theorem isFree_empty : e.IsFree .empty ↔ e.Open := by
  rw [isFree_iff, and_iff_left_iff_imp]
  rintro -
  right
  rintro ⟨x, -, m, -, hd⟩
  cases hd

theorem open_below (he : e ∈ n.tree.events.items)
    (reference : (e.below around).IsReference ↔ e.IsReference) : (e.below around).Open ↔
      e.Open ∧ ScopeTable.empty.capturesAlong e.reference (n :: around) = false := by
  rw [← isFree_empty, ← isFree_empty, isFree_below he reference]

end Event

end LexicalScope
