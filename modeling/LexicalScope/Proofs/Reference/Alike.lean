import Mathlib.Data.List.Forall2
import LexicalScope.Proofs.Reference.Exactness

/-! # Reports that look alike

Whether a report is a free reference depends on its kind, on the labels and kinds of the nodes of
its chain, on its name, and on what the table declares. The part that does not involve the table is
the same for two reports that look alike, so only what is declared along their chains can tell them
apart.
-/

namespace LexicalScope

def Tree.atom? : Tree → Option Atom
  | atom a => some a
  | _ => none

/-- What stands in the member called `name`, which is `none` within if it is no atom. -/
def Node.name? (n : Node) : Option (Option Atom) := (n.fields.lookup "name").map Tree.atom?

/-- A classification sees no difference between two nodes. -/
structure Node.Alike (n n' : Node) : Prop where
  label : n'.label = n.label
  kind : n'.kind = n.kind
  value : n.kind = .propertyDefinition → (n'.get "value").label? = (n.get "value").label?

theorem Node.Alike.refl (n : Node) : n.Alike n := ⟨rfl, rfl, fun _ => rfl⟩

structure Event.Alike (e e' : Event) : Prop where
  kind : e'.kind = e.kind
  path : List.Forall₂ Node.Alike e.path e'.path
  name : e'.node.name? = e.node.name?

theorem Event.Alike.refl (e : Event) : e.Alike e :=
  ⟨rfl, List.forall₂_same.mpr fun n _ => .refl n, rfl⟩

section

variable {ns ns' : List Node}

theorem insideDeclarator_alike (h : List.Forall₂ Node.Alike ns ns') :
    insideDeclarator ns' = insideDeclarator ns := by
  induction h with
  | nil => rfl
  | cons hn _ ih => rw [insideDeclarator, insideDeclarator, hn.kind, ih]

theorem initializes_alike {n n' m m' : Node} (hn : n.Alike n') (hm : m.Alike m') :
    Initializes n' m' ↔ Initializes n m := by
  unfold Initializes
  rw [hn.kind, hm.label]
  constructor
  · rintro ⟨hk, hv⟩
    exact ⟨hk, hn.value hk ▸ hv⟩
  · rintro ⟨hk, hv⟩
    exact ⟨hk, (hn.value hk).trans hv⟩

theorem bindsThis_alike (h : List.Forall₂ Node.Alike ns ns') : bindsThis ns' = bindsThis ns := by
  induction h with
  | nil => rfl
  | @cons n n' ns ns' hn hs ih =>
    have next : (n'.kind == .propertyDefinition &&
        ns'.head?.any fun m => (n'.get "value").label? == some m.label) =
        (n.kind == .propertyDefinition &&
          ns.head?.any fun m => (n.get "value").label? == some m.label) := by
      cases hs with
      | nil => simp
      | cons hm _ =>
        have same := initializes_alike hn hm
        rw [Bool.eq_iff_iff]
        simpa only [Initializes, List.head?_cons, Option.any_some, Bool.and_eq_true,
          beq_iff_eq] using same
    rw [bindsThis, bindsThis, hn.kind, ih, ← hn.kind, next, hn.kind]

theorem isChain_alike (h : List.Forall₂ Node.Alike ns ns') :
    (ns'.IsChain fun n m => ¬ Initializes n m) ↔ ns.IsChain fun n m => ¬ Initializes n m := by
  induction h with
  | nil => simp
  | cons hn hs ih =>
    cases hs with
    | nil => simp
    | cons hm hs => simp only [List.isChain_cons_cons, initializes_alike hn hm, ih]

theorem forall_kind_alike {P : Kind → Prop} (h : List.Forall₂ Node.Alike ns ns') :
    (∀ n ∈ ns', P n.kind) ↔ ∀ n ∈ ns, P n.kind := by
  induction h with
  | nil => simp
  | cons hn _ ih => simp only [List.forall_mem_cons, hn.kind, ih]

theorem find?_alike (test : Kind → Bool) (h : List.Forall₂ Node.Alike ns ns') :
    (ns'.find? fun m => test m.kind).map Node.kind =
      (ns.find? fun m => test m.kind).map Node.kind := by
  induction h with
  | nil => rfl
  | cons hn _ ih =>
    rw [List.find?_cons, List.find?_cons, hn.kind]
    split
    · rw [Option.map_some, Option.map_some, hn.kind]
    · exact ih

theorem exists_label_alike {P : Label → Prop} (h : List.Forall₂ Node.Alike ns ns') :
    (∃ n ∈ ns', P n.label) ↔ ∃ n ∈ ns, P n.label := by
  induction h with
  | nil => simp
  | cons hn _ ih => simp only [List.exists_mem_cons_iff, hn.label, ih]

theorem labels_alike (h : List.Forall₂ Node.Alike ns ns') :
    ns'.map (fun n => some n.label) = ns.map fun n => some n.label := by
  induction h with
  | nil => rfl
  | cons hn _ ih => rw [List.map_cons, List.map_cons, ih, hn.label]

theorem captures_alike {table table' : ScopeTable} {x : Atom} (h : List.Forall₂ Node.Alike ns ns')
    (hd : ∀ n ∈ ns, table'.declares n.label x = table.declares n.label x) :
    table'.captures ns' (.atom x) = table.captures ns (.atom x) := by
  have binds : ns'.any (table'.binds x) = ns.any (table.binds x) := by
    induction h with
    | nil => rfl
    | cons hn _ ih =>
      obtain ⟨own, rest⟩ := List.forall_mem_cons.mp hd
      rw [List.any_cons, List.any_cons, ih rest, ScopeTable.binds, ScopeTable.binds, hn.kind,
        hn.label, own]
  rw [ScopeTable.captures, ScopeTable.captures, binds]

end

namespace Event

variable {table : ScopeTable} {e e' : Event}

/-- A report that is a free reference as far as that does not depend on declarations. -/
def Open (e : Event) : Prop :=
  e.IsReference ∧ e.node.get "name" ≠ .str "undefined" ∧ (e.node.get "name" = .str "arguments" →
    ∀ n ∈ e.path, n.kind ≠ .functionDeclaration ∧ n.kind ≠ .functionExpression) ∨
  e.kind = .thisExpression ∧ e.ThisUnbound

def Declared (table : ScopeTable) (e : Event) : Prop :=
  ∃ x, e.node.get "name" = .atom x ∧ ∃ n ∈ e.path, table.declares n.label x = true

theorem IsReference.ne_this (h : e.IsReference) : e.kind ≠ .thisExpression := by
  rcases h with h | h <;> simp [h]

theorem isFree_iff : e.IsFree table ↔ e.Open ∧ (e.kind = .thisExpression ∨ ¬ e.Declared table) := by
  have undeclared : (∀ n ∈ e.chain, table.declaresName n (e.node.get "name") = false) ↔
      ¬ e.Declared table := by
    unfold Declared ScopeTable.declaresName
    cases e.node.get "name" <;> simp
  constructor
  · rintro (⟨hr, hu⟩ | ⟨hk, hu⟩)
    · refine ⟨.inl ⟨hr, hu.ne_undefined, ?_⟩, .inr (undeclared.mp hu.undeclared)⟩
      intro hn n hm
      exact hu.no_arguments hn n (mem_chain.mpr hm)
    · exact ⟨.inr ⟨hk, hu⟩, .inl hk⟩
  · rintro ⟨⟨hr, hn, ha⟩ | hu, hd⟩
    · refine .inl ⟨hr, hn, undeclared.mpr (hd.resolve_left hr.ne_this), ?_⟩
      intro hn n hm
      exact ha hn n (mem_chain.mp hm)
    · exact .inr hu

theorem thisUnbound_iff : e.ThisUnbound ↔
    (∀ n ∈ e.path, n.kind ≠ .functionDeclaration ∧ n.kind ≠ .functionExpression) ∧
      e.chain.IsChain fun n m => ¬ Initializes n m := by
  rw [List.isChain_iff_forall_rel_of_append_cons_cons, ThisUnbound]
  simp only [mem_chain]
  constructor
  · rintro ⟨hf, hc⟩
    exact ⟨hf, fun n m before after he => hc _ _ _ _ he⟩
  · rintro ⟨hf, hc⟩
    exact ⟨hf, fun before n m after he => hc he⟩

theorem exists_field_of_isReference (hr : e.IsReference) (h : (e.free table).fault = none) :
    ∃ v, e.node.tree.field "name" = .ok v := by
  have named (hi : (e.freeIdentifier table).fault = none) :
      ∃ v, e.node.tree.field "name" = .ok v := by
    unfold freeIdentifier at hi
    cases hn : e.node.tree.field "name" with
    | error fault => simp [hn, bind, Except.bind, Yield.ofExcept] at hi
    | ok v => exact ⟨v, rfl⟩
  rcases hr with hk | ⟨hk, hd⟩
  · simp only [free, hk] at h
    exact named h
  · simp only [free, hk] at h
    cases hb : insideDeclarator e.outer with
    | error fault => simp [hb] at h
    | ok b =>
      obtain rfl := (insideDeclarator_eq_ok hb).mpr hd
      simp only [hb] at h
      exact named h

end Event

namespace Node

variable {n : Node} {x : Atom}

theorem get_name_eq_atom_iff :
    n.get "name" = .atom x ↔ n.name? = some (some x) ∨ n.name? = none ∧ x = .null := by
  unfold get name?
  cases n.fields.lookup "name" with
  | none => simp [Tree.null, eq_comm]
  | some v => cases v <;> simp [Tree.atom?]

theorem name?_of_field {v : Tree} (h : n.tree.field "name" = .ok v) : n.name? = some v.atom? := by
  simp only [Tree.field, tree] at h
  unfold name?
  cases hl : n.fields.lookup "name" with
  | none => simp [hl] at h
  | some w =>
    rw [hl] at h
    rw [Option.map_some, Except.ok.inj h]

theorem field_of_name? (h : n.name? = some (some x)) : n.tree.field "name" = .ok (.atom x) := by
  simp only [Tree.field, tree]
  unfold name? at h
  cases hl : n.fields.lookup "name" with
  | none => simp [hl] at h
  | some v => cases v <;> simp_all [Tree.atom?]

end Node

namespace Event.Alike

variable {table table' : ScopeTable} {e e' : Event} {x : Atom}

theorem node (h : e.Alike e') : e.node.Alike e'.node := (List.forall₂_cons.mp h.path).1

theorem outer (h : e.Alike e') : List.Forall₂ Node.Alike e.outer e'.outer :=
  (List.forall₂_cons.mp h.path).2

theorem chain (h : e.Alike e') : List.Forall₂ Node.Alike e.chain e'.chain :=
  List.rel_reverse h.path

theorem isReference_iff (h : e.Alike e') : e'.IsReference ↔ e.IsReference := by
  have same := find?_alike (fun k => !k.isPattern) h.outer
  unfold IsReference
  rw [h.kind]
  refine or_congr_right (and_congr_right fun _ => ?_)
  generalize e'.outer.find? _ = found' at same ⊢
  generalize e.outer.find? _ = found at same ⊢
  cases found <;> cases found' <;> simp_all

theorem thisUnbound_iff (h : e.Alike e') : e'.ThisUnbound ↔ e.ThisUnbound := by
  rw [Event.thisUnbound_iff, Event.thisUnbound_iff, isChain_alike h.chain]
  exact and_congr_left fun _ =>
    forall_kind_alike (P := fun k => k ≠ .functionDeclaration ∧ k ≠ .functionExpression) h.path

theorem get_name_iff (h : e.Alike e') :
    e'.node.get "name" = .atom x ↔ e.node.get "name" = .atom x := by
  rw [Node.get_name_eq_atom_iff, Node.get_name_eq_atom_iff, h.name]

theorem open_iff (h : e.Alike e') : e'.Open ↔ e.Open := by
  have functions := forall_kind_alike
    (P := fun k => k ≠ .functionDeclaration ∧ k ≠ .functionExpression) h.path
  unfold Open
  rw [h.isReference_iff, h.thisUnbound_iff, h.kind, functions]
  simp only [ne_eq, Tree.str, h.get_name_iff]

theorem declared_iff (h : e.Alike e') (same : ∀ n ∈ e.path, ∀ x, e.node.get "name" = .atom x →
    table'.declares n.label x = table.declares n.label x) :
    e'.Declared table' ↔ e.Declared table := by
  unfold Declared
  simp only [h.get_name_iff]
  refine exists_congr fun x => and_congr_right fun hx => ?_
  rw [exists_label_alike (P := fun l => table'.declares l x = true) h.path]
  constructor
  · rintro ⟨n, hn, hd⟩
    exact ⟨n, hn, same n hn x hx ▸ hd⟩
  · rintro ⟨n, hn, hd⟩
    exact ⟨n, hn, (same n hn x hx).trans hd⟩

theorem isFree_iff (h : e.Alike e') (same : ∀ n ∈ e.path, ∀ x, e.node.get "name" = .atom x →
    table'.declares n.label x = table.declares n.label x) :
    e'.IsFree table' ↔ e.IsFree table := by
  rw [Event.isFree_iff, Event.isFree_iff, h.open_iff, h.kind, h.declared_iff same]

theorem place_reference (h : e.Alike e')
    (atom : e.kind ≠ .thisExpression → ∃ x, e.node.get "name" = .atom x) :
    e'.reference.place = e.reference.place := by
  have name : (if e'.kind = .thisExpression then Tree.str "this" else e'.node.get "name") =
      if e.kind = .thisExpression then Tree.str "this" else e.node.get "name" := by
    rw [h.kind]
    split
    · rfl
    · next hk =>
      obtain ⟨x, hx⟩ := atom hk
      rw [hx, h.get_name_iff.mpr hx]
  simp only [FreeReference.place, Event.reference, Event.occurrence, name, List.map_map,
    Function.comp_def, labels_alike h.chain, Node.tree, Tree.label?, h.node.label]

theorem fault_free (h : e.Alike e')
    (text : ∀ v, e.node.tree.field "name" = .ok v → ∃ s, v = .str s)
    (hf : (e.free table).fault = none) : (e'.free table').fault = none := by
  have identifier (hi : (e.freeIdentifier table).fault = none) :
      (e'.freeIdentifier table').fault = none := by
    unfold freeIdentifier at hi
    cases hn : e.node.tree.field "name" with
    | error fault => simp [hn, bind, Except.bind, Yield.ofExcept] at hi
    | ok v =>
      obtain ⟨s, rfl⟩ := text v hn
      exact fault_freeIdentifier_of_text
        (Node.field_of_name? (h.name.trans (Node.name?_of_field hn)))
  unfold free at hf ⊢
  rw [h.kind, insideDeclarator_alike h.outer, freeThis, bindsThis_alike h.chain]
  split
  · next hk =>
    simp only [hk] at hf
    exact identifier hf
  · next hk =>
    simp only [hk] at hf
    cases hd : insideDeclarator e.outer with
    | error fault => simp [hd] at hf
    | ok b =>
      cases b with
      | true => rfl
      | false =>
        simp only [hd] at hf
        exact identifier hf
  · next hk =>
    simp only [hk, freeThis] at hf
    cases hb : bindsThis e.chain with
    | error fault => simp [hb, bind, Except.bind, Yield.ofExcept] at hf
    | ok b => cases b <;> exact Yield.fault_ofExcept.mpr ⟨_, rfl⟩
  · rfl

end Event.Alike

end LexicalScope
