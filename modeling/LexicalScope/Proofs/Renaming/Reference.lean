import LexicalScope.Proofs.Reference.Exactness
import LexicalScope.Proofs.Renaming.Entry

/-! # References in a renamed tree

Every name inside the function that is renamed is a parameter, so it is bound before and after.
Other names are bound by the same nodes, and outside of the function nothing has changed. So an
occurrence is free exactly if it was, under the same name at the same place.
-/

namespace LexicalScope

section

variable {ρ : Renaming} {inner : List Label} {es es' : List Entry} {owner : Label} {x : Atom}

theorem Renaming.atom_of_key_ne {ρ : Renaming} (h : x.key ≠ ρ.old.key) : ρ.atom x = x := if_neg h

/-- Entries leave what they declare alone, but for the two names at owners in the function. -/
theorem declares_renamed (h : List.Forall₂ (Entry.Renamed ρ inner) es es')
    (hx : owner ∈ inner → x.key ≠ ρ.old.key ∧ x.key ≠ .text ρ.new) :
    (es'.foldl ScopeTable.enter .empty).declares owner x =
      (es.foldl ScopeTable.enter .empty).declares owner x := by
  rw [Bool.eq_iff_iff, ScopeTable.declares_foldl_enter, ScopeTable.declares_foldl_enter]
  simp only [ScopeTable.declares_empty, Bool.false_eq_true, false_or]
  constructor
  · rintro ⟨y, hy, hk⟩
    obtain ⟨entry, he, hr⟩ := exists_left_of_forall₂ h hy
    cases hr with
    | kept => exact ⟨y, he, hk⟩
    | renamed z within =>
      unfold Renaming.atom at hk
      split at hk
      · exact absurd hk.symm (hx within).2
      · exact ⟨z, he, hk⟩
  · rintro ⟨y, hy, hk⟩
    obtain ⟨entry, he, hr⟩ := exists_right_of_forall₂ h hy
    cases hr with
    | kept => exact ⟨y, he, hk⟩
    | renamed y within =>
      rw [Renaming.atom_of_key_ne (hk ▸ (hx within).1)] at he
      exact ⟨y, he, hk⟩

end

namespace ScopeTable

theorem declares_congr_key {table : ScopeTable} {owner : Label} {x y : Atom} (h : x.key = y.key) :
    table.declares owner x = table.declares owner y := by
  simp only [declares, Scope.declares, h]

theorem atom_of_captures {table : ScopeTable} {chain : List Node} {v : Tree} {b : Bool}
    (h : table.captures chain v = .ok b) (free : b = false → ∃ a, v = .atom a) :
    ∃ a, v = .atom a := by
  cases v with
  | atom a => exact ⟨a, rfl⟩
  | arr l vs =>
    simp only [captures] at h
    split at h
    · cases h
    · exact free (Except.ok.inj h).symm
  | obj l fs =>
    simp only [captures] at h
    split at h
    · cases h
    · exact free (Except.ok.inj h).symm

theorem captures_of_mem {table : ScopeTable} {chain : List Node} {n : Node} {x : Atom}
    (hn : n ∈ chain) (h : table.declares n.label x = true) :
    table.captures chain (.atom x) = .ok true := by
  have binds : chain.any (table.binds x) = true :=
    List.any_eq_true.mpr ⟨n, hn, by rw [binds, h, Bool.or_true]⟩
  rw [captures, binds, Bool.or_true]

end ScopeTable

/-- A table and the one that binding the renamed tree leaves. -/
structure Renaming.Tables (ρ : Renaming) (function : Node) (table table' : ScopeTable) : Prop where
  same : ∀ owner x, (owner ∈ function.tree.labels → x.key ≠ ρ.old.key ∧ x.key ≠ .text ρ.new) →
    table'.declares owner x = table.declares owner x
  old : table.declares function.label ρ.old = true
  new : table'.declares function.label (.str ρ.new) = true

namespace Event.Renamed

variable {ρ : Renaming} {t : Tree} {function : Node} {around : List Node} {inside : Bool}
  {e e' : Event} {table table' : ScopeTable}

theorem alike_chain (h : e.Renamed ρ function around inside e') :
    List.Forall₂ Node.Alike e.chain e'.chain := List.rel_reverse h.alike_path

theorem place_occurrence (h : e.Renamed ρ function around inside e') (name : Tree) :
    (e'.occurrence name).place = (e.occurrence name).place := by
  simp only [FreeReference.place, occurrence, List.map_map, Function.comp_def, Node.tree,
    Tree.label?, labels_alike h.alike_chain, h.node, Node.label_rename]

theorem not_mem_labels (at_ : ρ.At t function around) (he : e ∈ t.events.items)
    (hf : function ∉ e.path) {n : Node} (hn : n ∈ e.chain) : n.label ∉ function.tree.labels := by
  intro hl
  have hv : Visits [] ⟨t, false⟩ e.node e.outer := Visits.of_mem_walk he
  obtain ⟨before, rest, hp⟩ := List.append_of_mem (mem_chain.mp hn)
  have hs : n :: rest <:+ e.node :: e.outer := ⟨before, hp.symm⟩
  have hnv := hv.of_suffix at_.ends hs (Nat.zero_le _)
  have below : function :: around <:+ n :: rest := at_.visits.suffix_of_mem_labels at_.nodup hnv hl
  exact hf ((below.trans hs).subset List.mem_cons_self)

theorem captures_other_name (h : e.Renamed ρ function around inside e')
    (tables : ρ.Tables function table table') {a : Atom} (other : a.key ≠ ρ.old.key)
    (fresh : a.key ≠ .text ρ.new) :
    table'.captures e'.chain (.atom a) = table.captures e.chain (.atom a) :=
  captures_alike h.alike_chain fun n _ => tables.same n.label a fun _ => ⟨other, fresh⟩

theorem captures_beyond (h : e.Renamed ρ function around inside e') (at_ : ρ.At t function around)
    (he : e ∈ t.events.items) (tables : ρ.Tables function table table') (hf : function ∉ e.path)
    (a : Atom) : table'.captures e'.chain (.atom a) = table.captures e.chain (.atom a) := by
  refine captures_alike h.alike_chain fun n hn => tables.same n.label a fun hl => ?_
  exact absurd hl (not_mem_labels at_ he hf hn)

theorem captures_of_declares (h : e.Renamed ρ function around inside e') {a : Atom}
    (hx : table'.declares function.label a = true) (hc : function ∈ e.chain) :
    table'.captures e'.chain (.atom a) = .ok true := by
  obtain ⟨f, hf, hr⟩ := exists_right_of_forall₂ h.alike_chain hc
  exact ScopeTable.captures_of_mem hf (hr.label ▸ hx)

/-- A name is bound around an occurrence after the renaming exactly if it was. -/
theorem captures_name (h : e.Renamed ρ function around inside e') (at_ : ρ.At t function around)
    (he : e ∈ t.events.items) (tables : ρ.Tables function table table')
    (hf : e.node ≠ function) {a : Atom} (fresh : a.key ≠ .text ρ.new)
    (own : table'.declares function.label ρ.old = true ∨
      (e ∈ (walk (function :: around) ⟨function.get "id", true⟩).items → a.key ≠ ρ.old.key)) :
    table'.captures e'.chain (.atom (if inside then ρ.atom a else a)) =
        table.captures e.chain (.atom a) ∧
      (table.captures e.chain (.atom a) = .ok true ∨ (if inside then ρ.atom a else a) = a) := by
  by_cases ha : a.key = ρ.old.key
  · have bound (hc : function ∈ e.chain) : table.captures e.chain (.atom a) = .ok true :=
      ScopeTable.captures_of_mem hc (ScopeTable.declares_congr_key ha ▸ tables.old)
    cases inside with
    | true =>
      have hc : function ∈ e.chain := mem_chain.mpr (List.mem_cons_of_mem _ (h.within rfl))
      have renamed : ρ.atom a = .str ρ.new := if_pos ha
      rw [if_pos rfl, renamed, h.captures_of_declares tables.new hc, bound hc]
      exact ⟨rfl, .inl rfl⟩
    | false =>
      rw [if_neg (by simp)]
      refine ⟨?_, .inr rfl⟩
      rcases h.beyond rfl with ho | hi
      · have hp : function ∉ e.path := by
          rw [path, List.mem_cons, not_or]
          exact ⟨hf.symm, ho⟩
        exact h.captures_beyond at_ he tables hp a
      · have hc : function ∈ e.chain := by
          obtain ⟨m, -, hs⟩ := suffix_path_of_mem_walk hi
          exact mem_chain.mpr (hs.subset (List.mem_cons_of_mem _ List.mem_cons_self))
        have hx := own.resolve_right fun ho => ho hi ha
        rw [bound hc, h.captures_of_declares (ScopeTable.declares_congr_key ha ▸ hx) hc]
  · have kept : (if inside then ρ.atom a else a) = a := by
      rw [Renaming.atom_of_key_ne ha, ite_self]
    rw [kept]
    exact ⟨h.captures_other_name tables ha fresh, .inr rfl⟩

theorem follows_freeIdentifier (h : e.Renamed ρ function around inside e')
    (at_ : ρ.At t function around) (he : e ∈ t.events.items)
    (tables : ρ.Tables function table table') (hf : e.node ≠ function)
    (fresh : e.node.get "name" ≠ .str ρ.new)
    (own : table'.declares function.label ρ.old = true ∨
      (e ∈ (walk (function :: around) ⟨function.get "id", true⟩).items →
        ∀ a, e.node.get "name" = .atom a → a.key ≠ ρ.old.key))
    (atoms : ∀ r ∈ (e.freeIdentifier table).items, ∃ a, r.name = .atom a) :
    (e.freeIdentifier table).Follows (fun r r' => r'.place = r.place)
      (e'.freeIdentifier table') := by
  unfold freeIdentifier at atoms ⊢
  rw [h.node, Node.tree_rename, Tree.field_name_rename]
  cases hn : e.node.tree.field "name" with
  | error fault => exact Yield.follows_fail
  | ok v =>
    rw [hn] at atoms
    simp only [Except.map, bind, Except.bind] at atoms ⊢
    cases hc : table.captures e.chain v with
    | error fault => exact Yield.follows_fail
    | ok b =>
      obtain ⟨a, rfl⟩ : ∃ a, v = .atom a := by
        refine ScopeTable.atom_of_captures hc ?_
        rintro rfl
        simpa [hc, pure, Except.pure, Yield.ofExcept, occurrence] using atoms
      have ha := Tree.get_of_field hn
      have fresh : a.key ≠ .text ρ.new := by
        intro hk
        obtain rfl : a = .str ρ.new := by cases a <;> simp_all [Atom.key]
        exact fresh ha
      obtain ⟨same, bound⟩ := h.captures_name at_ he tables hf fresh
        (own.imp id fun ho hi => ho hi a ha)
      simp only [Tree.rename_atom, Renaming.name, same, hc]
      cases b with
      | true => exact Yield.follows_empty
      | false =>
        have kept : (if inside then ρ.atom a else a) = a :=
          bound.resolve_left (by simp [hc])
        rw [kept]
        exact Yield.follows_single (h.place_occurrence _)

theorem follows_free (h : e.Renamed ρ function around inside e') (at_ : ρ.At t function around)
    (he : e ∈ t.events.items) (tables : ρ.Tables function table table')
    (fresh : e.node.get "name" ≠ .str ρ.new)
    (own : table'.declares function.label ρ.old = true ∨
      (e ∈ (walk (function :: around) ⟨function.get "id", true⟩).items → e.kind.refers = true →
        ∀ a, e.node.get "name" = .atom a → a.key ≠ ρ.old.key))
    (atoms : ∀ r ∈ (e.free table).items, ∃ a, r.name = .atom a) :
    (e.free table).Follows (fun r r' => r'.place = r.place) (e'.free table') := by
  have notFunction (hk : e.kind = .identifier ∨ e.kind = .variablePattern) : e.node ≠ function := by
    rintro hf
    obtain ⟨target, hr⟩ := exists_mem_reports he
    have hfun := at_.isFunction
    rw [← hf, Node.isFunction_eq_false_of_mem_reports hr hk] at hfun
    cases hfun
  have identifier (hk : e.kind = .identifier ∨ e.kind = .variablePattern)
      (atoms : ∀ r ∈ (e.freeIdentifier table).items, ∃ a, r.name = .atom a) :=
    h.follows_freeIdentifier at_ he tables (notFunction hk) fresh
      (own.imp id fun ho hi => ho hi (by rcases hk with hk | hk <;> rw [hk] <;> rfl)) atoms
  unfold free at atoms ⊢
  rw [h.kind]
  split
  · next hk =>
    simp only [hk] at atoms
    exact identifier (.inl hk) atoms
  · next hk =>
    simp only [hk] at atoms
    rw [insideDeclarator_alike h.alike_outer]
    cases hd : insideDeclarator e.outer with
    | error fault => exact Yield.follows_fail
    | ok b =>
      cases b with
      | true => exact Yield.follows_empty
      | false =>
        simp only [hd] at atoms
        exact identifier (.inr hk) atoms
  · next hk =>
    unfold freeThis
    rw [bindsThis_alike h.alike_chain]
    cases bindsThis e.chain with
    | error fault => exact Yield.follows_fail
    | ok b =>
      cases b
      · exact Yield.follows_single (h.place_occurrence _)
      · exact Yield.follows_empty
  · exact Yield.follows_empty

end Event.Renamed

end LexicalScope
