import Mathlib.Algebra.BigOperators.Group.List.Lemmas
import Mathlib.Algebra.GroupWithZero.Nat
import LexicalScope.Proofs.Reference.Partition
import LexicalScope.Proofs.Vocabulary.Success

/-! # Grouping as a stable sorted partition

Where names are texts, a list can be grouped, and its groups are told by its members alone: they
stand under strictly ascending names and hold, each in the order of the list, just the members of
their name. So every member is in one group, and grouping two lists one after the other joins
their groups name by name.
-/

namespace LexicalScope

namespace Grouping

variable {α : Type} {name : α → Tree} {as bs : List α} {names names' : List String}
  {gs gs' : List (NameGroup α)} {a : α}

/-- Groups under strictly ascending texts that hold the members of a list in its order. No group is
empty. -/
def SortedPartition (name : α → Tree) (as : List α) (gs : List (NameGroup α)) : Prop :=
  ∃ names : List String, Partition name as names gs ∧ names.Pairwise (· < ·)

/-- The members of the group of a name, or none if there is no such group. -/
def membersOf (x : Atom) (gs : List (NameGroup α)) : List α :=
  (gs.find? fun g => g.name = x).elim [] NameGroup.members

theorem Partition.nodup_names (h : Partition name as names gs) :
    (gs.map NameGroup.name).Nodup :=
  h.named ▸ h.distinct.map fun _ _ => Atom.str.inj

theorem Partition.eq_map (h : Partition name as names gs) : gs = names.map fun s =>
    ⟨.str s, as.filter fun a => (name a).atom? = some (.str s)⟩ := by
  have each : ∀ g ∈ gs, g = ⟨g.name, as.filter fun a => (name a).atom? = some g.name⟩ := by
    intro g hg
    rw [← h.members g hg]
  calc gs = gs.map fun g => ⟨g.name, as.filter fun a => (name a).atom? = some g.name⟩ := by
        rw [List.map_congr_left fun g hg => (each g hg).symm, List.map_id']
    _ = (gs.map NameGroup.name).map fun x => ⟨x, as.filter fun a => (name a).atom? = some x⟩ := by
        rw [List.map_map]
        rfl
    _ = _ := by
        rw [h.named, List.map_map]
        rfl

/-- A list has only one sorted partition. -/
theorem SortedPartition.unique (h : SortedPartition name as gs)
    (h' : SortedPartition name as gs') : gs' = gs := by
  obtain ⟨names, partition, ascending⟩ := h
  obtain ⟨names', partition', ascending'⟩ := h'
  have same : names' = names := List.Subset.antisymm_of_pairwise ascending' ascending
    (partition'.names_subset partition (List.Subset.refl as))
    (partition.names_subset partition' (List.Subset.refl as))
  rw [partition.eq_map, partition'.eq_map, same]

theorem Partition.existsUnique (h : Partition name as names gs) (ha : a ∈ as) :
    ∃! g, g ∈ gs ∧ a ∈ g.members := by
  have mem_iff {g : NameGroup α} (hg : g ∈ gs) :
      a ∈ g.members ↔ (name a).atom? = some g.name := by
    rw [h.members g hg, List.mem_filter]
    simp [ha]
  obtain ⟨g, hg, hn⟩ := h.covers a ha
  refine ⟨g, ⟨hg, (mem_iff hg).mpr hn⟩, ?_⟩
  rintro k ⟨hk, hm⟩
  have same : some k.name = some g.name := ((mem_iff hk).mp hm).symm.trans hn
  exact List.inj_on_of_nodup_map h.nodup_names hk hg (Option.some.inj same)

theorem sum_countP {key : α → Option Atom} {xs : List Atom} (nodup : xs.Nodup)
    (covers : ∀ a ∈ as, ∃ x ∈ xs, key a = some x) :
    (xs.map fun x => as.countP fun a => key a = some x).sum = as.length := by
  induction as with
  | nil => simp
  | cons a as ih =>
    obtain ⟨⟨x, hx, own⟩, covers⟩ := List.forall_mem_cons.mp covers
    have once : (xs.map fun y => if key a = some y then 1 else 0).sum = 1 := by
      rw [List.sum_map_eq_nsmul_single x _ fun y ne _ => by simp [own, ne.symm],
        List.count_eq_one_of_mem nodup hx]
      simp [own]
    simp only [List.countP_cons, decide_eq_true_eq, List.sum_map_add, ih covers, once,
      List.length_cons]

theorem Partition.sum_count (h : Partition name as names gs) :
    (gs.map NameGroup.count).sum = as.length := by
  have counts : gs.map NameGroup.count = (gs.map NameGroup.name).map fun x =>
      as.countP fun a => (name a).atom? = some x := by
    rw [List.map_map]
    refine List.map_congr_left fun g hg => ?_
    rw [NameGroup.count, h.members g hg, Function.comp_apply, List.countP_eq_length_filter]
  rw [counts]
  refine sum_countP h.nodup_names fun a ha => ?_
  obtain ⟨g, hg, hn⟩ := h.covers a ha
  exact ⟨g.name, List.mem_map_of_mem hg, hn⟩

theorem Partition.membersOf_eq (h : Partition name as names gs) (x : Atom) :
    membersOf x gs = as.filter fun a => (name a).atom? = some x := by
  unfold membersOf
  cases found : gs.find? fun g => g.name = x with
  | none =>
    rw [List.find?_eq_none] at found
    refine Eq.symm (List.filter_eq_nil_iff.mpr fun a ha named => ?_)
    obtain ⟨g, hg, hn⟩ := h.covers a ha
    have same : some x = some g.name := (of_decide_eq_true named).symm.trans hn
    exact found g hg (decide_eq_true (Option.some.inj same).symm)
  | some g =>
    have hn : g.name = x := by simpa using List.find?_some found
    rw [Option.elim_some, h.members g (List.mem_of_find?_eq_some found), hn]

end Grouping

open Grouping

/-- References named by texts are grouped into their one sorted partition. -/
theorem groupReferences_sortedPartition {rs : List FreeReference}
    (texts : ∀ r ∈ rs, ∃ s, r.name = .str s) :
    ∃ vs, groupReferences rs = .ok vs ∧ SortedPartition FreeReference.name rs vs ∧
      (∀ r ∈ rs, ∃! v, v ∈ vs ∧ r ∈ v.members) ∧ (vs.map NameGroup.count).sum = rs.length ∧
      (∀ vs', SortedPartition FreeReference.name rs vs' → vs' = vs) ∧
      ∀ rs' : List FreeReference, (∀ r ∈ rs', ∃ s, r.name = .str s) → ∃ vs' ws,
        groupReferences rs' = .ok vs' ∧ groupReferences (rs ++ rs') = .ok ws ∧
        ∀ x, membersOf x ws = membersOf x vs ++ membersOf x vs' := by
  obtain ⟨vs, grouped⟩ := groupReferences_ok texts
  obtain ⟨names, partition, ascending⟩ := groupByName_partition texts grouped
  have sorted : SortedPartition FreeReference.name rs vs := ⟨names, partition, ascending⟩
  refine ⟨vs, grouped, sorted, fun r hr => partition.existsUnique hr, partition.sum_count,
    fun vs' sorted' => sorted.unique sorted', fun rs' texts' => ?_⟩
  have all := List.forall_mem_append.mpr ⟨texts, texts'⟩
  obtain ⟨vs', grouped'⟩ := groupReferences_ok texts'
  obtain ⟨ws, joint⟩ := groupReferences_ok all
  obtain ⟨_, partition', -⟩ := groupByName_partition texts' grouped'
  obtain ⟨_, whole, -⟩ := groupByName_partition all joint
  refine ⟨vs', ws, grouped', joint, fun x => ?_⟩
  rw [whole.membersOf_eq, List.filter_append, partition.membersOf_eq, partition'.membersOf_eq]

def bareReference (l : Label) (name : String) : FreeReference :=
  ⟨.str name, .identifier l name, [.identifier l name]⟩

/-- Two references to one name with a reference to another between them. -/
def scatteredReferences : List FreeReference :=
  [bareReference 0 "😀", bareReference 1 "\uffff", bareReference 2 "😀"]

/-- Names are sorted by code points and not by 16-bit units. -/
theorem groupReferences_sortedPartition_units :
    (∀ r ∈ scatteredReferences, ∃ s, r.name = .str s) ∧ groupReferences scatteredReferences = .ok
      [⟨.str "\uffff", [bareReference 1 "\uffff"]⟩,
        ⟨.str "😀", [bareReference 0 "😀", bareReference 2 "😀"]⟩] := by
  have texts : ∀ r ∈ scatteredReferences, ∃ s, r.name = .str s := by
    simp [scatteredReferences, bareReference]
  have sorted : SortedPartition FreeReference.name scatteredReferences
      [⟨.str "\uffff", [bareReference 1 "\uffff"]⟩,
        ⟨.str "😀", [bareReference 0 "😀", bareReference 2 "😀"]⟩] :=
    ⟨["\uffff", "😀"], ⟨rfl, by decide,
      by simp [scatteredReferences, bareReference, Tree.str, Tree.atom?], by simp,
      by simp [scatteredReferences, bareReference, Tree.str, Tree.atom?]⟩, by decide⟩
  obtain ⟨vs, grouped, -, -, -, unique, -⟩ := groupReferences_sortedPartition texts
  exact ⟨texts, by rw [grouped, unique _ sorted]⟩

end LexicalScope
