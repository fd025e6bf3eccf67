import Mathlib.Data.List.Sort
import Mathlib.Data.String.Basic
import Mathlib.Tactic.Choose
import LexicalScope.Proofs.Reference.Alike
import LexicalScope.Proofs.Reference.Group

/-! # Groups as a partition

Where names are texts, the groups of a list are the parts of its members that share a name, each in
the order of the list, and their names ascend strictly. So a list and a permutation of it have
groups of the same names whose members are permutations of one another.
-/

namespace LexicalScope

variable {α : Type}

namespace NameGroup

def extend (x : Atom) (a : α) (g : NameGroup α) : NameGroup α :=
  if g.name = x then { g with members := g.members ++ [a] } else g

@[simp]
theorem name_extend (x : Atom) (a : α) (g : NameGroup α) : (g.extend x a).name = g.name := by
  unfold extend
  split <;> rfl

theorem members_extend (x : Atom) (a : α) (g : NameGroup α) :
    (g.extend x a).members = g.members ++ if g.name = x then [a] else [] := by
  unfold extend
  split <;> simp

end NameGroup

namespace Grouping

/-- Groups under some names hold the members of a list that have these names, in its order. -/
structure Partition (name : α → Tree) (as : List α) (names : List String)
    (gs : List (NameGroup α)) : Prop where
  named : gs.map NameGroup.name = names.map .str
  distinct : names.Nodup
  members : ∀ g ∈ gs, g.members = as.filter fun a => (name a).atom? = some g.name
  nonempty : ∀ g ∈ gs, g.members ≠ []
  covers : ∀ a ∈ as, ∃ g ∈ gs, (name a).atom? = some g.name

variable {name : α → Tree} {as : List α} {names : List String} {gs : List (NameGroup α)} {a : α}
  {s : String}

theorem partition_nil (name : α → Tree) : Partition name [] [] [] where
  named := rfl
  distinct := List.nodup_nil
  members := by simp
  nonempty := by simp
  covers := by simp

theorem Partition.exists_text (h : Partition name as names gs) {g : NameGroup α} (hg : g ∈ gs) :
    ∃ s ∈ names, g.name = .str s := by
  have hn : g.name ∈ names.map .str := h.named ▸ List.mem_map_of_mem hg
  obtain ⟨s, hs, hn⟩ := List.mem_map.mp hn
  exact ⟨s, hs, hn.symm⟩

theorem add_of_mem (hs : s ∈ names) (hn : gs.map NameGroup.name = names.map .str)
    (hd : names.Nodup) : add (.str s) a gs = gs.map (NameGroup.extend (.str s) a) := by
  induction names generalizing gs with
  | nil => simp at hs
  | cons t ts ih =>
    cases gs with
    | nil => simp at hn
    | cons g gs =>
      obtain ⟨ht, hn⟩ := List.cons.inj hn
      obtain ⟨absent, hd⟩ := List.nodup_cons.mp hd
      have key : (g.key == (Atom.str s).key) = decide (t = s) := by
        simp [NameGroup.key, ht, Bool.beq_eq_decide_eq]
      rw [add, key, List.map_cons, NameGroup.extend, ht]
      by_cases hts : t = s
      · subst hts
        have rest : gs.map (NameGroup.extend (.str t) a) = gs.map id := by
          apply List.map_congr_left
          intro k hk
          have hm : k.name ∈ ts.map .str := hn ▸ List.mem_map_of_mem hk
          obtain ⟨u, hu, hk⟩ := List.mem_map.mp hm
          rw [NameGroup.extend, if_neg, id]
          rintro h
          obtain rfl := Atom.str.inj (hk.trans h)
          exact absent hu
        simp [rest]
      · have hs := (List.mem_cons.mp hs).resolve_left (Ne.symm hts)
        rw [ih hs hn hd]
        simp [hts]

theorem add_of_not_mem (hs : s ∉ names) (hn : gs.map NameGroup.name = names.map .str) :
    add (.str s) a gs = gs ++ [⟨.str s, [a]⟩] := by
  induction names generalizing gs with
  | nil =>
    obtain rfl := List.map_eq_nil_iff.mp hn
    rfl
  | cons t ts ih =>
    cases gs with
    | nil => simp at hn
    | cons g gs =>
      obtain ⟨ht, hn⟩ := List.cons.inj hn
      obtain ⟨hst, hs⟩ := not_or.mp (mt List.mem_cons.mpr hs)
      have key : ¬ (g.key == (Atom.str s).key) = true := by
        simp [NameGroup.key, ht, Ne.symm hst]
      rw [add, if_neg key, ih hs hn, List.cons_append]

theorem filter_name_concat (x : Atom) (hs : name a = .str s) :
    ((as ++ [a]).filter fun b => (name b).atom? = some x) =
      (as.filter fun b => (name b).atom? = some x) ++ if x = .str s then [a] else [] := by
  have last : (name a).atom? = some x ↔ x = .str s := by simp [hs, Tree.str, Tree.atom?, eq_comm]
  rw [List.filter_append, List.filter_singleton, Bool.cond_eq_ite]
  simp only [last, decide_eq_true_eq]

theorem Partition.extend (h : Partition name as names gs) (hs : name a = .str s)
    (known : s ∈ names) :
    Partition name (as ++ [a]) names (gs.map (NameGroup.extend (.str s) a)) where
  named := by
    rw [List.map_map, ← h.named]
    exact List.map_congr_left fun g _ => NameGroup.name_extend _ _ g
  distinct := h.distinct
  members k hk := by
    obtain ⟨g, hg, rfl⟩ := List.mem_map.mp hk
    rw [NameGroup.name_extend, NameGroup.members_extend, filter_name_concat g.name hs,
      h.members g hg]
  nonempty k hk := by
    obtain ⟨g, hg, rfl⟩ := List.mem_map.mp hk
    rw [NameGroup.members_extend]
    exact List.append_ne_nil_of_left_ne_nil (h.nonempty g hg) _
  covers b hb := by
    rcases List.mem_append.mp hb with hb | hb
    · obtain ⟨g, hg, hn⟩ := h.covers b hb
      exact ⟨_, List.mem_map_of_mem hg, (NameGroup.name_extend _ _ g).symm ▸ hn⟩
    · obtain rfl := List.mem_singleton.mp hb
      have hn : Atom.str s ∈ gs.map NameGroup.name := h.named ▸ List.mem_map_of_mem known
      obtain ⟨g, hg, hn⟩ := List.mem_map.mp hn
      exact ⟨_, List.mem_map_of_mem hg, by rw [NameGroup.name_extend, hn, hs]; rfl⟩

theorem Partition.name_ne (h : Partition name as names gs) (unknown : s ∉ names) {b : α}
    (hb : b ∈ as) : (name b).atom? ≠ some (.str s) := by
  intro hn
  obtain ⟨g, hg, hb⟩ := h.covers b hb
  obtain ⟨t, ht, hg⟩ := h.exists_text hg
  rw [hg, hn] at hb
  obtain rfl : s = t := by simpa using hb
  exact unknown ht

theorem Partition.concat (h : Partition name as names gs) (hs : name a = .str s)
    (unknown : s ∉ names) :
    Partition name (as ++ [a]) (names ++ [s]) (gs ++ [⟨.str s, [a]⟩]) where
  named := by simp [h.named]
  distinct := by
    refine List.nodup_append'.mpr ⟨h.distinct, List.nodup_singleton s, ?_⟩
    rwa [List.disjoint_singleton]
  members g hg := by
    rw [filter_name_concat g.name hs]
    rcases List.mem_append.mp hg with hg | hg
    · obtain ⟨t, ht, hn⟩ := h.exists_text hg
      have hts : t ≠ s := by
        rintro rfl
        exact unknown ht
      rw [h.members g hg, hn, if_neg (by simpa using hts), List.append_nil]
    · obtain rfl := List.mem_singleton.mp hg
      have none : (as.filter fun b => (name b).atom? = some (.str s)) = [] :=
        List.filter_eq_nil_iff.mpr fun b hb => by simpa using h.name_ne unknown hb
      simp [none]
  nonempty g hg := by
    rcases List.mem_append.mp hg with hg | hg
    · exact h.nonempty g hg
    · obtain rfl := List.mem_singleton.mp hg
      exact List.cons_ne_nil a []
  covers b hb := by
    rcases List.mem_append.mp hb with hb | hb
    · obtain ⟨g, hg, hn⟩ := h.covers b hb
      exact ⟨g, List.mem_append_left _ hg, hn⟩
    · obtain rfl := List.mem_singleton.mp hb
      exact ⟨_, List.mem_append_right _ (List.mem_singleton_self _), by rw [hs]; rfl⟩

theorem Partition.add (h : Partition name as names gs) (hs : name a = .str s) :
    ∃ names', Partition name (as ++ [a]) names' (Grouping.add (.str s) a gs) := by
  by_cases known : s ∈ names
  · exact ⟨names, add_of_mem (a := a) known h.named h.distinct ▸ h.extend hs known⟩
  · exact ⟨names ++ [s], add_of_not_mem (a := a) known h.named ▸ h.concat hs known⟩

theorem Partition.addAll {bs : List α} (h : Partition name as names gs)
    (texts : ∀ b ∈ bs, ∃ s, name b = .str s) {gs' : List (NameGroup α)}
    (hg : Grouping.addAll name gs bs = .ok gs') :
    ∃ names', Partition name (as ++ bs) names' gs' := by
  induction bs generalizing as names gs with
  | nil =>
    obtain rfl := Except.ok.inj hg
    rw [List.append_nil]
    exact ⟨names, h⟩
  | cons b bs ih =>
    obtain ⟨⟨s, hs⟩, texts⟩ := List.forall_mem_cons.mp texts
    simp only [Grouping.addAll, hs, Tree.str, Tree.asName, bind, Except.bind] at hg
    obtain ⟨names', h⟩ := h.add hs
    rw [List.append_cons]
    exact ih h texts hg

theorem Partition.perm {gs' : List (NameGroup α)} {names' : List String}
    (h : Partition name as names gs) (hg : gs'.Perm gs)
    (hn : gs'.map NameGroup.name = names'.map .str) : Partition name as names' gs' where
  named := hn
  distinct := by
    have perm : (names'.map Atom.str).Perm (names.map .str) := hn ▸ h.named ▸ hg.map _
    have injective : Function.Injective Atom.str := fun _ _ => Atom.str.inj
    exact ((List.map_perm_map_iff injective).mp perm).nodup_iff.mpr h.distinct
  members g hm := h.members g (hg.subset hm)
  nonempty g hm := h.nonempty g (hg.subset hm)
  covers a ha := by
    obtain ⟨g, hm, hn⟩ := h.covers a ha
    exact ⟨g, hg.symm.subset hm, hn⟩

theorem Partition.names_subset {bs : List α} {names' : List String} {gs' : List (NameGroup α)}
    (h : Partition name as names gs) (h' : Partition name bs names' gs') (sub : as ⊆ bs) :
    names ⊆ names' := by
  intro s hs
  have hm : Atom.str s ∈ gs.map NameGroup.name := h.named ▸ List.mem_map_of_mem hs
  obtain ⟨g, hg, hn⟩ := List.mem_map.mp hm
  obtain ⟨a, ha⟩ := List.exists_mem_of_ne_nil _ (h.nonempty g hg)
  rw [h.members g hg, List.mem_filter, hn] at ha
  obtain ⟨k, hk, hn'⟩ := h'.covers a (sub ha.1)
  obtain ⟨t, ht, hkt⟩ := h'.exists_text hk
  have same : k.name = .str s := Option.some.inj (hn'.symm.trans (by simpa using ha.2))
  rwa [Atom.str.inj (hkt.symm.trans same)] at ht

end Grouping

open Grouping

variable {name : α → Tree} {as bs : List α} {gs gs' : List (NameGroup α)}

theorem Grouping.Partition.sortBy {names : List String} (h : Partition name as names gs)
    (hs : Key.sortBy NameGroup.key gs = .ok gs') :
    ∃ names', Partition name as names' gs' ∧ names'.Pairwise (· < ·) := by
  unfold Key.sortBy at hs
  split at hs
  · obtain rfl := Except.ok.inj hs
    choose! text texts using fun g (hg : g ∈ gs) => h.exists_text hg
    have texts {g : NameGroup α} (hg : g ∈ gs) : g.name = .str (text g) := (texts g hg).2
    have order : (gs.mergeSort fun g k => (k.key.less? g.key).all (!·)).map text =
        (gs.map text).mergeSort fun s t => !decide (t < s) := by
      apply List.map_mergeSort
      intro g hg k hk
      simp [NameGroup.key, texts hg, texts hk, Key.less?]
    have ascending : ((gs.map text).mergeSort fun s t => !decide (t < s)).Pairwise (· ≤ ·) := by
      have sorted := @List.pairwise_mergeSort String fun s t => !decide (t < s)
      simp only [Bool.or_eq_true, Bool.not_eq_true', decide_eq_false_iff_not, not_lt] at sorted
      exact sorted (fun _ _ _ => le_trans) le_total (gs.map text)
    have named : (gs.mergeSort fun g k => (k.key.less? g.key).all (!·)).map NameGroup.name =
        ((gs.map text).mergeSort fun s t => !decide (t < s)).map .str := by
      rw [← order, List.map_map]
      exact List.map_congr_left fun g hg => texts ((List.mergeSort_perm _ _).subset hg)
    have partition := h.perm (List.mergeSort_perm gs fun g k => (k.key.less? g.key).all (!·)) named
    exact ⟨_, partition, ascending.imp₂ (fun _ _ => lt_of_le_of_ne) partition.distinct⟩
  · cases hs

/-- Grouping a list whose names are texts gives a partition of it under ascending names. -/
theorem groupByName_partition (texts : ∀ a ∈ as, ∃ s, name a = .str s)
    (h : groupByName name as = .ok gs) :
    ∃ names, Partition name as names gs ∧ names.Pairwise (· < ·) := by
  unfold groupByName at h
  cases ha : addAll name [] as with
  | error e => simp [ha, bind, Except.bind] at h
  | ok groups =>
    rw [ha] at h
    obtain ⟨names, partition⟩ : ∃ names, Partition name as names groups :=
      (partition_nil name).addAll texts ha
    exact partition.sortBy h

theorem exists_mem_groupByName {a : α} (texts : ∀ a ∈ as, ∃ s, name a = .str s)
    (h : groupByName name as = .ok gs) (ha : a ∈ as) :
    ∃ g ∈ gs, a ∈ g.members ∧ name a = .atom g.name := by
  obtain ⟨names, partition, -⟩ := groupByName_partition texts h
  obtain ⟨g, hg, hn⟩ := partition.covers a ha
  refine ⟨g, hg, ?_, ?_⟩
  · rw [partition.members g hg]
    exact List.mem_filter.mpr ⟨ha, by simpa using hn⟩
  · obtain ⟨s, hs⟩ := texts a ha
    rw [hs] at hn ⊢
    exact congrArg Tree.atom (Option.some.inj hn)

theorem mem_groupByName_iff {a : α} (texts : ∀ a ∈ as, ∃ s, name a = .str s)
    (h : groupByName name as = .ok gs) : (∃ g ∈ gs, a ∈ g.members) ↔ a ∈ as := by
  constructor
  · rintro ⟨g, hg, ha⟩
    obtain ⟨names, partition, -⟩ := groupByName_partition texts h
    rw [partition.members g hg] at ha
    exact (List.mem_filter.mp ha).1
  · intro ha
    obtain ⟨g, hg, ha, -⟩ := exists_mem_groupByName texts h ha
    exact ⟨g, hg, ha⟩

theorem groupByName_perm (texts : ∀ a ∈ as, ∃ s, name a = .str s) (perm : as.Perm bs)
    (h : groupByName name as = .ok gs) (h' : groupByName name bs = .ok gs') :
    List.Forall₂ (fun g g' => g'.name = g.name ∧ g.members.Perm g'.members) gs gs' := by
  obtain ⟨names, partition, ascending⟩ := groupByName_partition texts h
  obtain ⟨names', partition', ascending'⟩ :=
    groupByName_partition (fun b hb => texts b (perm.symm.subset hb)) h'
  have names_eq : names = names' := List.Subset.antisymm_of_pairwise ascending ascending'
    (partition.names_subset partition' perm.subset)
    (partition'.names_subset partition perm.symm.subset)
  have named : gs'.map NameGroup.name = gs.map NameGroup.name := by
    rw [partition.named, partition'.named, names_eq]
  rw [List.forall₂_iff_get]
  refine ⟨by simpa using (congrArg List.length named).symm, ?_⟩
  intro i hi hi'
  have name_eq : (gs'.get ⟨i, hi'⟩).name = (gs.get ⟨i, hi⟩).name := by
    have same := congrArg (·[i]?) named
    simpa [hi, hi'] using same
  refine ⟨name_eq, ?_⟩
  rw [partition.members _ (List.get_mem _ _), partition'.members _ (List.get_mem _ _), name_eq]
  exact perm.filter _

/-- Permuted references make groups of the same names with the same places. -/
theorem groupReferences_perm {rs rs' : List FreeReference} {vs vs' : List FreeVariable}
    (texts : ∀ r ∈ rs, ∃ s, r.name = .str s)
    (perm : (rs.map FreeReference.place).Perm (rs'.map FreeReference.place))
    (h : groupReferences rs = .ok vs) (h' : groupReferences rs' = .ok vs') :
    List.Forall₂ (fun v v' => v'.name = v.name ∧
      (v.members.map FreeReference.place).Perm (v'.members.map FreeReference.place)) vs vs' := by
  have grouped {rs : List FreeReference} {vs : List FreeVariable}
      (h : groupReferences rs = .ok vs) :
      groupByName Prod.fst (rs.map FreeReference.place) =
        .ok (vs.map (NameGroup.map FreeReference.place)) := by
    have h : groupByName (Prod.fst ∘ FreeReference.place) rs = .ok vs := h
    rw [groupByName_map, h]
    rfl
  have texts : ∀ place ∈ rs.map FreeReference.place, ∃ s, place.1 = .str s := by
    intro place hp
    obtain ⟨r, hr, rfl⟩ := List.mem_map.mp hp
    exact texts r hr
  have groups := groupByName_perm texts perm (grouped h) (grouped h')
  rwa [List.forall₂_map_left_iff, List.forall₂_map_right_iff] at groups

end LexicalScope
