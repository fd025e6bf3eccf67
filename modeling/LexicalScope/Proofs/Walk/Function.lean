import Mathlib.Data.List.Chain
import LexicalScope.Proofs.Walk.Place

/-! # The inside of a function

Inside a function are its parameters and its body, but not its own name. What is reported is inside
or it goes past: then its path leads from the function on into the name, if it goes through the
function at all, and no node of the path is inside.
-/

namespace LexicalScope

section

variable {outer : List Node} {s : Slot} {e : Event}

theorem exists_inner_of_mem_walk (h : e ∈ (walk outer s).items) :
    ∃ inner, e.outer = inner ++ outer ∧ ∀ m ∈ e.node :: inner, m.label ∈ s.value.labels := by
  induction s using slot_induction generalizing outer with
  | step s ih =>
    obtain ⟨n, hn, h | ⟨c, hc, h⟩⟩ := mem_walk h
    · obtain ⟨-, -, rfl, rfl⟩ := Node.mem_events.mp h
      refine ⟨[], rfl, ?_⟩
      rw [← Tree.tree_of_node? hn]
      simp [Node.labels_tree]
    · obtain ⟨inner, ho, hl⟩ := ih n hn c hc h
      refine ⟨inner ++ [n], by rw [ho, List.append_assoc, List.singleton_append], ?_⟩
      rw [← Tree.tree_of_node? hn, Node.labels_tree]
      intro m hm
      rw [← List.cons_append, List.mem_append, List.mem_singleton] at hm
      rcases hm with hm | rfl
      · exact List.mem_cons_of_mem _ (n.labels_slot_subset hc (hl m hm))
      · exact List.mem_cons_self

theorem nodup_labels_of_mem_walk (nodup : s.value.labels.Nodup) (h : e ∈ (walk outer s).items) :
    e.node.tree.labels.Nodup := by
  induction s using slot_induction generalizing outer with
  | step s ih =>
    obtain ⟨n, hn, h | ⟨c, hc, h⟩⟩ := mem_walk h
    · obtain ⟨-, -, rfl, -⟩ := Node.mem_events.mp h
      rwa [Tree.tree_of_node? hn]
    · rw [← Tree.tree_of_node? hn] at nodup
      exact ih n hn c hc (Node.nodup_slot nodup hc) h

end

namespace Node

variable {n : Node}

def innerLabels (n : Node) : List Label := (n.get "params").labels ++ (n.get "body").labels

theorem slots_of_isFunction (h : n.kind.isFunction = true) :
    n.slots = n.target "id" ++ n.targets "params" ++ n.plain "body" := by
  cases hk : n.kind <;> simp_all [Kind.isFunction, slots]

theorem items_slots_of_isFunction (h : n.kind.isFunction = true) :
    n.slots.items = ⟨n.get "id", true⟩ :: (n.targets "params" ++ n.plain "body").items := by
  rw [slots_of_isFunction h, Yield.append_assoc, Yield.items_append _ rfl]
  rfl

theorem innerLabels_subset (n : Node) : n.innerLabels ⊆ n.tree.labels := by
  intro l hl
  rcases List.mem_append.mp hl with hl | hl
  · exact n.labels_get_subset "params" hl
  · exact n.labels_get_subset "body" hl

theorem not_mem_innerLabels (h : n.tree.labels.Nodup) : n.label ∉ n.innerLabels := by
  have inside : n.innerLabels.Subperm (Tree.labelsFields n.fields) := by
    simpa [innerLabels, get] using
      subperm_members (show ["params", "body"].Nodup by decide) n.fields
  exact fun hl => (nodup_labels h).1 (inside.subset hl)

theorem disjoint_innerLabels (h : n.tree.labels.Nodup) :
    (n.get "id").labels.Disjoint n.innerLabels := by
  obtain ⟨ls, perm, sublist⟩ :=
    subperm_members (show ["id", "params", "body"].Nodup by decide) n.fields
  have nodup := perm.nodup_iff.mp ((nodup_labels h).2.sublist sublist)
  rw [List.flatMap_cons, List.nodup_append'] at nodup
  simpa [innerLabels, get] using nodup.2.2

theorem labels_subset_innerLabels {c : Slot}
    (hc : c ∈ (n.targets "params" ++ n.plain "body").items) :
    c.value.labels ⊆ n.innerLabels := by
  intro l hl
  rcases Yield.mem_append hc with hc | hc
  · obtain ⟨t, ht, rfl⟩ := List.mem_map.mp hc
    obtain ⟨vs, hv⟩ : ∃ vs, (n.get "params").elements = .ok vs := by
      cases hv : (n.get "params").elements with
      | error e => simp [hv, Yield.ofExcept] at ht
      | ok vs => exact ⟨vs, rfl⟩
    rw [hv] at ht
    refine List.mem_append_left _ ((Tree.labels_elements_sublist hv).subset ?_)
    exact List.mem_flatMap.mpr ⟨t, ht, hl⟩
  · obtain rfl := List.mem_singleton.mp hc
    exact List.mem_append_right _ hl

end Node

/-- A function at its place in a tree with distinct labels. -/
structure Tree.FunctionAt (t : Tree) (function : Node) (around : List Node) : Prop where
  ends : t.events.fault = none
  visits : Visits [] ⟨t, false⟩ function around
  isFunction : function.kind.isFunction = true
  nodup : t.labels.Nodup

/-- Of two nodes in a row on a path, the lower one is the name of the upper one. -/
def EntersByName (function : Label) (m n : Node) : Prop :=
  n.label = function → m.tree = n.get "id"

namespace Event

/-- A report in a slot inside a function with a label. -/
def Inside (function : Label) (e : Event) : Prop :=
  ∃ n around, n.label = function ∧ n.kind.isFunction = true ∧
    ∃ c : Slot, c.value.labels ⊆ n.innerLabels ∧ e ∈ (walk (n :: around) c).items

/-- The path of a report goes past the inside of every function with a label. -/
def Past (function : Label) (e : Event) : Prop := e.path.IsChain (EntersByName function)

def LiesIn (function : Label) (e : Event) : Prop :=
  ∃ n ∈ e.path, n.label = function ∧ e.node.label ∈ n.innerLabels

theorem Inside.liesIn {function : Label} {e : Event} (h : e.Inside function) :
    e.LiesIn function := by
  obtain ⟨n, around, hl, -, c, hc, he⟩ := h
  obtain ⟨inner, ho, labels⟩ := exists_inner_of_mem_walk he
  refine ⟨n, ?_, hl, hc (labels _ List.mem_cons_self)⟩
  rw [path, ho]
  exact List.mem_cons_of_mem _ (List.mem_append_right _ List.mem_cons_self)

end Event

namespace Tree.FunctionAt

variable {t : Tree} {function n : Node} {around ns : List Node} {e : Event}

theorem unique (at_ : t.FunctionAt function around) (h : Visits [] ⟨t, false⟩ n ns)
    (hl : n.label = function.label) : n = function ∧ ns = around :=
  Visits.eq_of_label_eq at_.nodup h at_.visits hl

theorem nodup_function (at_ : t.FunctionAt function around) : function.tree.labels.Nodup := by
  obtain ⟨e, he, rfl, -⟩ := at_.visits
  exact nodup_labels_of_mem_walk (s := ⟨t, false⟩) at_.nodup he

theorem not_mem_around (at_ : t.FunctionAt function around) : function ∉ around := by
  intro hf
  obtain ⟨before, rest, hp⟩ := List.append_of_mem hf
  have hs : function :: rest <:+ function :: around :=
    ⟨function :: before, by rw [hp, List.cons_append]⟩
  obtain ⟨-, hr⟩ := at_.unique (at_.visits.of_suffix at_.ends hs (Nat.zero_le _)) rfl
  have hlen := congrArg List.length hp
  rw [List.length_append, List.length_cons, hr] at hlen
  omega

theorem eq_of_mem_path (at_ : t.FunctionAt function around) (he : e ∈ t.events.items)
    (hn : n ∈ e.path) (hl : n.label = function.label) : n = function := by
  have met : ∃ rest, Visits [] ⟨t, false⟩ n rest := by
    rcases List.mem_cons.mp hn with rfl | hn
    · exact ⟨_, Visits.of_mem_walk he⟩
    · exact (Visits.of_mem_walk he).of_mem at_.ends hn
  obtain ⟨rest, hv⟩ := met
  exact (at_.unique hv hl).1

theorem not_mem_innerLabels (at_ : t.FunctionAt function around) (he : e ∈ t.events.items)
    (past : e.Past function.label) {m : Node} (hm : m ∈ e.path) :
    m.label ∉ function.innerLabels := by
  intro hl
  obtain ⟨before, rest, hp⟩ := List.append_of_mem hm
  have hv : Visits [] ⟨t, false⟩ m rest :=
    (Visits.of_mem_walk he).of_suffix at_.ends ⟨before, hp.symm⟩ (Nat.zero_le _)
  have below : function :: around <:+ m :: rest :=
    at_.visits.suffix_of_mem_labels at_.nodup hv (function.innerLabels_subset hl)
  -- the node just below the function on the way to the one inside
  obtain ⟨k, inner, hk⟩ : ∃ k inner, m :: rest = inner ++ k :: function :: around := by
    obtain ⟨inner, hi⟩ := below
    rcases List.eq_nil_or_concat inner with rfl | ⟨inner, k, rfl⟩
    · obtain ⟨rfl, -⟩ := List.cons.inj hi
      exact absurd hl (Node.not_mem_innerLabels at_.nodup_function)
    · exact ⟨k, inner, by simpa using hi.symm⟩
  have name : k.tree = function.get "id" := by
    have chain := List.isChain_iff_forall_rel_of_append_cons_cons.mp past
    refine @chain k function (before ++ inner) around ?_ rfl
    rw [hp, hk, List.append_assoc]
  have within : m.tree.labels ⊆ k.tree.labels :=
    hv.labels_subset (hk ▸ List.mem_append_right _ List.mem_cons_self)
  exact Node.disjoint_innerLabels at_.nodup_function (name ▸ within List.mem_cons_self) hl

theorem not_liesIn (at_ : t.FunctionAt function around) (he : e ∈ t.events.items)
    (past : e.Past function.label) : ¬ e.LiesIn function.label := by
  rintro ⟨n, hn, hl, hi⟩
  obtain rfl := at_.eq_of_mem_path he hn hl
  exact at_.not_mem_innerLabels he past List.mem_cons_self hi

end Tree.FunctionAt

end LexicalScope
