import LexicalScope.Proofs.Visiting.Shown
import LexicalScope.Proofs.Vocabulary.Check

/-! # Testing for standard trees

A test of one node after the other that only standard trees pass.
-/

namespace LexicalScope

namespace Node

variable {n : Node}

def holdsOnlyIn (ms : List Member) (field : String × Tree) : Bool :=
  metadataKeys.contains field.1 ||
    match field.2 with
    | .arr _ vs => ms.contains (.many field.1) || vs.all fun v => v.node?.isNone
    | v => ms.contains (.one field.1) || v.node?.isNone

def isStandard (n : Node) : Bool :=
  !n.kind.isForeign && decide (n.fields.map Prod.fst).Nodup &&
    n.kind.members?.all (fun ms => n.fields.all (holdsOnlyIn ms) &&
      ms.all fun member => !member.list || (n.get member.key).isListOf fun _ => true) &&
    (n.kind != .objectPattern || (n.get "properties").isListOf fun v =>
      v.node?.all fun p => p.kind == .property || p.kind == .restElement)

theorem holds_of_holdsOnlyIn {ms : List Member} {key : String} {m : Node}
    (h : n.fields.all (holdsOnlyIn ms) = true) :
    (n.HasOne key m → key ∈ metadataKeys ∨ .one key ∈ ms) ∧
      (n.HasAmong key m → key ∈ metadataKeys ∨ .many key ∈ ms) := by
  have test (present : n.get key ≠ .null) : holdsOnlyIn ms (key, n.get key) = true :=
    List.all_eq_true.mp h _ (mem_fields_of_get present)
  constructor
  · intro hm
    obtain ⟨l, fs, hg⟩ : ∃ l fs, n.get key = .obj l fs := ⟨_, _, (Tree.tree_of_node? hm).symm⟩
    have own := test (by simp [hg, Tree.null])
    rw [HasOne, hg] at hm
    simpa [holdsOnlyIn, hg, hm] using own
  · rintro ⟨l, vs, hg, v, hv, hm⟩
    have own := test (by simp [hg, Tree.null])
    simp only [holdsOnlyIn, hg, Bool.or_eq_true, List.contains_iff_mem, List.all_eq_true] at own
    rcases own with own | own | own
    · exact .inl own
    · exact .inr own
    · simpa [hm] using own v hv

theorem isStandard_sound (n : Node) (h : n.isStandard = true) : n.Standard := by
  simp only [isStandard, Bool.and_eq_true, Bool.not_eq_true', decide_eq_true_eq] at h
  obtain ⟨⟨⟨syntactic, keys⟩, members⟩, entries⟩ := h
  have tests (ms : List Member) (hms : n.kind.members? = some ms) :
      n.fields.all (holdsOnlyIn ms) = true ∧ ms.all (fun member => !member.list ||
        (n.get member.key).isListOf fun _ => true) = true := by
    rw [hms] at members
    exact Bool.and_eq_true_iff.mp members
  refine ⟨syntactic, keys, fun ms hms key m => (holds_of_holdsOnlyIn (tests ms hms).1).1,
    fun ms hms key m => (holds_of_holdsOnlyIn (tests ms hms).1).2, fun ms hms key many => ?_,
    fun object p => ?_⟩
  · exact Tree.isListOf_sound (fun _ _ => trivial)
      (List.all_eq_true.mp (tests ms hms).2 _ many)
  · rintro ⟨l, vs, hg, v, hv, hp⟩
    simp only [object, hg, Tree.isListOf, bne_self_eq_false, Bool.false_or,
      List.all_eq_true] at entries
    simpa [hp] using entries v hv

end Node

theorem Tree.standard_of_all {t : Tree} (h : t.nodes.all Node.isStandard = true) : t.Standard :=
  fun n hn => n.isStandard_sound (List.all_eq_true.mp h n hn)

end LexicalScope
