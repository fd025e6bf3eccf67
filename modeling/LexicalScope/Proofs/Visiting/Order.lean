import LexicalScope.Proofs.Walk.Place

/-! # The order of reports

A walk reports a node under one kind after the other and only once under each, and it reports
nothing that lies below a node after that node.
-/

namespace LexicalScope

theorem filter_eq_singleton {α β : Type} [DecidableEq β] {f : α → β} {as : List α} {a : α}
    (nodup : (as.map f).Nodup) (h : a ∈ as) : as.filter (fun b => f b == f a) = [a] := by
  induction as with
  | nil => cases h
  | cons b bs ih =>
    obtain ⟨apart, rest⟩ := List.nodup_cons.mp nodup
    rcases List.mem_cons.mp h with rfl | h
    · have none : bs.filter (fun c => f c == f a) = [] := by
        refine List.filter_eq_nil_iff.mpr fun c hc same => apart ?_
        rw [← eq_of_beq same]
        exact List.mem_map_of_mem hc
      rw [List.filter_cons_of_pos (by simp), none]
    · have other : f b ≠ f a := fun same => apart (same ▸ List.mem_map_of_mem h)
      rw [List.filter_cons_of_neg (by simpa using other), ih rest h]

namespace Node

theorem nodup_reports (n : Node) (target : Bool) : (n.reports target).Nodup := by
  unfold reports
  split <;> simp

theorem length_filter_reports_le (n : Node) (target : Bool) :
    ((n.reports target).filter fun k => k == .identifier || k == .variablePattern).length ≤ 1 := by
  unfold reports
  split <;> first | exact List.length_filter_le _ [_] | simp

end Node

variable {outer : List Node} {s : Slot} {e : Event}

theorem nodup_labels_of_kind (nodup : s.value.labels.Nodup) (kind : Kind) :
    (((walk outer s).items.filter (·.kind == kind)).map (·.node.label)).Nodup := by
  refine nodup_labels_walk (· == kind) (fun n target => ?_) nodup
  rw [← List.countP_eq_length_filter]
  exact List.nodup_iff_count_le_one.mp (n.nodup_reports target) kind

/-- What is reported later does not lie below what is reported before. -/
theorem pairwise_walk (nodup : s.value.labels.Nodup) (ends : (walk outer s).fault = none) :
    (walk outer s).items.Pairwise fun e f => f.node.label ∉ Tree.labelsFields e.node.fields := by
  induction s using slot_induction generalizing outer with
  | step s ih =>
    cases hn : s.value.node? with
    | none => simp [walk_of_node?_eq_none hn]
    | some n =>
      rw [← Tree.tree_of_node? hn] at nodup
      have inner := ((fault_walk hn).mp ends).2.2
      have within {c : Slot} {e : Event} (he : e ∈ (walk (n :: outer) c).items) :
          Tree.labelsFields e.node.fields ⊆ c.value.labels :=
        List.Subset.trans (List.subset_cons_self _ _) (labels_subset_of_mem_walk he)
      rw [items_walk hn ends]
      refine List.pairwise_append.mpr ⟨?slots, ?own, ?after⟩
      case slots =>
        refine List.pairwise_flatMap.mpr ⟨fun c hc => ih n hn c hc (Node.nodup_slot nodup hc)
          (inner c hc), (Node.pairwise_slots nodup).imp fun apart e he f hf below => ?_⟩
        exact apart (within he below) (label_mem_of_mem_walk hf)
      case own =>
        exact List.pairwise_map.mpr
          (List.pairwise_of_forall fun _ _ => (Node.nodup_labels nodup).1)
      case after =>
        intro e he f hf below
        obtain ⟨c, hc, he⟩ := List.mem_flatMap.mp he
        obtain ⟨k, -, rfl⟩ := List.mem_map.mp hf
        exact (Node.nodup_labels nodup).1 (n.labels_slot_subset hc (within he below))

theorem reports_infix_walk (ends : (walk outer s).fault = none) (h : e ∈ (walk outer s).items) :
    ∃ target, ((e.node.reports target).map (⟨·, e.node, e.outer⟩)) <:+: (walk outer s).items := by
  induction s using slot_induction generalizing outer with
  | step s ih =>
    obtain ⟨n, hn, -⟩ := mem_walk h
    have inner := ((fault_walk hn).mp ends).2.2
    rcases (mem_walk_iff hn ends).mp h with ⟨c, hc, h⟩ | ⟨-, rfl, rfl⟩
    all_goals rw [items_walk hn ends]
    · obtain ⟨target, hi⟩ := ih n hn c hc (inner c hc) h
      obtain ⟨before, after, split⟩ := List.append_of_mem hc
      refine ⟨target, hi.trans ⟨before.flatMap fun c => (walk (n :: outer) c).items,
        (after.flatMap fun c => (walk (n :: outer) c).items) ++
          (n.reports s.target).map (⟨·, n, outer⟩), ?_⟩⟩
      rw [split]
      simp
    · exact ⟨s.target, (List.suffix_append _ _).isInfix⟩

end LexicalScope
