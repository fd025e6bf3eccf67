import LexicalScope.Proofs.Binding.Alike
import LexicalScope.Proofs.Binding.Owner
import LexicalScope.Proofs.Fragment.Walk

/-! # What a fragment binds in a context

What a report of a fragment binds on its own it binds below further nodes too, unless it is an
import, which goes to the outermost of them. Below further nodes it may bind more, but only at those
nodes: what finds no owner within the fragment.
-/

namespace LexicalScope

section

variable {mode : ScopeMode} {around around' : List Node} {e : Event} {owner : Label} {x : Atom}

theorem nearest_append_iff {test : Kind → Bool} {ns ms : List Node} :
    Nearest test (ns ++ ms) owner ↔ Nearest test ns owner ∨
      (∀ n ∈ ns, test n.kind = false) ∧ Nearest test ms owner := by
  unfold Nearest
  rw [List.find?_append]
  cases hf : ns.find? fun n => test n.kind with
  | none =>
    have none : ∀ n ∈ ns, test n.kind = false := by simpa using hf
    simp [and_iff_right none]
  | some n =>
    have found : ¬ ∀ n ∈ ns, test n.kind = false := by
      intro none
      have hn := List.find?_some hf
      rw [none n (List.mem_of_find?_eq_some hf)] at hn
      cases hn
    simp [found]

theorem Nearest.append {test : Kind → Bool} {ns : List Node} (h : Nearest test ns owner)
    (ms : List Node) : Nearest test (ns ++ ms) owner := nearest_append_iff.mpr (.inl h)

theorem Event.root_below (e : Event) (around : List Node) (root : Node) :
    (e.below (around ++ [root])).root = root := by
  rw [Event.root, outer_below, ← List.append_assoc, List.getLastD_concat]

namespace Event.Binds

theorem of_below (h : (e.below around).Binds mode owner x) :
    (∃ m ∈ around, m.label = owner) ∨ e.Binds mode owner x := by
  cases h with
  | declared kind nearest declares target binds =>
    rw [path_below] at nearest
    rcases nearest_append_iff.mp nearest with nearest | ⟨-, nearest⟩
    · exact .inr (.declared kind nearest declares target binds)
    · exact .inl nearest.mem
  | function kind nearest named =>
    rcases nearest_append_iff.mp nearest with nearest | ⟨-, nearest⟩
    · exact .inr (.function kind nearest named)
    · exact .inl nearest.mem
  | classOuter kind nearest named =>
    rcases nearest_append_iff.mp nearest with nearest | ⟨-, nearest⟩
    · exact .inr (.classOuter kind nearest named)
    · exact .inl nearest.mem
  | parameter kind self declares binds => exact .inr (.parameter kind self declares binds)
  | functionSelf kind self named => exact .inr (.functionSelf kind self named)
  | classSelf kind self named => exact .inr (.classSelf kind self named)
  | caught kind handles self binds => exact .inr (.caught kind handles self binds)
  | imported kind root target named =>
    rcases List.eq_nil_or_concat around with rfl | ⟨ns, r, rfl⟩
    · rw [below_nil] at root
      exact .inr (.imported kind root target named)
    · rw [List.concat_eq_append, root_below] at root
      exact .inl ⟨r, by simp, root⟩

/-- What is bound without further nodes is bound below them at the same owner or at one of them. -/
theorem below (h : e.Binds mode owner x) (around : List Node) :
    (e.below around).Binds mode owner x ∨
      ∃ m ∈ around, (e.below around).Binds mode m.label x := by
  cases h with
  | declared kind nearest declares target binds =>
    exact .inl (.declared kind (nearest.append around) declares target binds)
  | function kind nearest named => exact .inl (.function kind (nearest.append around) named)
  | classOuter kind nearest named => exact .inl (.classOuter kind (nearest.append around) named)
  | parameter kind self declares binds => exact .inl (.parameter kind self declares binds)
  | functionSelf kind self named => exact .inl (.functionSelf kind self named)
  | classSelf kind self named => exact .inl (.classSelf kind self named)
  | caught kind handles self binds => exact .inl (.caught kind handles self binds)
  | imported kind root target named =>
    rcases List.eq_nil_or_concat around with rfl | ⟨ns, r, rfl⟩
    · rw [below_nil]
      exact .inl (.imported kind root target named)
    · refine .inr ⟨r, by simp, ?_⟩
      rw [List.concat_eq_append]
      exact .imported kind (congrArg Node.label (root_below e ns r)) target named

theorem beyond (h : (e.below around).Binds mode owner x) (free : ¬ e.Binds mode owner x)
    (hosts : mode.Hosts around') : ∃ m ∈ around', (e.below around').Binds mode m.label x := by
  have found {test : Kind → Bool} {ns : List Node} (ht : ∃ m ∈ around', test m.kind = true)
      (none : ∀ n ∈ ns, test n.kind = false) :
      ∃ m ∈ around', Nearest test (ns ++ around') m.label := by
    obtain ⟨m, hm⟩ := exists_find?_append ht []
    exact ⟨m, List.mem_of_find?_eq_some hm, nearest_append_iff.mpr (.inr ⟨none, m, hm, rfl⟩)⟩
  cases h with
  | declared kind nearest declares target binds =>
    rw [path_below] at nearest
    rcases nearest_append_iff.mp nearest with nearest | ⟨none, -⟩
    · exact absurd (.declared kind nearest declares target binds) free
    · obtain ⟨m, hm, nearest⟩ := found (hosts.declaration e) none
      exact ⟨m, hm, .declared kind nearest declares target binds⟩
  | function kind nearest named =>
    rcases nearest_append_iff.mp nearest with nearest | ⟨none, -⟩
    · exact absurd (.function kind nearest named) free
    · obtain ⟨m, hm, nearest⟩ := found hosts.function none
      exact ⟨m, hm, .function kind nearest named⟩
  | classOuter kind nearest named =>
    rcases nearest_append_iff.mp nearest with nearest | ⟨none, -⟩
    · exact absurd (.classOuter kind nearest named) free
    · obtain ⟨m, hm, nearest⟩ := found hosts.block none
      exact ⟨m, hm, .classOuter kind nearest named⟩
  | parameter kind self declares binds =>
    exact absurd (.parameter kind self declares binds) free
  | functionSelf kind self named => exact absurd (.functionSelf kind self named) free
  | classSelf kind self named => exact absurd (.classSelf kind self named) free
  | caught kind handles self binds => exact absurd (.caught kind handles self binds) free
  | imported kind root target named =>
    rcases List.eq_nil_or_concat around' with rfl | ⟨ns, r, rfl⟩
    · obtain ⟨m, hm, -⟩ := hosts.block
      cases hm
    · refine ⟨r, by simp, ?_⟩
      rw [List.concat_eq_append]
      exact .imported kind (congrArg Node.label (root_below e ns r)) target named

end Event.Binds

end

end LexicalScope
