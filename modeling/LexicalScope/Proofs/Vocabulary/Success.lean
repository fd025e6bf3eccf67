import LexicalScope.Globals
import LexicalScope.Proofs.Reference.Exactness
import LexicalScope.Proofs.Vocabulary.Entries

/-! # Analyses in the vocabulary succeed

For a program of the vocabulary every stage runs to its end: its mode can be resolved, its
declarations bound, its references classified, and the free ones grouped, as all names are texts.
-/

namespace LexicalScope

variable {ns : List Node}

theorem insideDeclarator_ok (h : ∀ m ∈ ns, m.kind ≠ .compound) :
    ∃ b, insideDeclarator ns = .ok b := by
  induction ns with
  | nil => exact ⟨false, rfl⟩
  | cons n ns ih =>
    obtain ⟨hn, hs⟩ := List.forall_mem_cons.mp h
    rw [insideDeclarator, if_neg hn]
    split
    · exact ih hs
    · exact ⟨_, rfl⟩

theorem bindsThis_ok (h : ∀ m ∈ ns, m.kind ≠ .compound) : ∃ b, bindsThis ns = .ok b := by
  induction ns with
  | nil => exact ⟨false, rfl⟩
  | cons n ns ih =>
    obtain ⟨hn, hs⟩ := List.forall_mem_cons.mp h
    rw [bindsThis, if_neg hn]
    split
    · exact ⟨true, rfl⟩
    · split
      · exact ⟨true, rfl⟩
      · exact ih hs

namespace Event

theorem fault_freeIdentifier {table : ScopeTable} {e : Event}
    (named : ∃ s, e.node.get "name" = .str s) : (e.freeIdentifier table).fault = none := by
  obtain ⟨s, hs⟩ := named
  have hn : e.node.get "name" ≠ .null := by simp [hs, Tree.str, Tree.null]
  have hf := Tree.field_eq_of_get hn
  rw [hs] at hf
  exact fault_freeIdentifier_of_text hf

theorem fault_free_of_named {table : ScopeTable} {e : Event}
    (typed : ∀ m ∈ e.path, m.kind ≠ .compound)
    (named : e.kind = .identifier ∨ e.kind = .variablePattern → ∃ s, e.node.get "name" = .str s) :
    (e.free table).fault = none := by
  unfold free
  split
  case h_1 hk => exact fault_freeIdentifier (named (.inl hk))
  case h_2 hk =>
    obtain ⟨b, hb⟩ := insideDeclarator_ok fun m hm => typed m (List.mem_cons_of_mem _ hm)
    rw [hb]
    cases b
    · exact fault_freeIdentifier (named (.inr hk))
    · rfl
  case h_3 hk =>
    obtain ⟨b, hb⟩ := bindsThis_ok fun m hm => typed m (mem_chain.mp hm)
    rw [freeThis, hb]
    cases b <;> exact Yield.fault_ofExcept.mpr ⟨_, rfl⟩
  case h_4 => rfl

end Event

theorem Tree.MadeOf.exists_text {P : Tree → Prop} {t : Tree} {e : Event}
    (h : t.MadeOf (Node.Shaped P)) (he : e ∈ t.events.items)
    (hk : e.kind = .identifier ∨ e.kind = .variablePattern) : ∃ s, e.node.get "name" = .str s := by
  obtain ⟨target, hr⟩ := exists_mem_reports he
  have shape := (h.inShape he).path e.node List.mem_cons_self
  have kind : e.node.kind = .identifier := by
    rcases hk with hk | hk
    · exact Node.kind_eq_of_mem_reports (hk ▸ hr) (by decide)
    · refine Node.kind_of_variablePattern_mem_reports (hk ▸ hr) fun own => ?_
      simp [Node.Shaped, Node.WellShaped, own] at shape
  simpa only [Node.Shaped, Node.WellShaped, kind] using shape

namespace Tree.InVocabulary

variable {t : Tree}

theorem shaped (h : t.InVocabulary) : t.MadeOf (Node.Shaped Pattern.InGrammar) :=
  h.madeOf.imp fun _ shape => shape.shaped

theorem readable (h : t.InVocabulary) : t.MadeOf (Node.Shaped Pattern.Readable) :=
  h.shaped.imp fun _ shape => shape.imp fun _ grammar => grammar.readable.1

theorem fault_entries (h : t.InVocabulary) (mode : ScopeMode) : (t.entries mode).fault = none := by
  refine Yield.fault_flatMap.mpr ⟨h.fault_walk, fun e he => ?_⟩
  cases hf : (e.entries mode).fault with
  | none => rfl
  | some f =>
    obtain ⟨u, ⟨p, takes, met⟩, -⟩ := (h.readable.inShape he).failsOnlyAt f hf
    exact absurd met (((h.shaped.inShape he).of_destructures takes).readable.2 u)

theorem exists_text {e : Event} (h : t.InVocabulary) (he : e ∈ t.events.items)
    (hk : e.kind = .identifier ∨ e.kind = .variablePattern) : ∃ s, e.node.get "name" = .str s :=
  h.shaped.exists_text he hk

theorem fault_free (h : t.InVocabulary) (table : ScopeTable) :
    (t.events.flatMap (Event.free table)).fault = none := by
  apply Yield.fault_flatMap.mpr
  refine ⟨h.fault_walk, ?_⟩
  intro e he
  refine Event.fault_free_of_named (fun m hm => ?_) (h.exists_text he)
  exact (h.wellShaped_path (s := ⟨t, false⟩) (by simp) he m hm).ne_compound

end Tree.InVocabulary

theorem prologueIsStrict_ok {vs : List Tree} (h : ∀ v ∈ vs, ∃ m, v.object? = some m) :
    ∃ b, prologueIsStrict vs = .ok b := by
  induction vs with
  | nil => exact ⟨false, rfl⟩
  | cons v vs ih =>
    obtain ⟨⟨m, hm⟩, hs⟩ := List.forall_mem_cons.mp h
    obtain ⟨b, hb⟩ := ih hs
    rw [← Tree.tree_of_object? hm]
    simp only [prologueIsStrict, Node.tree, Tree.get?, bind, Except.bind]
    split
    · exact ⟨false, rfl⟩
    · split
      · exact ⟨false, rfl⟩
      · split
        · exact ⟨true, rfl⟩
        · exact ⟨b, hb⟩

theorem resolveMode_ok {t : Tree} {n : Node} (hn : t.node? = some n) (hk : n.kind = .program)
    (h : n.WellShaped) (hostEmbedded : Bool) :
    ∃ strict, resolveMode t hostEmbedded =
      .ok ⟨(n.get "sourceType").isText "module", strict, hostEmbedded⟩ := by
  simp only [Node.WellShaped, hk] at h
  obtain ⟨vs, hv, ho⟩ := h.elements
  obtain ⟨b, hb⟩ := prologueIsStrict_ok ho
  refine ⟨b, ?_⟩
  have hget (key : String) : t.get? key = .ok (n.get key) := by
    rw [← Tree.tree_of_node? hn]
    rfl
  simp [resolveMode, hget, hv, hb, bind, Except.bind, pure, Except.pure]

namespace Grouping

variable {α : Type}

theorem mem_add {name : Atom} {a : α} {gs : List (NameGroup α)} {g : NameGroup α}
    (h : g ∈ add name a gs) : g.name = name ∨ ∃ g' ∈ gs, g'.name = g.name := by
  induction gs with
  | nil => exact .inl (by simpa using congrArg NameGroup.name (List.mem_singleton.mp h))
  | cons g' gs ih =>
    simp only [add] at h
    split at h <;> rcases List.mem_cons.mp h with rfl | h
    · exact .inr ⟨g', List.mem_cons_self, rfl⟩
    · exact .inr ⟨g, List.mem_cons_of_mem _ h, rfl⟩
    · exact .inr ⟨g, List.mem_cons_self, rfl⟩
    · rcases ih h with h | ⟨k, hk, hg⟩
      · exact .inl h
      · exact .inr ⟨k, List.mem_cons_of_mem _ hk, hg⟩

theorem addAll_ok {name : α → Tree} {as : List α} (h : ∀ a ∈ as, ∃ s, name a = .str s)
    {gs : List (NameGroup α)} (hg : ∀ g ∈ gs, ∃ s, g.name = .str s) :
    ∃ gs', addAll name gs as = .ok gs' ∧ ∀ g ∈ gs', ∃ s, g.name = .str s := by
  induction as generalizing gs with
  | nil => exact ⟨gs, rfl, hg⟩
  | cons a as ih =>
    obtain ⟨⟨s, hs⟩, ht⟩ := List.forall_mem_cons.mp h
    simp only [addAll, hs, Tree.str, Tree.asName, bind, Except.bind]
    apply ih ht
    intro g hm
    rcases mem_add hm with hn | ⟨g', hm, hn⟩
    · exact ⟨s, hn⟩
    · exact hn ▸ hg g' hm

end Grouping

theorem Key.comparable_texts (ss : List String) : comparable (ss.map Key.text) = true := by
  induction ss with
  | nil => rfl
  | cons s ss ih => simp [comparable, ih, less?]

theorem groupReferences_ok {rs : List FreeReference} (h : ∀ r ∈ rs, ∃ s, r.name = .str s) :
    ∃ gs, groupReferences rs = .ok gs := by
  have none : ∀ g ∈ ([] : List FreeVariable), ∃ s, g.name = .str s := by simp
  obtain ⟨gs, hgs, hn⟩ := Grouping.addAll_ok h none
  have keys : ∃ ss : List String, gs.map NameGroup.key = ss.map Key.text := by
    clear hgs
    induction gs with
    | nil => exact ⟨[], rfl⟩
    | cons g gs ih =>
      obtain ⟨⟨s, hs⟩, hn⟩ := List.forall_mem_cons.mp hn
      obtain ⟨ss, ih⟩ := ih hn
      exact ⟨s :: ss, by simp [ih, NameGroup.key, hs]⟩
  obtain ⟨ss, hk⟩ := keys
  simp only [groupReferences, groupByName, hgs, bind, Except.bind, Key.sortBy, hk,
    Key.comparable_texts, if_true]
  exact ⟨_, rfl⟩

end LexicalScope
