import LexicalScope.Proofs.Analysis
import LexicalScope.Proofs.Binding.Alike
import LexicalScope.Proofs.Walk.Member

/-! # Programs around statement lists

A frame is a program without its statements. A walk through the program that it makes of a list goes
through one statement after the other and reports the program last, so the entries that binding
makes for two lists in a row are those for the first and then those for the second.
-/

namespace LexicalScope

/-- What a program holds beside its statements, none of which is a node. -/
structure ProgramFrame where
  label : Label
  list : Label
  before : List (String × Tree)
  after : List (String × Tree)
  typed : (before ++ after).lookup "type" = some (.str "Program")
  noBody : ∀ f ∈ before ++ after, f.1 ≠ "body"
  bare : ∀ f ∈ before ++ after, ∀ s ∈ Node.memberSlots f, s.value.node? = none

namespace ProgramFrame

variable (p : ProgramFrame)

def node (xs : List Tree) : Node := ⟨p.label, p.before ++ ("body", .arr p.list xs) :: p.after⟩

def program (xs : List Tree) : Tree := (p.node xs).tree

theorem holdsOnly (xs : List Tree) : (p.node xs).HoldsOnly "body" (.arr p.list xs) :=
  ⟨p.before, p.after, rfl, fun f hf => ⟨p.noBody f hf, p.bare f hf⟩⟩

theorem get_body (xs : List Tree) : (p.node xs).get "body" = .arr p.list xs := (p.holdsOnly xs).get

theorem lookup_of_ne {key : String} (h : key ≠ "body") (xs : List Tree) :
    (p.node xs).fields.lookup key = (p.before ++ p.after).lookup key := by
  have hk : (key == "body") = false := by simpa using h
  simp [node, List.lookup_append, List.lookup_cons, hk]

theorem get_of_ne {key : String} (h : key ≠ "body") (xs ys : List Tree) :
    (p.node xs).get key = (p.node ys).get key := by
  rw [Node.get, Node.get, p.lookup_of_ne h, p.lookup_of_ne h]

variable {xs ys : List Tree} {mode : ScopeMode} {hostEmbedded : Bool}

@[simp]
theorem kind_node : (p.node xs).kind = .program := by
  rw [Node.kind, Node.get, p.lookup_of_ne (by decide), p.typed]
  rfl

theorem alike : (p.node xs).Alike (p.node ys) where
  label := rfl
  kind := by rw [kind_node, kind_node]
  value h := by simp at h

theorem isProgram_program : (p.program xs).isProgram = true := by
  change ((p.node xs).get "type").isText "Program" = true
  rw [Node.get, p.lookup_of_ne (by decide), p.typed]
  rfl

theorem isModule_program : (p.program xs).isModule = (p.program ys).isModule := by
  change ((p.node xs).get "sourceType").isText "module" =
    ((p.node ys).get "sourceType").isText "module"
  rw [p.get_of_ne (by decide) xs ys]

/-- A walk through a program reports what the statements hold and then the program. -/
theorem events_program (xs : List Tree) : (p.program xs).events =
    (Yield.collect Tree.events xs).map (Event.below [p.node xs]) ++
      .single ⟨.program, p.node xs, []⟩ := by
  have members : (p.node xs).HasMemberSlots := by simp [Node.HasMemberSlots, Node.slots]
  have own : (p.node xs).events [] false = .single ⟨.program, p.node xs, []⟩ := by
    simp [Node.events, Node.reports, Yield.single, Yield.ofList]
  rw [program, (p.holdsOnly xs).events_list members (by decide) (by simp), own]

def entries (mode : ScopeMode) (x : Tree) : Yield Entry :=
  x.events.flatMap fun e => (e.below [p.node []]).entries mode

theorem entries_program (xs : List Tree) (mode : ScopeMode) :
    (p.program xs).entries mode = Yield.collect (p.entries mode) xs := by
  have own : Event.entries mode ⟨.program, p.node xs, []⟩ = .empty := rfl
  have statement (e : Event) :
      (e.below [p.node xs]).entries mode = (e.below [p.node []]).entries mode :=
    Event.entries_alike mode
      (List.rel_append (List.forall₂_same.mpr fun n _ => .refl n) (.cons p.alike .nil))
  rw [Tree.entries, events_program, Yield.flatMap_append, Yield.flatMap_map,
    Yield.flatMap_collect, Yield.flatMap_single, own, Yield.append_empty]
  simp only [Function.comp_def, statement]
  rfl

theorem entries_congr {mode' : ScopeMode} (h : mode'.hoistsToProgram = mode.hoistsToProgram) :
    p.entries mode' = p.entries mode := by
  funext x
  exact Yield.flatMap_congr fun e _ => Event.entries_congr h _

theorem items_events {xs : List Tree} (h : (p.program xs).events.fault = none) :
    (∀ x ∈ xs, x.events.fault = none) ∧ (p.program xs).events.items =
      (xs.flatMap fun x => x.events.items).map (Event.below [p.node xs]) ++
        [⟨.program, p.node xs, []⟩] := by
  rw [events_program] at h ⊢
  have ends := Yield.fault_collect.mp (Yield.fault_append.mp h).1
  refine ⟨ends, ?_⟩
  rw [Yield.items_append _ (Yield.fault_append.mp h).1, Yield.items_map, Yield.items_collect ends,
    Yield.items_single]

theorem mem_events {xs : List Tree} (h : (p.program xs).events.fault = none) {e : Event} :
    e ∈ (p.program xs).events.items ↔
      (∃ x ∈ xs, ∃ f ∈ x.events.items, f.below [p.node xs] = e) ∨
        e = ⟨.program, p.node xs, []⟩ := by
  rw [(p.items_events h).2]
  simp only [List.mem_append, List.mem_map, List.mem_flatMap, List.mem_singleton]
  refine or_congr_left ⟨?_, ?_⟩
  · rintro ⟨f, ⟨x, hx, hf⟩, he⟩
    exact ⟨x, hx, f, hf, he⟩
  · rintro ⟨x, hx, f, hf, he⟩
    exact ⟨f, ⟨x, hx, hf⟩, he⟩

theorem textName_node (h : (p.node xs).TextName) : (p.node ys).TextName := by
  intro v hv
  refine h v ?_
  simp only [Tree.field, Node.tree] at hv ⊢
  rwa [p.lookup_of_ne (by decide)] at hv ⊢

theorem resolveMode_program (xs : List Tree) (hostEmbedded : Bool) :
    resolveMode (p.program xs) hostEmbedded = (prologueIsStrict xs).map fun strict =>
      ⟨(p.program []).isModule, strict, hostEmbedded⟩ := by
  have body : (p.program xs).get? "body" = .ok (.arr p.list xs) :=
    congrArg Except.ok (p.get_body xs)
  rw [resolveMode_of_body body, p.isModule_program]

theorem nodup_labels_append (nodup : (p.program (xs ++ ys)).labels.Nodup) :
    p.label ∉ xs.flatMap Tree.labels ∧ p.label ∉ ys.flatMap Tree.labels ∧
      (xs.flatMap Tree.labels).Disjoint (ys.flatMap Tree.labels) := by
  obtain ⟨own, inner⟩ := Node.nodup_labels (n := p.node (xs ++ ys)) nodup
  have statements : (xs.flatMap Tree.labels ++ ys.flatMap Tree.labels).Sublist
      (Tree.labelsFields (p.node (xs ++ ys)).fields) := by
    simp only [node, Tree.labelsFields_eq, List.flatMap_append, List.flatMap_cons, Tree.labels,
      Tree.labelsItems_eq]
    exact ((List.sublist_cons_self _ _).trans (List.sublist_append_left _ _)).trans
      (List.sublist_append_right _ _)
  have absent : p.label ∉ xs.flatMap Tree.labels ++ ys.flatMap Tree.labels :=
    fun h => own (statements.subset h)
  rw [List.mem_append, not_or] at absent
  exact ⟨absent.1, absent.2, List.disjoint_of_nodup_append (inner.sublist statements)⟩

theorem label_of_declares (a : Analysis (p.program xs) hostEmbedded) {owner : Label} {x : Atom}
    (h : a.table.declares owner x = true) : owner = p.label ∨ owner ∈ xs.flatMap Tree.labels := by
  obtain ⟨y, -, e, he, binds⟩ := (ScopeTable.declares_iff_binds a.bound).mp h
  have ends := (p.items_events a.fault_events).1
  rcases (p.mem_events a.fault_events).mp he with ⟨v, hv, f, hf, rfl⟩ | rfl
  · have inside {l : Label} (hl : l ∈ v.labels) : l ∈ xs.flatMap Tree.labels :=
      List.mem_flatMap.mpr ⟨v, hv, hl⟩
    rcases binds.owner_mem with ⟨n, hn, rfl⟩ | ho
    · rw [Event.path_below] at hn
      rcases List.mem_append.mp hn with hn | hn
      · exact .inr (inside (label_mem_of_mem_path hf (ends v hv) hn))
      · exact .inl (congrArg Node.label (List.mem_singleton.mp hn))
    · exact .inr (inside (labels_subset_of_mem_walk hf ho))
  · cases binds <;> simp_all

theorem hoistsToProgram_eq (a : Analysis (p.program xs) hostEmbedded)
    (b : Analysis (p.program ys) hostEmbedded) :
    a.mode.hoistsToProgram = b.mode.hoistsToProgram := by
  rw [hoistsToProgram_of_resolveMode a.resolved, hoistsToProgram_of_resolveMode b.resolved,
    p.isModule_program]

theorem mem_places_program {l : Label} {i : Nat} {q : Pointer} {u : Tree} :
    (l, .key "body" :: .index i :: q, u) ∈ (p.program xs).places [] ↔
      ∃ x, xs[i]? = some x ∧ (l, q, u) ∈ x.places [] := by
  rw [program, (p.holdsOnly xs).mem_places, Tree.mem_places_arr]

end ProgramFrame

end LexicalScope
