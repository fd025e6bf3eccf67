import LexicalScope.Proofs.Vocabulary.Basic
import LexicalScope.Proofs.Walk.Place

/-! # Testing for the vocabulary

A test that goes a number of levels deep, and that only trees of the vocabulary pass. Where labels
are distinct, the handler of a `try` is known by its label.
-/

namespace LexicalScope

namespace Tree

def isNull : Tree → Bool
  | atom .null => true
  | _ => false

def isString : Tree → Bool
  | atom (.str _) => true
  | _ => false

def isListOf (p : Tree → Bool) : Tree → Bool
  | atom .null => true
  | arr _ vs => vs.all p
  | _ => false

def isNamedIdentifier (t : Tree) : Bool :=
  t.node?.any fun n => n.kind == .identifier && (n.get "name").isString

theorem eq_null_of_isNull {t : Tree} (h : t.isNull = true) : t = .null := by
  unfold isNull at h
  split at h
  · rfl
  · cases h

theorem exists_str_of_isString {t : Tree} (h : t.isString = true) : ∃ s, t = .str s := by
  unfold isString at h
  split at h
  · exact ⟨_, rfl⟩
  · cases h

theorem isListOf_sound {P : Tree → Prop} {p : Tree → Bool} (hp : ∀ v, p v = true → P v) {t : Tree}
    (h : t.isListOf p = true) : t.IsListOf P := by
  unfold isListOf at h
  split at h
  · exact .inl rfl
  · exact .inr ⟨_, _, rfl, fun v hv => hp v (List.all_eq_true.mp h v hv)⟩
  · cases h

theorem isNamedIdentifier_sound {t : Tree} (h : t.isNamedIdentifier = true) :
    ∃ s, t.IsIdentifier s := by
  unfold isNamedIdentifier at h
  cases hn : t.node? with
  | none => simp [hn] at h
  | some n =>
    simp only [hn, Option.any_some, Bool.and_eq_true, beq_iff_eq] at h
    obtain ⟨s, hs⟩ := exists_str_of_isString h.2
    exact ⟨s, n, hn, h.1, hs⟩

end Tree

namespace Pattern

def inGrammar : Nat → Tree → Bool
  | 0, _ => false
  | depth + 1, t => t.node?.any fun n =>
    match n.kind with
    | .identifier => t.isNamedIdentifier
    | .objectPattern => (n.get "properties").isListOf fun entry => entry.node?.any fun p =>
      p.kind == .property && inGrammar depth (p.get "value") ||
        p.kind == .restElement && (p.get "value").isNull && inGrammar depth (p.get "argument")
    | .arrayPattern => (n.get "elements").isListOf fun v => isHole v || inGrammar depth v
    | .restElement => inGrammar depth (n.get "argument")
    | .assignmentPattern => inGrammar depth (n.get "left")
    | _ => false

theorem inGrammar_sound {depth : Nat} {t : Tree} (h : inGrammar depth t = true) : InGrammar t := by
  induction depth generalizing t with
  | zero => cases h
  | succ depth ih =>
    unfold inGrammar at h
    cases hn : t.node? with
    | none => simp [hn] at h
    | some n =>
      simp only [hn, Option.any_some] at h
      split at h
      · obtain ⟨s, named⟩ := Tree.isNamedIdentifier_sound h
        exact .identifier named
      · next hk =>
        -- an entry is a property with a pattern for its value or a rest with one for its argument
        have list : (n.get "properties").IsListOf fun v => ∃ p, v.node? = some p ∧
            (p.kind = .property ∧ InGrammar (p.get "value") ∨ p.kind = .restElement ∧
              p.get "value" = .null ∧ InGrammar (p.get "argument")) := by
          refine Tree.isListOf_sound (fun v hv => ?_) h
          cases hp : v.node? with
          | none => simp [hp] at hv
          | some p =>
            simp only [hp, Option.any_some, Bool.or_eq_true, Bool.and_eq_true, beq_iff_eq] at hv
            refine ⟨p, rfl, hv.imp (fun hv => ⟨hv.1, ih hv.2⟩) fun hv => ?_⟩
            exact ⟨hv.1.1, Tree.eq_null_of_isNull hv.1.2, ih hv.2⟩
        obtain ⟨entries, list, each⟩ := list.elements
        refine .object hn hk list (fun v hv => ?_) (fun v hv p hp property => ?_)
          fun v hv p hp rest => ?_
        all_goals obtain ⟨p', hp', shape⟩ := each v hv
        · exact ⟨p', hp', shape.imp And.left fun s => ⟨s.1, s.2.1⟩⟩
        all_goals
          obtain rfl := Option.some.inj (hp.symm.trans hp')
          rcases shape with ⟨kind, pattern⟩ | ⟨kind, -, pattern⟩ <;> simp_all
      · next hk =>
        obtain ⟨elements, list, each⟩ := (Tree.isListOf_sound
          (P := fun v => isHole v = false → InGrammar v) (fun v hv hole => ih (by simp_all))
          h).elements
        exact .array hn hk list each
      · next hk => exact .rest hn hk (ih h)
      · next hk => exact .assignment hn hk (ih h)
      · cases h

end Pattern

namespace Node

def isWellShaped (depth : Nat) (n : Node) : Bool :=
  match n.kind with
  | .compound | .untyped | .all | .anyFunction | .anyClass | .variablePattern => false
  | .other name => name != "pattern"
  | .program => (n.get "body").isListOf fun v => v.object?.isSome
  | .identifier => (n.get "name").isString
  | .functionDeclaration | .functionExpression | .arrowFunctionExpression =>
    ((n.get "id").isNull || (n.get "id").isNamedIdentifier) &&
      (n.get "params").isListOf (Pattern.inGrammar depth)
  | .classDeclaration | .classExpression => (n.get "id").isNull || (n.get "id").isNamedIdentifier
  | .variableDeclaration => (n.get "declarations").isListOf fun v =>
    v.object?.any fun d => Pattern.inGrammar depth (d.get "id")
  | .tryStatement =>
    (n.get "handler").isNull || (n.get "handler").node?.any (·.kind == .catchClause)
  | .catchClause => (n.get "param").isNull || Pattern.inGrammar depth (n.get "param")
  | .objectPattern => (n.get "properties").isListOf fun _ => true
  | .arrayPattern => (n.get "elements").isListOf fun _ => true
  | .importDeclaration => (n.get "specifiers").isListOf fun _ => true
  | .importSpecifier | .importDefaultSpecifier | .importNamespaceSpecifier =>
    (n.get "local").isNamedIdentifier
  | _ => true

theorem isWellShaped_sound {depth : Nat} {n : Node} (h : n.isWellShaped depth = true) :
    n.WellShaped := by
  have own (h : ((n.get "id").isNull || (n.get "id").isNamedIdentifier) = true) :
      n.get "id" = .null ∨ ∃ s, (n.get "id").IsIdentifier s :=
    ((Bool.or_eq_true _ _).mp h).imp Tree.eq_null_of_isNull Tree.isNamedIdentifier_sound
  unfold isWellShaped at h
  unfold WellShaped
  cases hk : n.kind <;> simp only [hk] at h ⊢
  case program =>
    exact Tree.isListOf_sound (fun v hv => Option.isSome_iff_exists.mp hv) h
  case other => simpa using h
  case identifier => exact Tree.exists_str_of_isString h
  case functionDeclaration | functionExpression | arrowFunctionExpression =>
    rw [Bool.and_eq_true] at h
    exact ⟨own h.1, Tree.isListOf_sound (fun v hv => Pattern.inGrammar_sound hv) h.2⟩
  case classDeclaration | classExpression => exact own h
  case variableDeclaration =>
    refine Tree.isListOf_sound (fun v hv => ?_) h
    cases hd : v.object? with
    | none => simp [hd] at hv
    | some d => exact ⟨d, rfl, Pattern.inGrammar_sound (by simpa [hd] using hv)⟩
  case tryStatement =>
    refine ((Bool.or_eq_true _ _).mp h).imp Tree.eq_null_of_isNull fun hc => ?_
    cases hd : (n.get "handler").node? with
    | none => simp [hd] at hc
    | some c => exact ⟨c, rfl, by simpa [hd] using hc⟩
  case catchClause =>
    exact ((Bool.or_eq_true _ _).mp h).imp Tree.eq_null_of_isNull Pattern.inGrammar_sound
  case objectPattern | arrayPattern | importDeclaration =>
    exact Tree.isListOf_sound (fun _ _ => trivial) h
  case importSpecifier | importDefaultSpecifier | importNamespaceSpecifier =>
    exact Tree.isNamedIdentifier_sound h
  all_goals cases h

def mayHold (n : Node) (t : Tree) : Bool :=
  match t.node? with
  | none => true
  | some m => m.kind != .program && (m.kind != .catchClause ||
    n.kind == .tryStatement && (n.get "handler").label? == some m.label)

theorem admits_of_mayHold {n : Node} {c : Slot} (nodup : n.tree.labels.Nodup)
    (shape : n.WellShaped) (hc : c ∈ n.slots.items) (h : n.mayHold c.value = true) :
    n.Admits c.value := by
  intro m hm
  simp only [mayHold, hm, Bool.and_eq_true, Bool.or_eq_true, bne_iff_ne, beq_iff_eq, ne_eq] at h
  refine ⟨h.1, fun clause => ?_⟩
  obtain ⟨kind, label⟩ := h.2.resolve_left (not_not.mpr clause)
  refine ⟨kind, ?_⟩
  simp only [WellShaped, kind] at shape
  rcases shape with none | ⟨d, hd, -⟩
  · rw [none] at label
    cases label
  · -- the handler and the clause stand in slots of one node and share a label
    have own {u : Tree} {k : Node} (hk : u.node? = some k) : k.label ∈ u.labels := by
      rw [← Tree.tree_of_node? hk]
      exact List.mem_cons_self
    rw [← Tree.tree_of_node? hd] at label
    have same : d.label = m.label := Option.some.inj label
    have slots := slot_eq_of_mem_labels nodup (mem_slots_handler kind hd) hc (own hd)
      (same ▸ own hm)
    exact congrArg Slot.value slots

end Node

namespace Tree

/-- Whether a tree is in the vocabulary, as far as it is looked into. -/
def inVocabulary : Nat → Tree → Bool
  | 0, t => t.node?.isNone
  | depth + 1, t => t.node?.all fun n => n.isWellShaped depth &&
    n.slots.items.all fun c => n.mayHold c.value && inVocabulary depth c.value

theorem inVocabulary_sound (depth : Nat) {t : Tree} (nodup : t.labels.Nodup)
    (h : t.inVocabulary depth = true) : t.InVocabulary := by
  induction depth generalizing t with
  | zero => exact .nothing (Option.isNone_iff_eq_none.mp h)
  | succ depth ih =>
    cases hn : t.node? with
    | none => exact .nothing hn
    | some n =>
      rw [← tree_of_node? hn] at nodup
      simp only [inVocabulary, hn, Option.all_some, Bool.and_eq_true, List.all_eq_true] at h
      have shape := Node.isWellShaped_sound h.1
      refine .node hn shape (fun c hc => ?_) fun c hc => ?_
      · exact Node.admits_of_mayHold nodup shape hc (h.2 c hc).1
      · exact ih (Node.nodup_slot nodup hc) (h.2 c hc).2

end Tree

end LexicalScope
