import Mathlib.Data.List.Chain
import LexicalScope.Proofs.Walk.Place
import LexicalScope.Reference.Free

/-! # Which reports are free references

Whether a report is a free reference is said here of its chain alone: which identifiers refer to
anything, what binds a name, and what binds `this`. Where the classification of a tree runs to its
end, it keeps exactly the reports for which this holds, in the order of the walk.
-/

namespace LexicalScope

namespace Kind

theorem declaresArguments_eq_false {k : Kind} :
    k.declaresArguments = false ↔ k ≠ .functionDeclaration ∧ k ≠ .functionExpression := by
  cases k <;> simp [declaresArguments]

end Kind

namespace ScopeTable

/-- Whether a node declares what stands for a name. What is no name is declared nowhere. -/
def declaresName (table : ScopeTable) (n : Node) : Tree → Bool
  | .atom x => table.declares n.label x
  | _ => false

structure Unbound (table : ScopeTable) (chain : List Node) (name : Tree) : Prop where
  ne_undefined : name ≠ .str "undefined"
  undeclared : ∀ n ∈ chain, table.declaresName n name = false
  no_arguments : name = .str "arguments" →
    ∀ n ∈ chain, n.kind ≠ .functionDeclaration ∧ n.kind ≠ .functionExpression

theorem captures_eq_ok {table : ScopeTable} {chain : List Node} {name : Tree} {b : Bool}
    (h : table.captures chain name = .ok b) : b = false ↔ table.Unbound chain name := by
  cases name with
  | atom x =>
    obtain rfl := Except.ok.inj h
    simp only [Bool.or_eq_false_iff, decide_eq_false_iff_not, List.any_eq_false, binds,
      Bool.and_eq_true, Bool.or_eq_true, decide_eq_true_eq, not_or, not_and]
    constructor
    · rintro ⟨hu, hb⟩
      refine ⟨by simpa [Tree.str] using hu, ?_, ?_⟩
      · intro n hn
        simpa [declaresName] using (hb n hn).2
      · intro hx n hn
        have ha := (hb n hn).1 (by simpa [Tree.str] using hx)
        exact Kind.declaresArguments_eq_false.mp (by simpa using ha)
    · rintro ⟨hu, hd, ha⟩
      refine ⟨by simpa [Tree.str] using hu, ?_⟩
      intro n hn
      constructor
      · intro hx
        simpa using Kind.declaresArguments_eq_false.mpr (ha (by simp [Tree.str, hx]) n hn)
      · simpa [declaresName] using hd n hn
  | arr l vs =>
    simp only [captures] at h
    split at h <;> cases h
    exact ⟨fun _ => ⟨by simp [Tree.str], fun _ _ => rfl, by simp [Tree.str]⟩, fun _ => rfl⟩
  | obj l fs =>
    simp only [captures] at h
    split at h <;> cases h
    exact ⟨fun _ => ⟨by simp [Tree.str], fun _ _ => rfl, by simp [Tree.str]⟩, fun _ => rfl⟩

end ScopeTable

theorem insideDeclarator_eq_ok {ns : List Node} {b : Bool} (h : insideDeclarator ns = .ok b) :
    b = false ↔ ∀ n, ns.find? (fun m => !m.kind.isPattern) = some n →
      n.kind ≠ .variableDeclarator := by
  induction ns with
  | nil =>
    obtain rfl := Except.ok.inj h
    simp
  | cons n ns ih =>
    simp only [insideDeclarator] at h
    split at h
    · cases h
    · split at h
      · next hp => simpa [hp] using ih h
      · next hp =>
        obtain rfl := Except.ok.inj h
        simp [hp]

/-- A class field next to the node under its `value`. -/
def Initializes (n m : Node) : Prop :=
  n.kind = .propertyDefinition ∧ (n.get "value").label? = some m.label

theorem bindsThis_eq_ok {ns : List Node} {b : Bool} (h : bindsThis ns = .ok b) :
    b = false ↔ (∀ n ∈ ns, n.kind ≠ .functionDeclaration ∧ n.kind ≠ .functionExpression) ∧
      ns.IsChain fun n m => ¬ Initializes n m := by
  induction ns with
  | nil =>
    obtain rfl := Except.ok.inj h
    simp
  | cons n ns ih =>
    simp only [bindsThis] at h
    split at h
    · cases h
    · split at h
      · next hk =>
        obtain rfl := Except.ok.inj h
        simp only [Bool.true_eq_false, List.mem_cons, forall_eq_or_imp, false_iff, not_and]
        intro hn
        exact absurd (Kind.declaresArguments_eq_false.mpr hn.1) (by simp [hk])
      · next hk =>
        have hk := Kind.declaresArguments_eq_false.mp (by simpa using hk)
        have next_iff : (n.kind == .propertyDefinition &&
            ns.head?.any fun m => (n.get "value").label? == some m.label) = false ↔
            ∀ m ∈ ns.head?, ¬ Initializes n m := by
          cases ns <;> simp [Initializes]
        split at h
        · next hv =>
          obtain rfl := Except.ok.inj h
          simp only [Bool.true_eq_false, false_iff, not_and, List.isChain_cons]
          intro _ hc _
          exact absurd (next_iff.mpr hc) (by simp [hv])
        · next hv =>
          rw [ih h, List.isChain_cons]
          have hv := next_iff.mp (by simpa using hv)
          simp only [List.mem_cons, forall_eq_or_imp]
          tauto

/-- The name of a reference, its place and the places around it. -/
def FreeReference.place (r : FreeReference) : Tree × Option Label × List (Option Label) :=
  (r.name, r.node.label?, r.chain.map Tree.label?)

namespace Event

variable {table : ScopeTable} {e : Event}

/-- An identifier that is no target, or a target whose pattern does not stand in a declarator. -/
def IsReference (e : Event) : Prop :=
  e.kind = .identifier ∨ e.kind = .variablePattern ∧
    ∀ n, e.outer.find? (fun m => !m.kind.isPattern) = some n → n.kind ≠ .variableDeclarator

/-- No function but an arrow is in the chain, and no class field before its `value`. -/
def ThisUnbound (e : Event) : Prop :=
  (∀ n ∈ e.chain, n.kind ≠ .functionDeclaration ∧ n.kind ≠ .functionExpression) ∧
    ∀ before n m after, e.chain = before ++ n :: m :: after → ¬ Initializes n m

/-- What is said of a free reference. The table has no part in the case of `this`. -/
def IsFree (table : ScopeTable) (e : Event) : Prop :=
  e.IsReference ∧ table.Unbound e.chain (e.node.get "name") ∨
    e.kind = .thisExpression ∧ e.ThisUnbound

def reference (e : Event) : FreeReference :=
  e.occurrence (if e.kind = .thisExpression then .str "this" else e.node.get "name")

theorem fault_freeIdentifier_of_text {s : String} (h : e.node.tree.field "name" = .ok (.str s)) :
    (e.freeIdentifier table).fault = none := by
  rw [freeIdentifier, h]
  apply Yield.fault_ofExcept.mpr
  simp only [Tree.str, ScopeTable.captures, bind, Except.bind, pure, Except.pure]
  split <;> exact ⟨_, rfl⟩

open scoped Classical in
theorem items_freeIdentifier (hk : e.kind ≠ .thisExpression)
    (h : (e.freeIdentifier table).fault = none) : (e.freeIdentifier table).items =
      if table.Unbound e.chain (e.node.get "name") then [e.reference] else [] := by
  unfold freeIdentifier at h ⊢
  cases hn : e.node.tree.field "name" with
  | error fault => simp [hn, bind, Except.bind, Yield.ofExcept] at h
  | ok name =>
    rw [reference, if_neg hk, Tree.get_of_field hn]
    cases hc : table.captures e.chain name with
    | error fault => simp [hn, hc, bind, Except.bind, Yield.ofExcept] at h
    | ok b =>
      have free := ScopeTable.captures_eq_ok hc
      cases b <;> simp_all [bind, Except.bind, pure, Except.pure, Yield.ofExcept]

open scoped Classical in
theorem items_freeThis (hk : e.kind = .thisExpression) (h : e.freeThis.fault = none) :
    e.freeThis.items = if e.ThisUnbound then [e.reference] else [] := by
  unfold freeThis at h ⊢
  rw [reference, if_pos hk]
  cases hb : bindsThis e.chain with
  | error fault => simp [hb, bind, Except.bind, Yield.ofExcept] at h
  | ok b =>
    have free := bindsThis_eq_ok hb
    rw [List.isChain_iff_forall_rel_of_append_cons_cons] at free
    have free : b = false ↔ e.ThisUnbound := by
      rw [free, ThisUnbound]
      constructor
      · rintro ⟨hf, hc⟩
        refine ⟨hf, ?_⟩
        intro before n m after he
        exact hc he
      · rintro ⟨hf, hc⟩
        refine ⟨hf, ?_⟩
        intro n m before after he
        exact hc _ _ _ _ he
    cases b <;> simp_all [bind, Except.bind, pure, Except.pure, Yield.ofExcept]

open scoped Classical in
/-- A report gives itself if it is a free reference, and nothing otherwise. -/
theorem items_free (h : (e.free table).fault = none) :
    (e.free table).items = if e.IsFree table then [e.reference] else [] := by
  unfold free at h ⊢
  split
  · next hk =>
    simp only [hk] at h
    rw [items_freeIdentifier (by simp [hk]) h]
    simp [IsFree, IsReference, hk]
  · next hk =>
    simp only [hk] at h
    cases hd : insideDeclarator e.outer with
    | error fault => simp [hd] at h
    | ok b =>
      have free := insideDeclarator_eq_ok hd
      cases b with
      | true =>
        have : ¬ e.IsReference := by simp_all [IsReference]
        simp [IsFree, this, hk]
      | false =>
        simp only [hd] at h ⊢
        have : e.IsReference := .inr ⟨hk, free.mp rfl⟩
        rw [items_freeIdentifier (by simp [hk]) h]
        simp [IsFree, this, hk]
  · next hk =>
    simp only [hk] at h
    rw [items_freeThis hk h]
    simp [IsFree, IsReference, hk]
  · next h₁ h₂ h₃ =>
    have : ¬ e.IsFree table := by simp_all [IsFree, IsReference]
    simp [this]

end Event

def FreeReference.isThis (r : FreeReference) : Bool :=
  r.node.object?.any (·.kind == .thisExpression)

theorem Event.isThis_reference {outer : List Node} {s : Slot} {e : Event}
    (he : e ∈ (walk outer s).items) : e.reference.isThis = decide (e.kind = .thisExpression) := by
  obtain ⟨target, hr⟩ := exists_mem_reports he
  have same : e.node.kind = .thisExpression ↔ e.kind = .thisExpression := by
    constructor
    · intro hk
      simpa [Node.reports, hk] using hr
    · intro hk
      exact Node.kind_eq_of_mem_reports (hk ▸ hr) (by decide)
  rw [Bool.eq_iff_iff]
  simpa [FreeReference.isThis, reference, occurrence, Node.tree, Tree.object?] using same

theorem flatMap_ite {α β : Type} (p : α → Prop) [DecidablePred p] (f : α → β) (as : List α) :
    (as.flatMap fun a => if p a then [f a] else []) = (as.filter fun a => p a).map f := by
  induction as with
  | nil => rfl
  | cons a as ih => by_cases h : p a <;> simp [h, ih]

def Kind.refers : Kind → Bool
  | identifier | variablePattern | thisExpression => true
  | _ => false

theorem Node.refers_reports_length_le (n : Node) (target : Bool) :
    ((n.reports target).filter Kind.refers).length ≤ 1 := by
  unfold reports
  split
  case h_1 | h_7 => exact List.length_filter_le _ _
  all_goals simp [Kind.refers]

theorem Event.free_of_not_refers {table : ScopeTable} {e : Event} (h : e.kind.refers = false) :
    e.free table = .empty := by
  unfold free
  split <;> simp_all [Kind.refers]

theorem Event.IsFree.refers {table : ScopeTable} {e : Event} (h : e.IsFree table) :
    e.kind.refers = true := by
  rcases h with ⟨h | h, -⟩ | h <;> simp [h, Kind.refers]

open scoped Classical in
/-- A classification that runs to its end keeps the reports that are free. -/
theorem eq_of_freeReferences {t : Tree} {table : ScopeTable} {rs : List FreeReference}
    (h : freeReferences t table = .ok rs) :
    rs = (t.events.items.filter fun e => e.IsFree table).map Event.reference := by
  obtain ⟨hf, rfl⟩ := Yield.toExcept_eq_ok.mp h
  rw [Yield.items_flatMap hf, ← flatMap_ite]
  apply List.flatMap_congr
  intro e he
  exact Event.items_free ((Yield.fault_flatMap.mp hf).2 e he)

theorem Event.IsReference.refers {e : Event} (h : e.IsReference) : e.kind.refers = true := by
  rcases h with h | h <;> simp [h, Kind.refers]

theorem Event.eq_of_refers {t : Tree} (nodup : t.labels.Nodup) {e f : Event}
    (he : e ∈ t.events.items) (hf : f ∈ t.events.items) (hre : e.kind.refers = true)
    (hrf : f.kind.refers = true) (h : e.node.label = f.node.label) : e = f := by
  have apart : ((t.events.items.filter fun e => e.kind.refers).map fun e => e.node.label).Nodup :=
    nodup_labels_walk Kind.refers Node.refers_reports_length_le nodup
  exact List.inj_on_of_nodup_map apart (List.mem_filter.mpr ⟨he, hre⟩)
    (List.mem_filter.mpr ⟨hf, hrf⟩) h

theorem exists_mem_freeReferences_iff {t : Tree} {table : ScopeTable} {rs : List FreeReference}
    (h : freeReferences t table = .ok rs) (nodup : t.labels.Nodup) {e : Event}
    (he : e ∈ t.events.items) (hr : e.IsReference) :
    (∃ r ∈ rs, r.node.label? = some e.node.label) ↔ e.IsFree table := by
  classical
  rw [eq_of_freeReferences h]
  constructor
  · rintro ⟨r, hm, hl⟩
    obtain ⟨f, hf, rfl⟩ := List.mem_map.mp hm
    obtain ⟨hf, free⟩ := List.mem_filter.mp hf
    have free : f.IsFree table := of_decide_eq_true free
    rwa [Event.eq_of_refers nodup he hf hr.refers free.refers (Option.some.inj hl).symm]
  · intro free
    exact ⟨e.reference, List.mem_map_of_mem (List.mem_filter.mpr ⟨he, decide_eq_true free⟩), rfl⟩

theorem mem_freeReferences_iff {t : Tree} {table : ScopeTable} {rs : List FreeReference}
    (h : freeReferences t table = .ok rs) (nodup : t.labels.Nodup) {e : Event}
    (he : e ∈ t.events.items) (hr : e.IsReference) : e.reference ∈ rs ↔ e.IsFree table := by
  classical
  constructor
  · intro hm
    exact (exists_mem_freeReferences_iff h nodup he hr).mp ⟨_, hm, rfl⟩
  · intro free
    rw [eq_of_freeReferences h]
    exact List.mem_map_of_mem (List.mem_filter.mpr ⟨he, decide_eq_true free⟩)

open scoped Classical in
/-- The free references are the reports of the walk that are free, each at a place of its own. -/
theorem freeReferences_exact {t : Tree} {table : ScopeTable} {rs : List FreeReference}
    (h : freeReferences t table = .ok rs) :
    t.events.fault = none ∧
      rs = (t.events.items.filter fun e => e.IsFree table).map Event.reference ∧
      (t.labels.Nodup → (rs.map fun r => r.node.label?).Nodup) := by
  have kept := eq_of_freeReferences h
  refine ⟨(Yield.fault_flatMap.mp (Yield.toExcept_eq_ok.mp h).1).1, kept, ?_⟩
  intro nodup
  have apart : ((t.events.items.filter fun e => e.kind.refers).map fun e => e.node.label).Nodup :=
    nodup_labels_walk (s := ⟨t, false⟩) Kind.refers Node.refers_reports_length_le nodup
  have fewer : (t.events.items.filter fun e => e.IsFree table).Sublist
      (t.events.items.filter fun e => e.kind.refers) :=
    List.monotone_filter_right _ fun e h => Event.IsFree.refers (by simpa using h)
  have places : rs.map (fun r => r.node.label?) =
      ((t.events.items.filter fun e => e.IsFree table).map fun e => e.node.label).map some := by
    rw [kept, List.map_map, List.map_map]
    rfl
  rw [places]
  exact (apart.sublist (fewer.map _)).map fun _ _ => Option.some.inj

open scoped Classical in
/-- Under the empty table the parameter of `p => [p, x]` is free wherever it stands. -/
theorem freeReferences_exact_arrow : ∃ rs, freeReferences arrowProgram.tree .empty = .ok rs ∧
    rs.length = 3 ∧ arrowProgram.tree.events.fault = none ∧
    rs = (arrowProgram.tree.events.items.filter fun e => e.IsFree .empty).map Event.reference ∧
    (rs.map fun r => r.node.label?).Nodup := by
  obtain ⟨rs, h, three⟩ : ∃ rs, freeReferences arrowProgram.tree .empty = .ok rs ∧ rs.length = 3 :=
    exists_ok_of_map (by decide +kernel)
  obtain ⟨ends, kept, apart⟩ := freeReferences_exact h
  exact ⟨rs, h, three, ends, kept, apart (by decide)⟩

end LexicalScope
