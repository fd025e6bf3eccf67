import LexicalScope.Proofs.Binding.Within
import LexicalScope.Proofs.Scope.Growth
import LexicalScope.Workspace.Operation

/-! # Scope tables of a workspace

An operation enters some entries into one table, and most operations enter none. So over a run no
table loses anything, and a container gets a scope only by an operation that touches it.
-/

namespace LexicalScope

def Operation.written? : Operation → Option Nat
  | .at _ (.bind _ table) | .at _ (.scopeFor table) | .at _ (.declare table _) => some table
  | _ => none

namespace Workspace

variable {w : Workspace} {number : Nat} {owner : Label} {operation : Operation} {t : Tree}

theorem table_setTable (w : Workspace) (k number : Nat) (table : ScopeTable) :
    (w.setTable k table).table number = if k = number then table else w.table number := by
  unfold setTable Workspace.table
  rw [List.lookup_cons]
  split
  · next h => rw [if_pos (eq_of_beq h).symm, Option.getD_some]
  · next h =>
    have other : number ≠ k := ne_of_beq_false h
    rw [if_neg other.symm]
    congr 1
    induction w.tables with
    | nil => rfl
    | cons p ps ih =>
      obtain ⟨j, u⟩ := p
      by_cases hj : j = k
      · subst hj
        simpa [List.lookup_cons, h] using ih
      · simp [List.lookup_cons, hj, ih]

def writesAt (t : Tree) : TreeOperation → Option (Nat × List Entry)
  | .bind choice table => (choice.mode t).toOption.map fun mode => (table, (t.entries mode).items)
  | .scopeFor table => t.label?.map fun owner => (table, [.scope owner])
  | .declare table name =>
    t.label?.map fun owner =>
      (table, [match name.asName with | .ok x => .name owner x | .error _ => .scope owner])
  | _ => none

def writes (w : Workspace) : Operation → Option (Nat × List Entry)
  | .at place operation => (w.at? place).bind (writesAt · operation)
  | _ => none

def entriesIn (number : Nat) : Option (Nat × List Entry) → List Entry
  | some (table, es) => if table = number then es else []
  | none => []

theorem table_setTable_foldl (w : Workspace) (k number : Nat) (es : List Entry) :
    (w.setTable k (es.foldl ScopeTable.enter (w.table k))).table number =
      (entriesIn number (some (k, es))).foldl ScopeTable.enter (w.table number) := by
  rw [table_setTable, entriesIn]
  split
  · next h =>
    subst h
    rfl
  · rfl

theorem table_perform (w : Workspace) (number : Nat) (t : Tree) (operation : TreeOperation) :
    (w.perform t operation).1.table number =
      (entriesIn number (writesAt t operation)).foldl ScopeTable.enter (w.table number) := by
  cases operation with
  | bind choice table =>
    simp only [perform, bind, writesAt]
    cases choice.mode t with
    | error e => rfl
    | ok mode => exact w.table_setTable_foldl table number _
  | classify table append =>
    simp only [perform, classify, writesAt]
    split <;> rfl
  | set key value =>
    simp only [perform, setMember, writesAt]
    split <;> rfl
  | scopeFor table =>
    simp only [perform, writesAt]
    cases t.label? with
    | none => rfl
    | some owner => exact w.table_setTable_foldl table number [.scope owner]
  | declare table name =>
    simp only [perform, declare, writesAt]
    cases t.label? with
    | none => rfl
    | some owner =>
      cases name.asName with
      | error e => exact w.table_setTable_foldl table number [.scope owner]
      | ok x => exact w.table_setTable_foldl table number [.name owner x]
  | declares table name =>
    simp only [perform, writesAt]
    split <;> rfl
  | _ => rfl

theorem table_step (w : Workspace) (number : Nat) (operation : Operation) :
    (w.step operation).1.table number =
      (entriesIn number (w.writes operation)).foldl ScopeTable.enter (w.table number) := by
  cases operation with
  | «at» place operation =>
    simp only [step, writes]
    cases w.at? place with
    | none => rfl
    | some t => exact w.table_perform number t operation
  | _ => rfl

theorem written?_of_writes {es : List Entry} (h : w.writes operation = some (number, es)) :
    operation.written? = some number := by
  cases operation with
  | «at» place operation =>
    obtain ⟨t, -, h⟩ := Option.bind_eq_some_iff.mp h
    cases operation with
    | bind | scopeFor | declare =>
      obtain ⟨_, -, hw⟩ := Option.map_eq_some_iff.mp h
      cases hw
      rfl
    | _ => cases h
  | _ => cases h

theorem table_step_of_written? (h : operation.written? ≠ some number) :
    (w.step operation).1.table number = w.table number := by
  rw [table_step]
  unfold entriesIn
  split
  · next es hw =>
    split
    · next hk => exact absurd (written?_of_writes (hk ▸ hw)) h
    · rfl
  · rfl

theorem extends_step (w : Workspace) (operation : Operation) (number : Nat) :
    (w.table number).Extends ((w.step operation).1.table number) := by
  rw [table_step]
  exact .foldl_enter _ _

/-- A table loses nothing over a run. -/
theorem extends_after (w : Workspace) (operations : List Operation) (number : Nat) :
    (w.table number).Extends ((w.after operations).table number) := by
  induction operations generalizing w with
  | nil => exact .refl _
  | cons operation operations ih => exact (w.extends_step operation number).trans (ih _)

/-- An operation binds a tree in which a container owns a declaration, or makes a scope for it. -/
inductive Touches (w : Workspace) (number : Nat) (owner : Label) : Operation → Prop where
  | bind {place : List String} {t : Tree} {choice : ModeChoice} {mode : ScopeMode} {entry : Entry}
      (tree : w.at? place = some t) (chosen : choice.mode t = .ok mode)
      (made : entry ∈ (t.entries mode).items) (owned : entry.owner = owner) :
      Touches w number owner (.at place (.bind choice number))
  | scopeFor {place : List String} {t : Tree} (tree : w.at? place = some t)
      (owned : t.label? = some owner) : Touches w number owner (.at place (.scopeFor number))
  | declare {place : List String} {t : Tree} {name : Json} (tree : w.at? place = some t)
      (owned : t.label? = some owner) : Touches w number owner (.at place (.declare number name))

theorem touches_iff :
    w.Touches number owner operation ↔
      ∃ es, w.writes operation = some (number, es) ∧ ∃ entry ∈ es, entry.owner = owner := by
  constructor
  · rintro (⟨tree, chosen, made, owned⟩ | ⟨tree, owned⟩ | ⟨tree, owned⟩)
    · exact ⟨_, by simp [writes, tree, writesAt, chosen, Except.toOption], _, made, owned⟩
    · exact ⟨[.scope owner], by simp [writes, tree, writesAt, owned], _, List.mem_cons_self, rfl⟩
    · simp only [writes, tree, Option.bind_some, writesAt, owned, Option.map_some]
      refine ⟨_, rfl, _, List.mem_cons_self, ?_⟩
      split <;> rfl
  · rintro ⟨es, hw, entry, made, owned⟩
    cases operation with
    | «at» place operation =>
      obtain ⟨t, tree, hw⟩ := Option.bind_eq_some_iff.mp hw
      cases operation with
      | bind choice table =>
        cases hm : choice.mode t with
        | error e => simp [writesAt, hm, Except.toOption] at hw
        | ok mode =>
          simp only [writesAt, hm, Except.toOption, Option.map_some, Option.some.injEq,
            Prod.mk.injEq] at hw
          obtain ⟨rfl, rfl⟩ := hw
          exact .bind tree hm made owned
      | scopeFor table =>
        obtain ⟨l, hl, hw⟩ := Option.map_eq_some_iff.mp hw
        cases hw
        obtain rfl := List.mem_singleton.mp made
        exact .scopeFor tree (owned ▸ hl)
      | declare table name =>
        obtain ⟨l, hl, hw⟩ := Option.map_eq_some_iff.mp hw
        cases hw
        obtain rfl := List.mem_singleton.mp made
        refine .declare tree (owned ▸ ?_)
        split <;> exact hl
      | _ => cases hw
    | _ => cases hw

theorem mem_owners_step :
    owner ∈ ((w.step operation).1.table number).owners ↔
      owner ∈ (w.table number).owners ∨ w.Touches number owner operation := by
  rw [table_step, ScopeTable.mem_owners_foldl_enter, touches_iff]
  refine or_congr_right ⟨?_, ?_⟩
  · rintro ⟨entry, made, owned⟩
    unfold entriesIn at made
    split at made
    · next table es hw =>
      split at made
      · next hk => exact ⟨es, hk ▸ hw, entry, made, owned⟩
      · cases made
    · cases made
  · rintro ⟨es, hw, entry, made, owned⟩
    rw [hw, entriesIn, if_pos rfl]
    exact ⟨entry, made, owned⟩

/-- A container owns a scope after a run if it did before or a step of the run touches it. -/
theorem mem_owners_after {operations : List Operation} :
    owner ∈ ((w.after operations).table number).owners ↔
      owner ∈ (w.table number).owners ∨ ∃ earlier operation rest,
        operations = earlier ++ operation :: rest ∧
          (w.after earlier).Touches number owner operation := by
  induction operations generalizing w with
  | nil => simp [after]
  | cons operation operations ih =>
    rw [after, ih, mem_owners_step, or_assoc]
    refine or_congr_right ⟨?_, ?_⟩
    · rintro (h | ⟨earlier, touching, rest, rfl, h⟩)
      · exact ⟨[], operation, operations, rfl, h⟩
      · exact ⟨operation :: earlier, touching, rest, rfl, h⟩
    · rintro ⟨_ | ⟨first, earlier⟩, touching, rest, split, h⟩
      · cases split
        exact .inl h
      · cases split
        exact .inr ⟨earlier, touching, rest, rfl, h⟩

theorem lookups_agree (w : Workspace) (number : Nat) (t : Tree) (x : Atom) :
    ∃ b names scope,
      w.perform t (.declares number (.atom x)) = (w, .ok (.truth b)) ∧
        w.perform t (.localsOf number) = (w, .ok (.locals names)) ∧
        w.perform t (.get number) = (w, .ok (.scope scope)) ∧
        (b = true ↔ x.Among names) ∧ (b = true ↔ ∃ s, scope = some s ∧ x.Among s.locals) := by
  cases hl : t.label? with
  | none => exact ⟨false, [], none, by simp [perform, hl, Atom.Among]⟩
  | some owner =>
    refine ⟨(w.table number).declares owner x, (w.table number).localsOf owner,
      (w.table number).get? owner, ?_, by simp [perform, hl], by simp [perform, hl],
      ScopeTable.declares_eq_true, ?_⟩
    · simp only [perform, hl, declares, ScopeTable.declares]
      cases (w.table number).get? owner <;> rfl
    · simp only [ScopeTable.declares, Option.any_eq_true, Scope.declares_eq_true]

end Workspace

end LexicalScope
