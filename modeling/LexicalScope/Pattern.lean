import LexicalScope.Message
import LexicalScope.Yield

/-! # Binding patterns

A binding pattern binds the names of its identifiers, from left to right. Default values and
computed keys are expressions and bind nothing, and neither do the holes of an array pattern. The
first thing met that is no pattern is a fault, after the names to its left.
-/

namespace LexicalScope.Pattern

/-- What an entry of an object pattern binds to: its value or, where that is false, its argument. -/
def entryTarget (entry : Tree) : Yield Tree :=
  .ofExcept do
    let value ← entry.get? "value"
    if value.truthy then return [value]
    return [← entry.get? "argument"]

def isHole : Tree → Bool
  | .atom .null => true
  | _ => false

theorem isHole_eq_true {t : Tree} : isHole t = true ↔ t = .null := by
  unfold isHole
  split
  · exact iff_of_true rfl rfl
  · next h => exact iff_of_false Bool.false_ne_true h

/-- The parts of a pattern that are patterns again, or nothing for what is no compound pattern. -/
def parts? (t : Tree) : Option (Yield Tree) := do
  let n ← t.object?
  match n.kind with
  | .objectPattern => some ((Yield.ofExcept (n.get "properties").elements).flatMap entryTarget)
  | .arrayPattern =>
    some (Yield.ofExcept ((n.get "elements").elements.map (·.filter (!isHole ·))))
  | .restElement => some (.single (n.get "argument"))
  | .assignmentPattern => some (.single (n.get "left"))
  | _ => none

def isIdentifier (t : Tree) : Bool := t.object?.any (·.kind == .identifier)

theorem height_of_mem_entryTarget {entry t : Tree} (h : t ∈ (entryTarget entry).items) :
    t.height ≤ entry.height := by
  unfold entryTarget at h
  cases hv : entry.get? "value" with
  | error e => simp [hv, bind, Except.bind, Yield.ofExcept, Yield.fail] at h
  | ok v =>
    cases ht : v.truthy with
    | true =>
      simp [hv, ht, bind, Except.bind, pure, Except.pure, Yield.ofExcept, Yield.ofList] at h
      exact h ▸ Tree.height_get?_le hv
    | false =>
      cases ha : entry.get? "argument" with
      | error e => simp [hv, ht, ha, bind, Except.bind, Yield.ofExcept, Yield.fail] at h
      | ok a =>
        simp [hv, ht, ha, bind, Except.bind, pure, Except.pure, Yield.ofExcept, Yield.ofList] at h
        exact h ▸ Tree.height_get?_le ha

theorem height_of_mem_parts {t u : Tree} {ps : Yield Tree} (h : parts? t = some ps)
    (hu : u ∈ ps.items) : u.height < t.height := by
  unfold parts? at h
  cases hn : t.object? with
  | none => simp [hn] at h
  | some n =>
    have le {v w : Tree} {ws : List Tree} {key : String} (hw : (n.get key).elements = .ok ws)
        (hv : w ∈ ws) (le : v.height ≤ w.height) : v.height < n.tree.height :=
      Nat.lt_of_le_of_lt (Nat.le_trans le (Tree.height_elements_le hw hv)) (n.height_get_lt key)
    rw [← Tree.tree_of_object? hn]
    simp only [hn, Option.bind_eq_bind, Option.bind_some] at h
    split at h
    · obtain rfl := Option.some.inj h
      obtain ⟨entry, hentry, hu⟩ := Yield.mem_flatMap hu
      cases hw : (n.get "properties").elements with
      | error e => simp [hw, Yield.ofExcept, Yield.fail] at hentry
      | ok ws =>
        have hentry : entry ∈ ws := by simpa [hw, Yield.ofExcept, Yield.ofList] using hentry
        exact le hw hentry (height_of_mem_entryTarget hu)
    · obtain rfl := Option.some.inj h
      cases hw : (n.get "elements").elements with
      | error e => simp [hw, Except.map, Yield.ofExcept, Yield.fail] at hu
      | ok ws =>
        have hu : u ∈ ws := by
          simp [hw, Except.map, Yield.ofExcept, Yield.ofList] at hu
          exact hu.1
        exact le hw hu (Nat.le_refl _)
    · obtain rfl := Option.some.inj h
      obtain rfl : u = n.get "argument" := by simpa [Yield.single] using hu
      exact n.height_get_lt _
    · obtain rfl := Option.some.inj h
      obtain rfl : u = n.get "left" := by simpa [Yield.single] using hu
      exact n.height_get_lt _
    · cases h

def names (t : Tree) : Yield Tree :=
  if isIdentifier t then .ofExcept ((t.field "name").map ([·]))
  else
    match _h : parts? t with
    | none => .fail t.unsupported
    | some ps =>
      Yield.collect (fun u : { u // u ∈ ps.items } => names u.1) ps.items.attach ++ ⟨[], ps.fault⟩
termination_by t.height
decreasing_by exact height_of_mem_parts _h u.2

theorem names_of_isIdentifier {t : Tree} (h : isIdentifier t = true) :
    names t = .ofExcept ((t.field "name").map ([·])) := by
  rw [names, if_pos h]

theorem names_of_parts {t : Tree} {ps : Yield Tree} (hi : isIdentifier t = false)
    (h : parts? t = some ps) : names t = ps.flatMap names := by
  rw [names, if_neg (by simp [hi])]
  split
  · simp_all
  · next qs hq =>
    obtain rfl : qs = ps := Option.some.inj (hq.symm.trans h)
    rw [Yield.collect_attach names]
    rfl

theorem names_of_unsupported {t : Tree} (hi : isIdentifier t = false) (h : parts? t = none) :
    names t = .fail t.unsupported := by
  rw [names, if_neg (by simp [hi])]
  split
  · rfl
  · simp_all

end LexicalScope.Pattern
