import LexicalScope.Proofs.Walk.Below

/-! # Changing items and faults

A yield with its items and the fault that broke it off both changed. Joining and replacing commute
with such a change.
-/

namespace LexicalScope.Yield

variable {α β γ δ : Type} {f : α → β} {g : γ → δ} {h : Fault → Fault}

def bimap (f : α → β) (h : Fault → Fault) (p : Yield α) : Yield β :=
  ⟨p.items.map f, p.fault.map h⟩

@[simp]
theorem bimap_empty : (empty : Yield α).bimap f h = empty := rfl

@[simp]
theorem bimap_ofList (as : List α) : (ofList as).bimap f h = ofList (as.map f) := rfl

@[simp]
theorem bimap_append (p q : Yield α) : (p ++ q).bimap f h = p.bimap f h ++ q.bimap f h := by
  obtain ⟨as, _ | e⟩ := p <;> simp [bimap]

theorem bimap_collect (k : α → Yield γ) (as : List α) :
    (collect k as).bimap g h = collect (fun a => (k a).bimap g h) as := by
  induction as with
  | nil => rfl
  | cons a as ih => rw [collect_cons, collect_cons, bimap_append, ih]

theorem flatMap_bimap {p : Yield α} {k : α → Yield γ} {k' : β → Yield δ}
    (each : ∀ a ∈ p.items, k' (f a) = (k a).bimap g h) :
    (p.bimap f h).flatMap k' = (p.flatMap k).bimap g h := by
  have items : collect k' (p.items.map f) = (collect k p.items).bimap g h := by
    rw [bimap_collect, collect_map]
    exact collect_congr each
  rw [flatMap, flatMap, bimap_append, ← items]
  rfl

theorem map_bimap {p : Yield α} {k : α → γ} {k' : β → δ} (each : ∀ a, k' (f a) = g (k a)) :
    (p.bimap f h).map k' = (p.map k).bimap g h := by
  simp only [map, bimap, List.map_map, Function.comp_def, each]

theorem ofExcept_bimap (r : Except Fault (List α)) :
    ofExcept ((r.map (List.map f)).mapError h) = (ofExcept r).bimap f h := by
  cases r <;> rfl

theorem toExcept_bimap (p : Yield α) :
    (p.bimap f h).toExcept = (p.toExcept.map (List.map f)).mapError h := by
  obtain ⟨as, _ | e⟩ := p <;> rfl

end LexicalScope.Yield
