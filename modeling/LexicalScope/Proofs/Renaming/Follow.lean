import LexicalScope.Proofs.Matching.Arrange

/-! # Yields that follow one another

A yield follows another one under a relation if, where the first runs to its end, so does the
second, and what they give is related item by item. Joining and replacing keep this.
-/

namespace LexicalScope

namespace Yield

variable {α β γ δ : Type} {R : α → β → Prop} {S : γ → δ → Prop}

def Follows (R : α → β → Prop) (p : Yield α) (q : Yield β) : Prop :=
  p.fault = none → q.fault = none ∧ List.Forall₂ R p.items q.items

theorem follows_iff_arranges {p : Yield α} {q : Yield β} :
    p.Follows R q ↔ p.Arranges true R q :=
  imp_congr_right fun _ => and_congr_right fun _ => ⟨.of_forall₂, Arranged.forall₂⟩

theorem Follows.mono {R' : α → β → Prop} {p : Yield α} {q : Yield β} (h : p.Follows R q)
    (hr : ∀ a ∈ p.items, ∀ b, R a b → R' a b) : p.Follows R' q := by
  intro hp
  obtain ⟨hq, hf⟩ := h hp
  refine ⟨hq, ?_⟩
  rw [List.forall₂_iff_zip] at hf ⊢
  refine ⟨hf.1, ?_⟩
  intro a b hm
  exact hr a (List.of_mem_zip hm).1 b (hf.2 hm)

theorem follows_ofList {as : List α} {bs : List β} (h : List.Forall₂ R as bs) :
    (ofList as).Follows R (ofList bs) := by
  intro _
  exact ⟨rfl, h⟩

theorem follows_empty : (empty : Yield α).Follows R empty := follows_ofList .nil

theorem follows_single {a : α} {b : β} (h : R a b) : (single a).Follows R (single b) :=
  follows_ofList (.cons h .nil)

theorem follows_fail {e : Fault} {q : Yield β} : (fail e : Yield α).Follows R q := by
  intro h
  cases h

theorem follows_flatMap_fail {e : Fault} {f : α → Yield γ} {q : Yield δ} :
    ((fail e).flatMap f).Follows S q := by
  intro h
  cases (fault_flatMap.mp h).1

theorem follows_map (p : Yield α) (f : α → β) : p.Follows (fun a b => b = f a) (p.map f) := by
  intro hp
  rw [fault_map, items_map, List.forall₂_map_right_iff]
  exact ⟨hp, List.forall₂_same.mpr fun _ _ => rfl⟩

theorem Follows.append {p p' : Yield α} {q q' : Yield β} (h : p.Follows R q)
    (h' : p'.Follows R q') : (p ++ p').Follows R (q ++ q') := by
  rw [follows_iff_arranges] at h h' ⊢
  exact h.append h'

theorem Follows.flatMap {p : Yield α} {q : Yield β} {f : α → Yield γ} {g : β → Yield δ}
    (h : p.Follows R q) (hf : ∀ a ∈ p.items, ∀ b, R a b → (f a).Follows S (g b)) :
    (p.flatMap f).Follows S (q.flatMap g) := by
  rw [follows_iff_arranges] at h ⊢
  exact h.flatMap fun a ha b hr => follows_iff_arranges.mp (hf a ha b hr)

theorem Follows.map {p : Yield α} {q : Yield β} {f : α → γ} {g : β → δ} (h : p.Follows R q)
    (hf : ∀ a b, R a b → S (f a) (g b)) : (p.map f).Follows S (q.map g) := by
  rw [follows_iff_arranges] at h ⊢
  exact h.map fun a _ b hr => hf a b hr

end Yield

end LexicalScope
