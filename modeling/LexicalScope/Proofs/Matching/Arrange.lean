import Mathlib.Data.List.Flatten
import Mathlib.Data.List.Forall2
import Mathlib.Data.List.Perm.Basic
import LexicalScope.Yield

/-! # Arrangements

Two lists are arranged alike under a relation if the members of one, in its own order or in any
order, are related one by one to the members of the other. A yield arranges another one if, where
the first runs to its end, so does the second, and what they give is arranged alike. Joining and
replacing keep both.
-/

namespace LexicalScope

theorem exists_right_of_forall₂ {α β : Type} {R : α → β → Prop} {as : List α} {bs : List β}
    (h : List.Forall₂ R as bs) {a : α} (ha : a ∈ as) : ∃ b ∈ bs, R a b := by
  induction h with
  | nil => cases ha
  | cons hr _ ih =>
    rcases List.mem_cons.mp ha with rfl | ha
    · exact ⟨_, List.mem_cons_self, hr⟩
    · obtain ⟨b, hb, hr⟩ := ih ha
      exact ⟨b, List.mem_cons_of_mem _ hb, hr⟩

theorem exists_left_of_forall₂ {α β : Type} {R : α → β → Prop} {as : List α} {bs : List β}
    (h : List.Forall₂ R as bs) {b : β} (hb : b ∈ bs) : ∃ a ∈ as, R a b :=
  exists_right_of_forall₂ h.flip hb

section

variable {α β γ δ : Type} {ordered : Bool} {R : α → β → Prop} {S : γ → δ → Prop}

/-- The members of two lists are the same, and so is their order if the order counts. -/
def Reordered (ordered : Bool) (as bs : List α) : Prop := as.Perm bs ∧ (ordered = true → as = bs)

namespace Reordered

variable {as bs cs : List α} {as' bs' : List α}

theorem refl (as : List α) : Reordered ordered as as := ⟨.refl as, fun _ => rfl⟩

theorem append (h : Reordered ordered as bs) (h' : Reordered ordered as' bs') :
    Reordered ordered (as ++ as') (bs ++ bs') :=
  ⟨h.1.append h'.1, fun ho => by rw [h.2 ho, h'.2 ho]⟩

theorem flatMap (h : Reordered ordered as bs) (f : α → List γ) :
    Reordered ordered (as.flatMap f) (bs.flatMap f) :=
  ⟨h.1.flatMap_right f, fun ho => by rw [h.2 ho]⟩

theorem filter (h : Reordered ordered as bs) (p : α → Bool) :
    Reordered ordered (as.filter p) (bs.filter p) :=
  ⟨h.1.filter p, fun ho => by rw [h.2 ho]⟩

end Reordered

/-- The members of a list, in its order or in any, are related to those of another one by one. -/
def Arranged (ordered : Bool) (R : α → β → Prop) (as : List α) (bs : List β) : Prop :=
  ∃ cs, Reordered ordered as cs ∧ List.Forall₂ R cs bs

namespace Arranged

variable {as as' : List α} {bs bs' : List β}

theorem of_forall₂ (h : List.Forall₂ R as bs) : Arranged ordered R as bs := ⟨as, .refl as, h⟩

theorem forall₂ (h : Arranged true R as bs) : List.Forall₂ R as bs := by
  obtain ⟨cs, order, related⟩ := h
  rwa [order.2 rfl]

theorem nil : Arranged ordered R [] [] := of_forall₂ .nil

theorem append (h : Arranged ordered R as bs) (h' : Arranged ordered R as' bs') :
    Arranged ordered R (as ++ as') (bs ++ bs') := by
  obtain ⟨cs, order, related⟩ := h
  obtain ⟨cs', order', related'⟩ := h'
  exact ⟨cs ++ cs', order.append order', List.rel_append related related'⟩

theorem symm (h : Arranged ordered R as bs) : Arranged ordered (fun b a => R a b) bs as := by
  obtain ⟨cs, ⟨perm, same⟩, related⟩ := h
  cases ordered with
  | true => exact of_forall₂ (same rfl ▸ related.flip)
  | false =>
    obtain ⟨ds, related, perm⟩ := List.perm_comp_forall₂ perm related
    exact ⟨ds, ⟨perm.symm, by simp⟩, related.flip⟩

theorem exists_right (h : Arranged ordered R as bs) {a : α} (ha : a ∈ as) : ∃ b ∈ bs, R a b := by
  obtain ⟨cs, ⟨perm, -⟩, related⟩ := h
  obtain ⟨i, hi, rfl⟩ := List.mem_iff_getElem.mp (perm.subset ha)
  have hi' : i < bs.length := related.length_eq ▸ hi
  exact ⟨bs[i], List.getElem_mem hi', related.get hi hi'⟩

theorem exists_left (h : Arranged ordered R as bs) {b : β} (hb : b ∈ bs) : ∃ a ∈ as, R a b :=
  h.symm.exists_right hb

theorem mono {R' : α → β → Prop} (h : Arranged ordered R as bs)
    (hr : ∀ a ∈ as, ∀ b ∈ bs, R a b → R' a b) : Arranged ordered R' as bs := by
  obtain ⟨cs, order, related⟩ := h
  refine ⟨cs, order, ?_⟩
  rw [List.forall₂_iff_zip] at related ⊢
  refine ⟨related.1, ?_⟩
  intro a b hm
  exact hr a (order.1.symm.subset (List.of_mem_zip hm).1) b (List.of_mem_zip hm).2 (related.2 hm)

theorem flatMap {f : α → List γ} {g : β → List δ} (h : Arranged ordered R as bs)
    (hf : ∀ a ∈ as, ∀ b, R a b → Arranged ordered S (f a) (g b)) :
    Arranged ordered S (as.flatMap f) (bs.flatMap g) := by
  obtain ⟨cs, order, related⟩ := h
  have each : ∀ a ∈ cs, ∀ b, R a b → Arranged ordered S (f a) (g b) := fun a ha =>
    hf a (order.1.symm.subset ha)
  have inner : Arranged ordered S (cs.flatMap f) (bs.flatMap g) := by
    clear order hf
    induction related with
    | nil => exact nil
    | cons hr _ ih =>
      rw [List.flatMap_cons, List.flatMap_cons]
      obtain ⟨first, rest⟩ := List.forall_mem_cons.mp each
      exact (first _ hr).append (ih rest)
  obtain ⟨ds, order', related'⟩ := inner
  have order := order.flatMap f
  refine ⟨ds, ⟨order.1.trans order'.1, ?_⟩, related'⟩
  intro ho
  rw [order.2 ho, order'.2 ho]

theorem map {f : α → γ} {g : β → δ} (h : Arranged ordered R as bs)
    (hf : ∀ a ∈ as, ∀ b, R a b → S (f a) (g b)) :
    Arranged ordered S (as.map f) (bs.map g) := by
  rw [List.map_eq_flatMap, List.map_eq_flatMap]
  exact h.flatMap fun a ha b hr => of_forall₂ (.cons (hf a ha b hr) .nil)

theorem filter {p : α → Bool} {q : β → Bool} (h : Arranged ordered R as bs)
    (hp : ∀ a ∈ as, ∀ b ∈ bs, R a b → q b = p a) :
    Arranged ordered R (as.filter p) (bs.filter q) := by
  obtain ⟨cs, order, related⟩ : Arranged ordered (fun a b => R a b ∧ q b = p a) as bs :=
    h.mono fun a ha b hb hr => ⟨hr, hp a ha b hb hr⟩
  refine ⟨cs.filter p, order.filter p, ?_⟩
  clear order h hp
  induction related with
  | nil => exact .nil
  | cons hr _ ih =>
    rw [List.filter_cons, List.filter_cons, hr.2]
    split
    · exact .cons hr.1 ih
    · exact ih

theorem reordered_map {f : α → γ} {g : β → γ} (h : Arranged ordered R as bs)
    (hf : ∀ a ∈ as, ∀ b, R a b → g b = f a) : Reordered ordered (as.map f) (bs.map g) := by
  obtain ⟨cs, order, related⟩ : Arranged ordered (· = ·) (as.map f) (bs.map g) :=
    h.map fun a ha b hr => (hf a ha b hr).symm
  rw [List.forall₂_eq_eq_eq] at related
  rwa [related] at order

end Arranged

namespace Yield

/-- Where a yield runs to its end, so does another one, with related members. -/
def Arranges (ordered : Bool) (R : α → β → Prop) (p : Yield α) (q : Yield β) : Prop :=
  p.fault = none → q.fault = none ∧ Arranged ordered R p.items q.items

theorem arranges_ofList {as : List α} {bs : List β} (h : Arranged ordered R as bs) :
    (ofList as).Arranges ordered R (ofList bs) := fun _ => ⟨rfl, h⟩

theorem arranges_empty : (empty : Yield α).Arranges ordered R empty := arranges_ofList .nil

theorem arranges_single {a : α} {b : β} (h : R a b) :
    (single a).Arranges ordered R (single b) := arranges_ofList (.of_forall₂ (.cons h .nil))

theorem arranges_fail {e : Fault} {q : Yield β} : (fail e : Yield α).Arranges ordered R q := by
  intro h
  cases h

namespace Arranges

variable {p p' : Yield α} {q q' : Yield β}

theorem append (h : p.Arranges ordered R q) (h' : p'.Arranges ordered R q') :
    (p ++ p').Arranges ordered R (q ++ q') := by
  intro hp
  obtain ⟨hp, hp'⟩ := fault_append.mp hp
  obtain ⟨hq, hr⟩ := h hp
  obtain ⟨hq', hr'⟩ := h' hp'
  rw [items_append _ hp, items_append _ hq]
  exact ⟨fault_append.mpr ⟨hq, hq'⟩, hr.append hr'⟩

theorem flatMap {f : α → Yield γ} {g : β → Yield δ} (h : p.Arranges ordered R q)
    (hf : ∀ a ∈ p.items, ∀ b, R a b → (f a).Arranges ordered S (g b)) :
    (p.flatMap f).Arranges ordered S (q.flatMap g) := by
  intro hp
  obtain ⟨hend, each⟩ := fault_flatMap.mp hp
  obtain ⟨hq, hr⟩ := h hend
  have ends : (q.flatMap g).fault = none := by
    refine fault_flatMap.mpr ⟨hq, ?_⟩
    intro b hb
    obtain ⟨a, ha, hab⟩ := hr.exists_left hb
    exact (hf a ha b hab (each a ha)).1
  rw [items_flatMap hp, items_flatMap ends]
  exact ⟨ends, hr.flatMap fun a ha b hab => (hf a ha b hab (each a ha)).2⟩

theorem map {f : α → γ} {g : β → δ} (h : p.Arranges ordered R q)
    (hf : ∀ a ∈ p.items, ∀ b, R a b → S (f a) (g b)) :
    (p.map f).Arranges ordered S (q.map g) := by
  intro hp
  obtain ⟨hq, hr⟩ := h hp
  exact ⟨hq, hr.map hf⟩

end Arranges

end Yield

end

end LexicalScope
