import LexicalScope.Proofs.Binding.Function
import LexicalScope.Proofs.Matching.Walk

/-! # Walking trees that differ inside a function

Walks through two trees that match except inside a function make matching reports in the same order,
apart from reports inside the function, which may stand anywhere between them.
-/

namespace LexicalScope

section

variable {α β γ δ : Type} {R : α → β → Prop} {S : γ → δ → Prop} {P : α → Prop} {Q : β → Prop}

/-- Two lists have related members in the same order, apart from some members of either. -/
inductive Aligned (R : α → β → Prop) (P : α → Prop) (Q : β → Prop) : List α → List β → Prop where
  | nil : Aligned R P Q [] []
  | both {a : α} {b : β} {as : List α} {bs : List β} (related : R a b)
      (rest : Aligned R P Q as bs) : Aligned R P Q (a :: as) (b :: bs)
  | left {a : α} {as : List α} {bs : List β} (apart : P a) (rest : Aligned R P Q as bs) :
    Aligned R P Q (a :: as) bs
  | right {b : β} {as : List α} {bs : List β} (apart : Q b) (rest : Aligned R P Q as bs) :
    Aligned R P Q as (b :: bs)

namespace Aligned

variable {as as' : List α} {bs bs' : List β}

theorem append (h : Aligned R P Q as bs) (h' : Aligned R P Q as' bs') :
    Aligned R P Q (as ++ as') (bs ++ bs') := by
  induction h with
  | nil => exact h'
  | both related _ ih => exact .both related ih
  | left apart _ ih => exact .left apart ih
  | right apart _ ih => exact .right apart ih

theorem of_forall₂ (h : List.Forall₂ R as bs) : Aligned R P Q as bs := by
  induction h with
  | nil => exact .nil
  | cons related _ ih => exact .both related ih

theorem of_apart (left : ∀ a ∈ as, P a) (right : ∀ b ∈ bs, Q b) : Aligned R P Q as bs := by
  induction as with
  | nil =>
    induction bs with
    | nil => exact .nil
    | cons b bs ih =>
      obtain ⟨hb, hbs⟩ := List.forall_mem_cons.mp right
      exact .right hb (ih hbs)
  | cons a as ih =>
    obtain ⟨ha, has⟩ := List.forall_mem_cons.mp left
    exact .left ha (ih has)

theorem symm {R' : β → α → Prop} (h : Aligned R P Q as bs) (hr : ∀ a b, R a b → R' b a) :
    Aligned R' Q P bs as := by
  induction h with
  | nil => exact .nil
  | both related _ ih => exact .both (hr _ _ related) ih
  | left apart _ ih => exact .right apart ih
  | right apart _ ih => exact .left apart ih

theorem flatMap {cs : List γ} {ds : List δ} {f : γ → List α} {g : δ → List β}
    (h : List.Forall₂ S cs ds) (hf : ∀ c ∈ cs, ∀ d ∈ ds, S c d → Aligned R P Q (f c) (g d)) :
    Aligned R P Q (cs.flatMap f) (ds.flatMap g) := by
  induction h with
  | nil => exact .nil
  | cons hr _ ih =>
    rw [List.flatMap_cons, List.flatMap_cons]
    apply (hf _ List.mem_cons_self _ List.mem_cons_self hr).append
    apply ih
    intro c hc d hd
    exact hf c (List.mem_cons_of_mem _ hc) d (List.mem_cons_of_mem _ hd)

theorem mem_left (h : Aligned R P Q as bs) {a : α} (ha : a ∈ as) : P a ∨ ∃ b ∈ bs, R a b := by
  induction h with
  | nil => cases ha
  | both related _ ih =>
    rcases List.mem_cons.mp ha with rfl | ha
    · exact .inr ⟨_, List.mem_cons_self, related⟩
    · exact (ih ha).imp_right fun ⟨b, hb, hr⟩ => ⟨b, List.mem_cons_of_mem _ hb, hr⟩
  | left apart _ ih =>
    rcases List.mem_cons.mp ha with rfl | ha
    · exact .inl apart
    · exact ih ha
  | right _ _ ih => exact (ih ha).imp_right fun ⟨b, hb, hr⟩ => ⟨b, List.mem_cons_of_mem _ hb, hr⟩

theorem map_filter {f : α → γ} {g : β → γ} {p : α → Bool} {q : β → Bool}
    (h : Aligned R P Q as bs) (left : ∀ a ∈ as, P a → p a = false)
    (right : ∀ b ∈ bs, Q b → q b = false)
    (both : ∀ a ∈ as, ∀ b ∈ bs, R a b → q b = p a ∧ (p a = true → g b = f a)) :
    (bs.filter q).map g = (as.filter p).map f := by
  induction h with
  | nil => rfl
  | @both a b as bs related _ ih =>
    obtain ⟨same, looks⟩ := both a List.mem_cons_self b List.mem_cons_self related
    have rest := ih (List.forall_mem_cons.mp left).2 (List.forall_mem_cons.mp right).2
      fun a ha b hb => both a (List.mem_cons_of_mem _ ha) b (List.mem_cons_of_mem _ hb)
    rw [List.filter_cons, List.filter_cons, same]
    cases hp : p a with
    | false => simpa using rest
    | true => simpa [looks hp] using rest
  | @left a as bs apart _ ih =>
    obtain ⟨first, left⟩ := List.forall_mem_cons.mp left
    rw [List.filter_cons_of_neg (by simp [first apart])]
    exact ih left right fun a ha b hb => both a (List.mem_cons_of_mem _ ha) b hb
  | @right b as bs apart _ ih =>
    obtain ⟨first, right⟩ := List.forall_mem_cons.mp right
    rw [List.filter_cons_of_neg (by simp [first apart])]
    exact ih left right fun a ha b hb => both a ha b (List.mem_cons_of_mem _ hb)

end Aligned

end

/-- Two reports that match, of which each goes past the inside of the function. -/
structure Event.Twins (function : Label) (e e' : Event) : Prop where
  matching : e.Matches true (· = function) e'
  past : e.Past function
  past' : e'.Past function

theorem Event.Matches.symm {ordered : Bool} {opened : Label → Prop} {e e' : Event}
    (h : e.Matches ordered opened e') : e'.Matches ordered opened e where
  kind := h.kind.symm
  node := Tree.Matches.symm h.node
  outer := (h.outer.imp fun _ _ hn => Tree.Matches.symm hn).flip

theorem Event.Twins.symm {function : Label} {e e' : Event} (h : e.Twins function e') :
    e'.Twins function e := ⟨h.matching.symm, h.past', h.past⟩

section

variable {function : Label} {s s' : Slot} {outer outer' : List Node} {n n' : Node}

def GoesPast (function : Label) (outer : List Node) (s : Slot) : Prop :=
  ∀ n, s.value.node? = some n → (n :: outer).IsChain (EntersByName function)

theorem GoesPast.of_ne (h : (n :: outer).IsChain (EntersByName function))
    (hl : n.label ≠ function) (s : Slot) : GoesPast function (n :: outer) s :=
  fun _ _ => .cons_cons (fun h => absurd h hl) h

theorem GoesPast.name (h : (n :: outer).IsChain (EntersByName function)) :
    GoesPast function (n :: outer) ⟨n.get "id", true⟩ :=
  fun _ hm => .cons_cons (fun _ => Tree.tree_of_node? hm) h

theorem inside_of_mem_flatMap (hl : n.label = function) (hk : n.kind.isFunction = true) {e : Event}
    (he : e ∈ (n.targets "params" ++ n.plain "body").items.flatMap
      fun c => (walk (n :: outer) c).items) : e.Inside function := by
  obtain ⟨c, hc, he⟩ := List.mem_flatMap.mp he
  exact ⟨n, outer, hl, hk, c, Node.labels_subset_innerLabels hc, he⟩

/-- Below a function the walks go on through its name; all its other slots are inside of it. -/
theorem aligned_slots_of_isFunction (hl : n.label = function) (hk : n.kind.isFunction = true)
    (hm : n.Matches true (· = function) n')
    (name : Aligned (Event.Twins function) (Event.Inside function) (Event.Inside function)
      (walk (n :: outer) ⟨n.get "id", true⟩).items
      (walk (n' :: outer') ⟨n'.get "id", true⟩).items) :
    Aligned (Event.Twins function) (Event.Inside function) (Event.Inside function)
      (n.slots.items.flatMap fun c => (walk (n :: outer) c).items)
      (n'.slots.items.flatMap fun c => (walk (n' :: outer') c).items) := by
  have hk' : n'.kind.isFunction = true := hm.kind ▸ hk
  rw [Node.items_slots_of_isFunction hk, Node.items_slots_of_isFunction hk', List.flatMap_cons,
    List.flatMap_cons]
  refine name.append (.of_apart ?_ ?_)
  · exact fun e he => inside_of_mem_flatMap hl hk he
  · exact fun e he => inside_of_mem_flatMap (hm.label.trans hl) hk' he

/-- Walks through trees that match except inside a function make the same reports but for those
inside. -/
theorem aligned_walk
    (functions : ∀ e ∈ (walk outer s).items, e.node.label = function →
      e.node.kind.isFunction = true)
    (h : s.Matches true (· = function) s')
    (ho : List.Forall₂ (Node.Matches true (· = function)) outer outer')
    (ends : (walk outer s).fault = none) (ends' : (walk outer' s').fault = none)
    (past : GoesPast function outer s) (past' : GoesPast function outer' s') :
    Aligned (Event.Twins function) (Event.Inside function) (Event.Inside function)
      (walk outer s).items (walk outer' s').items := by
  induction s using slot_induction generalizing s' outer outer' with
  | step s ih =>
    obtain ⟨hv, ht⟩ := h
    rcases hv.node? with ⟨hn, hn'⟩ | ⟨n, n', hn, hn', hm⟩
    · rw [walk_of_node?_eq_none hn, walk_of_node?_eq_none hn']
      exact .nil
    · have hs := (fault_walk hn).mp ends
      have hs' := (fault_walk hn').mp ends'
      have nodes : List.Forall₂ (Node.Matches true (· = function)) (n :: outer) (n' :: outer') :=
        .cons hm ho
      have below {c : Slot} (hc : c ∈ n.slots.items) :
          ∀ e ∈ (walk (n :: outer) c).items, e.node.label = function →
            e.node.kind.isFunction = true := fun e he =>
        functions e ((mem_walk_iff hn ends).mpr (.inl ⟨c, hc, he⟩))
      rw [items_walk hn ends, items_walk hn' ends', ht, hm.reports_eq]
      refine Aligned.append ?slots ?reports
      case reports =>
        apply Aligned.of_forall₂
        rw [List.forall₂_map_left_iff, List.forall₂_map_right_iff]
        exact List.forall₂_same.mpr fun k _ => ⟨⟨rfl, hm, ho⟩, past n hn, past' n' hn'⟩
      case slots =>
        by_cases hl : n.label = function
        · have hk : n.kind.isFunction = true := by
            obtain ⟨k, hk⟩ := List.exists_mem_of_ne_nil _ (n.reports_ne_nil s.target)
            exact functions ⟨k, n, outer⟩ ((mem_walk_iff hn ends).mpr (.inr ⟨hk, rfl, rfl⟩)) hl
          have mem {m : Node} (hk : m.kind.isFunction = true) :
              ⟨m.get "id", true⟩ ∈ m.slots.items :=
            Node.items_slots_of_isFunction hk ▸ List.mem_cons_self
          refine aligned_slots_of_isFunction hl hk hm ?_
          exact ih n hn _ (mem hk) (below (mem hk)) ⟨hm.get _ (.inr (by decide)), rfl⟩ nodes
            (hs.2.2 _ (mem hk)) (hs'.2.2 _ (mem (hm.kind ▸ hk))) (.name (past n hn))
            (.name (past' n' hn'))
        · have slots := ((hm.arranges_slots hl) hs.1).2.forall₂
          refine Aligned.flatMap slots ?_
          intro c hc c' hc' hcc
          exact ih n hn c hc (below hc) hcc nodes (hs.2.2 c hc) (hs'.2.2 c' hc')
            (.of_ne (past n hn) hl c) (.of_ne (past' n' hn') (hm.label ▸ hl) c')

end

end LexicalScope
