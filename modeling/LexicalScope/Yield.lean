import LexicalScope.Fault

/-! # Yields

A yield is what a step-by-step computation has produced, and the fault that broke it off, if one
did. Joining two of them keeps the second only when the first ran to its end.
-/

namespace LexicalScope

structure Yield (α : Type) where
  items : List α
  fault : Option Fault

namespace Yield

variable {α β γ : Type}

def empty : Yield α := ⟨[], none⟩

def single (a : α) : Yield α := ⟨[a], none⟩

def ofList (as : List α) : Yield α := ⟨as, none⟩

def fail (e : Fault) : Yield α := ⟨[], some e⟩

def ofExcept : Except Fault (List α) → Yield α
  | .ok as => ofList as
  | .error e => fail e

def append (p q : Yield α) : Yield α :=
  match p.fault with
  | none => ⟨p.items ++ q.items, q.fault⟩
  | some _ => p

instance : Append (Yield α) := ⟨append⟩

def map (f : α → β) (p : Yield α) : Yield β := ⟨p.items.map f, p.fault⟩

def collect (f : α → Yield β) : List α → Yield β
  | [] => empty
  | a :: as => f a ++ collect f as

/-- Replace every item by a yield; the first fault met ends the whole. -/
def flatMap (p : Yield α) (f : α → Yield β) : Yield β := collect f p.items ++ ⟨[], p.fault⟩

/-- All items, provided that nothing broke the yield off. -/
def toExcept (p : Yield α) : Except Fault (List α) :=
  match p.fault with
  | none => .ok p.items
  | some e => .error e

@[simp]
theorem append_mk_none (as : List α) (q : Yield α) :
    (⟨as, none⟩ : Yield α) ++ q = ⟨as ++ q.items, q.fault⟩ := rfl

@[simp]
theorem append_mk_some (as : List α) (e : Fault) (q : Yield α) :
    (⟨as, some e⟩ : Yield α) ++ q = ⟨as, some e⟩ := rfl

@[simp]
theorem empty_append (p : Yield α) : empty ++ p = p := by simp [empty]

@[simp]
theorem append_empty (p : Yield α) : p ++ empty = p := by
  obtain ⟨as, _ | e⟩ := p <;> simp [empty]

theorem append_assoc (p q r : Yield α) : p ++ q ++ r = p ++ (q ++ r) := by
  obtain ⟨as, _ | e⟩ := p
  · obtain ⟨bs, _ | e⟩ := q <;> simp
  · simp

@[simp]
theorem collect_nil (f : α → Yield β) : collect f [] = empty := rfl

@[simp]
theorem collect_cons (f : α → Yield β) (a : α) (as : List α) :
    collect f (a :: as) = f a ++ collect f as := rfl

theorem collect_append (f : α → Yield β) (as bs : List α) :
    collect f (as ++ bs) = collect f as ++ collect f bs := by
  induction as with
  | nil => simp
  | cons a as ih => simp [ih, append_assoc]

theorem collect_congr {f g : α → Yield β} {as : List α} (h : ∀ a ∈ as, f a = g a) :
    collect f as = collect g as := by
  induction as with
  | nil => rfl
  | cons a as ih =>
    rw [collect_cons, collect_cons, h a List.mem_cons_self,
      ih fun b hb => h b (List.mem_cons_of_mem _ hb)]

theorem mem_append {p q : Yield α} {a : α} (h : a ∈ (p ++ q).items) :
    a ∈ p.items ∨ a ∈ q.items := by
  obtain ⟨as, _ | e⟩ := p
  · simpa using h
  · exact .inl (by simpa using h)

theorem mem_collect {f : α → Yield β} {as : List α} {b : β} (h : b ∈ (collect f as).items) :
    ∃ a ∈ as, b ∈ (f a).items := by
  induction as with
  | nil => simp [empty] at h
  | cons a as ih =>
    rcases mem_append h with h | h
    · exact ⟨a, List.mem_cons_self, h⟩
    · obtain ⟨c, hc, h⟩ := ih h
      exact ⟨c, List.mem_cons_of_mem _ hc, h⟩

theorem mem_flatMap {p : Yield α} {f : α → Yield β} {b : β} (h : b ∈ (p.flatMap f).items) :
    ∃ a ∈ p.items, b ∈ (f a).items := by
  rcases mem_append h with h | h
  · exact mem_collect h
  · simp at h

@[simp]
theorem fault_append {p q : Yield α} :
    (p ++ q).fault = none ↔ p.fault = none ∧ q.fault = none := by
  obtain ⟨as, _ | e⟩ := p <;> simp

theorem items_append {p : Yield α} (q : Yield α) (h : p.fault = none) :
    (p ++ q).items = p.items ++ q.items := by
  obtain ⟨as, _ | e⟩ := p
  · rfl
  · cases h

@[simp]
theorem fault_collect {f : α → Yield β} {as : List α} :
    (collect f as).fault = none ↔ ∀ a ∈ as, (f a).fault = none := by
  induction as with
  | nil => simp [empty]
  | cons a as ih => simp [ih]

theorem items_collect {f : α → Yield β} {as : List α} (h : ∀ a ∈ as, (f a).fault = none) :
    (collect f as).items = as.flatMap fun a => (f a).items := by
  induction as with
  | nil => rfl
  | cons a as ih =>
    rw [collect_cons, items_append _ (h a List.mem_cons_self),
      ih fun b hb => h b (List.mem_cons_of_mem _ hb), List.flatMap_cons]

@[simp]
theorem fault_flatMap {p : Yield α} {f : α → Yield β} :
    (p.flatMap f).fault = none ↔ p.fault = none ∧ ∀ a ∈ p.items, (f a).fault = none := by
  simp [flatMap, and_comm]

theorem items_flatMap {p : Yield α} {f : α → Yield β} (h : (p.flatMap f).fault = none) :
    (p.flatMap f).items = p.items.flatMap fun a => (f a).items := by
  have hf := (fault_flatMap.mp h).2
  rw [flatMap, items_append _ (fault_collect.mpr hf), items_collect hf, List.append_nil]

theorem mem_append_iff {p q : Yield α} {a : α} (h : (p ++ q).fault = none) :
    a ∈ (p ++ q).items ↔ a ∈ p.items ∨ a ∈ q.items := by
  rw [items_append _ (fault_append.mp h).1, List.mem_append]

theorem mem_flatMap_iff {p : Yield α} {f : α → Yield β} {b : β} (h : (p.flatMap f).fault = none) :
    b ∈ (p.flatMap f).items ↔ ∃ a ∈ p.items, b ∈ (f a).items := by
  rw [items_flatMap h, List.mem_flatMap]

@[simp]
theorem fault_map {p : Yield α} (f : α → β) : (p.map f).fault = p.fault := rfl

@[simp]
theorem items_map {p : Yield α} (f : α → β) : (p.map f).items = p.items.map f := rfl

@[simp]
theorem fault_empty : (empty : Yield α).fault = none := rfl

@[simp]
theorem items_empty : (empty : Yield α).items = [] := rfl

@[simp]
theorem fault_single (a : α) : (single a).fault = none := rfl

@[simp]
theorem items_single (a : α) : (single a).items = [a] := rfl

@[simp]
theorem fault_ofList (as : List α) : (ofList as).fault = none := rfl

@[simp]
theorem items_ofList (as : List α) : (ofList as).items = as := rfl

@[simp]
theorem fault_fail (e : Fault) : (fail e : Yield α).fault = some e := rfl

@[simp]
theorem items_fail (e : Fault) : (fail e : Yield α).items = [] := rfl

theorem fault_ofExcept {e : Except Fault (List α)} :
    (ofExcept e).fault = none ↔ ∃ as, e = .ok as := by
  cases e <;> simp [ofExcept]

theorem mem_ofExcept {e : Except Fault (List α)} {a : α} :
    a ∈ (ofExcept e).items ↔ ∃ as, e = .ok as ∧ a ∈ as := by
  cases e <;> simp [ofExcept]

theorem toExcept_eq_ok {p : Yield α} {as : List α} :
    p.toExcept = .ok as ↔ p.fault = none ∧ p.items = as := by
  obtain ⟨bs, _ | e⟩ := p <;> simp [toExcept]

theorem collect_attach (f : α → Yield β) (as : List α) :
    collect (fun a : { a // a ∈ as } => f a.1) as.attach = collect f as := by
  have map_val (bs : List { a // a ∈ as }) :
      collect (fun a : { a // a ∈ as } => f a.1) bs = collect f (bs.map Subtype.val) := by
    induction bs with
    | nil => rfl
    | cons b bs ih => simp [ih]
  rw [map_val, List.attach_map_subtype_val]

end Yield

end LexicalScope
