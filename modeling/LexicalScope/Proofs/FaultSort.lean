import LexicalScope.Yield

/-! # Faults of a sort

A result is an error of a sort, or none, if every step that it is made of is. A yield breaks off
with a fault of a sort, or not at all, if every yield that it is made of does.
-/

namespace LexicalScope

variable {α β : Type} {P : Fault → Prop}

def ErrorsIn (P : Fault → Prop) (r : Except Fault α) : Prop := ∀ f, r = .error f → P f

theorem errorsIn_ok (a : α) : ErrorsIn P (.ok a) := by
  intro f hf
  cases hf

theorem errorsIn_error {f : Fault} (h : P f) : ErrorsIn P (.error f : Except Fault α) := by
  rintro f' hf
  cases hf
  exact h

theorem ErrorsIn.bind {r : Except Fault α} {g : α → Except Fault β} (h : ErrorsIn P r)
    (hg : ∀ a, ErrorsIn P (g a)) : ErrorsIn P (r >>= g) := by
  cases r with
  | ok a => exact hg a
  | error e => exact errorsIn_error (h e rfl)

theorem ErrorsIn.map {r : Except Fault α} (h : ErrorsIn P r) (g : α → β) :
    ErrorsIn P (r.map g) := by
  cases r with
  | ok a => exact errorsIn_ok _
  | error e => exact errorsIn_error (h e rfl)

theorem ErrorsIn.ite {c : Prop} [Decidable c] {r s : Except Fault α} (hr : ErrorsIn P r)
    (hs : ErrorsIn P s) : ErrorsIn P (if c then r else s) := by
  split
  · exact hr
  · exact hs

namespace Yield

/-- A yield that, if it breaks off, does so with a fault of a sort. -/
def FailsWith (P : Fault → Prop) (y : Yield α) : Prop := ∀ f, y.fault = some f → P f

namespace FailsWith

theorem of_fault_eq_none {y : Yield α} (h : y.fault = none) : y.FailsWith P := by
  intro f hf
  rw [h] at hf
  cases hf

theorem fail {f : Fault} (h : P f) : (Yield.fail f : Yield α).FailsWith P := by
  rintro f' hf
  cases hf
  exact h

theorem ofExcept {r : Except Fault (List α)} (h : ErrorsIn P r) :
    (Yield.ofExcept r).FailsWith P := by
  cases r with
  | ok as => exact of_fault_eq_none rfl
  | error e => exact fail (h e rfl)

theorem append {p q : Yield α} (hp : p.FailsWith P) (hq : q.FailsWith P) :
    (p ++ q).FailsWith P := by
  obtain ⟨as, _ | e⟩ := p
  · exact hq
  · exact hp

theorem collect {f : α → Yield β} {as : List α} (h : ∀ a ∈ as, (f a).FailsWith P) :
    (collect f as).FailsWith P := by
  induction as with
  | nil => exact of_fault_eq_none rfl
  | cons a as ih =>
    obtain ⟨ha, hs⟩ := List.forall_mem_cons.mp h
    exact ha.append (ih hs)

theorem flatMap {y : Yield α} {f : α → Yield β} (hy : y.FailsWith P)
    (h : ∀ a ∈ y.items, (f a).FailsWith P) : (y.flatMap f).FailsWith P :=
  (collect h).append hy

theorem toExcept {y : Yield α} (h : y.FailsWith P) : ErrorsIn P y.toExcept := by
  obtain ⟨as, _ | e⟩ := y
  · exact errorsIn_ok _
  · exact errorsIn_error (h e rfl)

end FailsWith

end Yield

end LexicalScope
