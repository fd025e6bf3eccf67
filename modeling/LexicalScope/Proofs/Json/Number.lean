import LexicalScope.Json.Number
import Mathlib.Data.List.TakeWhile
import Mathlib.Data.Nat.Digits.Defs
import Mathlib.Tactic.IntervalCases

/-! # Reading the text of a number

The text of a number is read as that number. It is made of the characters that numbers are written
with, and begins with a digit or a minus.
-/

namespace LexicalScope

namespace NumberText

theorem isMember_of_isDigit {c : Char} (h : c.isDigit = true) : isMember c = true := by
  simp [isMember, h]

theorem isMember_of_isDigits {cs : List Char} (h : isDigits cs = true) :
    ∀ c ∈ cs, isMember c = true := by
  intro c hc
  simp only [isDigits, Bool.and_eq_true, List.all_eq_true] at h
  exact isMember_of_isDigit (h.2 c hc)

theorem isMember_of_mem_takeWhile {cs : List Char} :
    ∀ c ∈ cs.takeWhile Char.isDigit, isMember c = true :=
  fun _ hc => isMember_of_isDigit (List.mem_takeWhile_imp hc)

theorem isMember_of_exponent? {cs : List Char} {e : Option (Bool × List Char)}
    (h : exponent? cs = some e) : ∀ c ∈ cs, isMember c = true := by
  unfold exponent? at h
  split at h
  case h_1 => simp
  case h_2 c cs =>
    split at h
    case isFalse => cases h
    case isTrue letter =>
      have first : isMember c = true := by
        rcases (Bool.or_eq_true _ _).mp letter with hc | hc <;> rw [beq_iff_eq.mp hc] <;> rfl
      refine List.forall_mem_cons.mpr ⟨first, ?_⟩
      split at h <;> split at h
      case h_1.isTrue digits => exact List.forall_mem_cons.mpr ⟨rfl, isMember_of_isDigits digits⟩
      case h_2.isTrue digits => exact List.forall_mem_cons.mpr ⟨rfl, isMember_of_isDigits digits⟩
      case h_3.isTrue digits => exact isMember_of_isDigits digits
      all_goals cases h

theorem isMember_of_unsigned? {negative : Bool} {cs : List Char} {t : NumberText}
    (h : unsigned? negative cs = some t) : ∀ c ∈ cs, isMember c = true := by
  have split_member {ds : List Char} (hd : ∀ c ∈ ds.dropWhile Char.isDigit, isMember c = true) :
      ∀ c ∈ ds, isMember c = true := by
    rw [← List.takeWhile_append_dropWhile (p := Char.isDigit) (l := ds)]
    exact List.forall_mem_append.mpr ⟨isMember_of_mem_takeWhile, hd⟩
  unfold unsigned? at h
  refine split_member ?_
  dsimp only at h
  split at h
  · cases h
  · split at h
    · next rest hd =>
      rw [hd]
      refine List.forall_mem_cons.mpr ⟨rfl, split_member ?_⟩
      split at h
      · cases h
      · obtain ⟨e, he, -⟩ := Option.map_eq_some_iff.mp h
        exact isMember_of_exponent? he
    · obtain ⟨e, he, -⟩ := Option.map_eq_some_iff.mp h
      exact isMember_of_exponent? he

theorem isMember_of_parts? {cs : List Char} {t : NumberText} (h : parts? cs = some t) :
    ∀ c ∈ cs, isMember c = true := by
  unfold parts? at h
  split at h
  · exact List.forall_mem_cons.mpr ⟨rfl, isMember_of_unsigned? h⟩
  · exact isMember_of_unsigned? h

theorem exists_digit_of_unsigned? {negative : Bool} {cs : List Char} {t : NumberText}
    (h : unsigned? negative cs = some t) : ∃ c rest, cs = c :: rest ∧ c.isDigit = true := by
  cases cs with
  | nil => cases h
  | cons c rest =>
    refine ⟨c, rest, rfl, ?_⟩
    cases hc : c.isDigit with
    | true => rfl
    | false => simp [unsigned?, hc, isWhole] at h

theorem exists_head_of_parts? {cs : List Char} {t : NumberText} (h : parts? cs = some t) :
    ∃ c rest, cs = c :: rest ∧ (c.isDigit = true ∨ c = '-') := by
  unfold parts? at h
  split at h
  · exact ⟨_, _, rfl, .inr rfl⟩
  · obtain ⟨c, rest, hc, digit⟩ := exists_digit_of_unsigned? h
    exact ⟨c, rest, hc, .inl digit⟩

/-! ## Integers -/

theorem isDigit_of_mem_toDigits {n : Nat} : ∀ c ∈ Nat.toDigits 10 n, c.isDigit = true :=
  fun _ hc => Nat.isDigit_of_mem_toDigits (by decide) (by decide) hc

theorem head?_toDigits_ne_zero {n : Nat} (h : 0 < n) : (Nat.toDigits 10 n).head? ≠ some '0' := by
  induction n using Nat.strongRecOn with
  | ind n ih =>
    rcases Nat.lt_or_ge n 10 with small | large
    · rw [Nat.toDigits_of_lt_base small]
      interval_cases n <;> decide
    · rw [Nat.toDigits_of_base_le (by decide) large, List.head?_append,
        Option.or_of_isSome (by simp [Nat.toDigits_ne_nil])]
      exact ih (n / 10) (by omega) (by omega)

theorem isWhole_toDigits (n : Nat) : isWhole (Nat.toDigits 10 n) = true := by
  have digits := isDigit_of_mem_toDigits (n := n)
  rcases Nat.eq_zero_or_pos n with rfl | positive
  · rfl
  · have head := head?_toDigits_ne_zero positive
    match hd : Nat.toDigits 10 n with
    | [] => exact absurd hd Nat.toDigits_ne_nil
    | [c] => exact digits c (by simp [hd])
    | c :: d :: ds =>
      rw [hd] at head digits
      simp only [isWhole, Bool.and_eq_true, bne_iff_ne, List.all_eq_true]
      exact ⟨fun zero => head (by rw [zero]; rfl), digits⟩

theorem unsigned?_toDigits (negative : Bool) (n : Nat) :
    unsigned? negative (Nat.toDigits 10 n) = some ⟨negative, Nat.toDigits 10 n, none, none⟩ := by
  have all : (Nat.toDigits 10 n).takeWhile Char.isDigit = Nat.toDigits 10 n :=
    List.takeWhile_eq_self_iff.mpr isDigit_of_mem_toDigits
  have none : (Nat.toDigits 10 n).dropWhile Char.isDigit = [] :=
    List.dropWhile_eq_nil_iff.mpr isDigit_of_mem_toDigits
  simp [unsigned?, all, none, isWhole_toDigits, exponent?]

theorem parts?_toDigits (n : Nat) :
    parts? (Nat.toDigits 10 n) = some ⟨false, Nat.toDigits 10 n, none, none⟩ := by
  have read := unsigned?_toDigits false n
  obtain ⟨c, rest, hc, digit⟩ := exists_digit_of_unsigned? read
  rw [hc] at read ⊢
  unfold parts?
  split
  · next heq =>
    obtain rfl := (List.cons.inj heq).1
    cases digit
  · exact read

end NumberText

namespace Number

theorem parts?_text_int (n : Int) : NumberText.parts? (int n).text =
    some ⟨decide (n < 0), Nat.toDigits 10 n.natAbs, none, none⟩ := by
  by_cases negative : n < 0
  · simp only [text, negative, if_true, decide_true]
    exact NumberText.unsigned?_toDigits true n.natAbs
  · simp only [text, negative, if_false, decide_false]
    exact NumberText.parts?_toDigits n.natAbs

theorem exists_parts?_text (n : Number) : ∃ t, NumberText.parts? n.text = some t := by
  cases n with
  | int n => exact ⟨_, parts?_text_int n⟩
  | real r =>
    obtain ⟨t, ht, -⟩ := (Option.any_eq_true _ _).mp r.isReal
    exact ⟨t, ht⟩

theorem value_digits (negative : Bool) (n : Nat) :
    (NumberText.value ⟨negative, Nat.toDigits 10 n, none, none⟩).mantissa =
      if negative then -(n : Int) else n := by
  simp [NumberText.value]

/-- The text of a number is read as the number. -/
theorem ofText?_text (n : Number) : ofText? n.text = some n := by
  obtain ⟨t, ht⟩ := n.exists_parts?_text
  unfold ofText?
  split
  · next none => simp [ht] at none
  · next t' ht' =>
    cases n with
    | int n =>
      obtain rfl := Option.some.inj (ht'.symm.trans (parts?_text_int n))
      have same : (if decide (n < 0) = true then -(n.natAbs : Int) else n.natAbs) = n := by
        simp only [decide_eq_true_eq]
        omega
      simp only [NumberText.isInteger, Option.isNone_none, Bool.and_self, dite_true, value_digits,
        same]
    | real r =>
      have real := r.isReal
      rw [show NumberText.parts? r.chars = some t' from ht'] at real
      rw [dif_neg (by simpa using real)]
      rfl

end Number

end LexicalScope
