import LexicalScope.Json.Printer
import LexicalScope.Proofs.Json.Number
import LexicalScope.Proofs.Json.Quoted

/-! # ASCII layouts

In an ASCII layout a value is written with ASCII characters alone, whatever its texts hold. A
character above U+FFFF is written as a pair of units, and the pair joins to the character again.
-/

namespace LexicalScope

def IsAscii (cs : List Char) : Prop := ∀ c ∈ cs, c.toNat < 0x80

section

variable {c : Char} {cs ds : List Char}

theorem isAscii_nil : IsAscii [] := by simp [IsAscii]

theorem isAscii_cons : IsAscii (c :: cs) ↔ c.toNat < 0x80 ∧ IsAscii cs := List.forall_mem_cons

theorem isAscii_append : IsAscii (cs ++ ds) ↔ IsAscii cs ∧ IsAscii ds := List.forall_mem_append

theorem isAscii_flatMap {α : Type} {as : List α} {f : α → List Char}
    (h : ∀ a ∈ as, IsAscii (f a)) : IsAscii (as.flatMap f) := by
  intro c hc
  obtain ⟨a, ha, hc⟩ := List.mem_flatMap.mp hc
  exact h a ha c hc

end

namespace Quoted

theorem toNat_hexDigit_lt {n : Nat} (h : n < 16) : (hexDigit n).toNat < 0x80 := by
  interval_cases n <;> decide

theorem isAscii_escapeUnit (u : Nat) : IsAscii (escapeUnit u) := by
  have digit (n : Nat) : (hexDigit (n % 16)).toNat < 0x80 :=
    toNat_hexDigit_lt (Nat.mod_lt n (by decide))
  simp only [escapeUnit, isAscii_cons, digit, true_and]
  exact ⟨by decide, by decide, isAscii_nil⟩

theorem toNat_shortEscape?_lt {c letter : Char} (h : shortEscape? c = some letter) :
    c.toNat < 0x80 ∧ letter.toNat < 0x80 := by
  unfold shortEscape? at h
  split_ifs at h <;> subst_vars <;> obtain rfl := Option.some.inj h <;> decide

theorem isAscii_escape (c : Char) : IsAscii (escape true c) := by
  unfold escape
  split
  · next letter short =>
    have ascii := (toNat_shortEscape?_lt short).2
    exact isAscii_cons.mpr ⟨by decide, isAscii_cons.mpr ⟨ascii, isAscii_nil⟩⟩
  · split
    · next plain =>
      refine isAscii_cons.mpr ⟨?_, isAscii_nil⟩
      simp only [isPlain, Bool.not_true, Bool.false_or, Bool.and_eq_true,
        decide_eq_true_eq] at plain
      omega
    · exact isAscii_flatMap fun u _ => isAscii_escapeUnit u

theorem isAscii_encode (cs : List Char) : IsAscii (encode true cs) :=
  isAscii_flatMap fun c _ => isAscii_escape c

/-- A character above U+FFFF is written as a high and a low unit that join to it. -/
theorem encode_of_long {c : Char} (h : 0xFFFF < c.toNat) : ∃ high low, isHigh high = true ∧
    isLow low = true ∧ encode true [c] = escapeUnit high ++ escapeUnit low ∧
      join? [.unit high, .unit low] = some [c] := by
  have long : units c =
      [0xD800 + (c.toNat - 0x10000) / 1024, 0xDC00 + (c.toNat - 0x10000) % 1024] := by
    rw [units, if_neg (by omega)]
  have short : shortEscape? c = none := by
    cases short : shortEscape? c with
    | none => rfl
    | some letter =>
      have ascii := (toNat_shortEscape?_lt short).1
      omega
  have plain : isPlain true c = false := by
    simp only [isPlain, Bool.not_true, Bool.false_or, Bool.and_eq_false_imp, decide_eq_true_eq,
      decide_eq_false_iff_not]
    omega
  have joined := join?_units c []
  have valid := toNat_bounds c
  rw [long] at joined
  refine ⟨_, _, ?_, ?_, ?_, joined⟩
  · simp only [isHigh, Bool.and_eq_true, decide_eq_true_eq]
    omega
  · simp only [isLow, Bool.and_eq_true, decide_eq_true_eq]
    omega
  · simp [encode, escape, short, plain, escapeLong, long]

end Quoted

theorem NumberText.toNat_lt_of_isMember {c : Char} (h : isMember c = true) : c.toNat < 0x80 := by
  simp only [isMember, Bool.or_eq_true, beq_iff_eq] at h
  rcases h with ((((h | rfl) | rfl) | rfl) | rfl) | rfl
  · simp only [Char.isDigit, Bool.and_eq_true, decide_eq_true_eq, UInt32.le_iff_toNat_le] at h
    exact Nat.lt_of_le_of_lt h.2 (by decide)
  all_goals decide

theorem Number.isAscii_text (n : Number) : IsAscii n.text := by
  obtain ⟨t, ht⟩ := n.exists_parts?_text
  exact fun c hc => NumberText.toNat_lt_of_isMember (NumberText.isMember_of_parts? ht c hc)

namespace Json

section

variable {layout : Layout} {rest : List Char}

theorem isAscii_lineBreak (layout : Layout) (depth : Nat) : IsAscii (layout.lineBreak depth) := by
  unfold Layout.lineBreak
  split
  · exact isAscii_nil
  · refine isAscii_cons.mpr ⟨by decide, fun c hc => ?_⟩
    rw [List.eq_of_mem_replicate hc]
    decide

theorem isAscii_colon (layout : Layout) : IsAscii layout.colon := by
  unfold Layout.colon
  split <;> simp [IsAscii]

theorem isAscii_writeString (ascii : layout.ascii = true) (s : String) (h : IsAscii rest) :
    IsAscii (writeString layout s rest) := by
  rw [writeString, ascii, isAscii_cons, isAscii_append, isAscii_cons]
  exact ⟨by decide, Quoted.isAscii_encode _, by decide, h⟩

theorem isAscii_writeAtom (ascii : layout.ascii = true) (a : Atom) (h : IsAscii rest) :
    IsAscii (writeAtom layout a rest) := by
  unfold writeAtom
  split
  · exact isAscii_append.mpr ⟨by simp [IsAscii], h⟩
  · exact isAscii_append.mpr ⟨by simp [IsAscii], h⟩
  · exact isAscii_append.mpr ⟨by simp [IsAscii], h⟩
  · next n => exact isAscii_append.mpr ⟨n.isAscii_text, h⟩
  · exact isAscii_writeString ascii _ h

end

mutual

theorem isAscii_write {layout : Layout} (ascii : layout.ascii = true) (depth : Nat) (v : Json)
    {rest : List Char} (h : IsAscii rest) : IsAscii (write layout depth v rest) := by
  have close (c : Char) (hc : c.toNat < 0x80) : IsAscii (layout.lineBreak depth ++ c :: rest) :=
    isAscii_append.mpr ⟨isAscii_lineBreak layout depth, isAscii_cons.mpr ⟨hc, h⟩⟩
  match v with
  | .atom a =>
    rw [write]
    exact isAscii_writeAtom ascii a h
  | .arr [] =>
    rw [write, isAscii_cons, isAscii_cons]
    exact ⟨by decide, by decide, h⟩
  | .arr (v :: vs) =>
    rw [write, isAscii_cons, isAscii_append]
    exact ⟨by decide, isAscii_lineBreak layout _, isAscii_write ascii _ v <|
      isAscii_writeItems ascii _ vs (close ']' (by decide))⟩
  | .obj [] =>
    rw [write, isAscii_cons, isAscii_cons]
    exact ⟨by decide, by decide, h⟩
  | .obj ((k, v) :: fs) =>
    rw [write, isAscii_cons, isAscii_append]
    exact ⟨by decide, isAscii_lineBreak layout _, isAscii_writeString ascii k <|
      isAscii_append.mpr ⟨isAscii_colon layout, isAscii_write ascii _ v <|
        isAscii_writeFields ascii _ fs (close '\x7d' (by decide))⟩⟩

theorem isAscii_writeItems {layout : Layout} (ascii : layout.ascii = true) (depth : Nat)
    (vs : List Json) {rest : List Char} (h : IsAscii rest) :
    IsAscii (writeItems layout depth vs rest) := by
  match vs with
  | [] => rwa [writeItems]
  | v :: vs =>
    rw [writeItems, isAscii_cons, isAscii_append]
    exact ⟨by decide, isAscii_lineBreak layout _, isAscii_write ascii _ v <|
      isAscii_writeItems ascii _ vs h⟩

theorem isAscii_writeFields {layout : Layout} (ascii : layout.ascii = true) (depth : Nat)
    (fs : List (String × Json)) {rest : List Char} (h : IsAscii rest) :
    IsAscii (writeFields layout depth fs rest) := by
  match fs with
  | [] => rwa [writeFields]
  | (k, v) :: fs =>
    rw [writeFields, isAscii_cons, isAscii_append]
    exact ⟨by decide, isAscii_lineBreak layout _, isAscii_writeString ascii k <|
      isAscii_append.mpr ⟨isAscii_colon layout, isAscii_write ascii _ v <|
        isAscii_writeFields ascii _ fs h⟩⟩

end

/-- In an ASCII layout every value is written with ASCII characters alone. -/
theorem isAscii_render {layout : Layout} (ascii : layout.ascii = true) (v : Json) :
    IsAscii (v.render layout).toList := by
  rw [render, String.toList_ofList]
  exact isAscii_write ascii 0 v isAscii_nil

end Json

end LexicalScope
