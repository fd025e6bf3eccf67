import LexicalScope.Json.Quoted
import Mathlib.Tactic.IntervalCases

/-! # Reading a quoted text

A quoted text is read as the text it quotes, in its ASCII form as well. An escape is read as one
piece, or as two for a character above U+FFFF, and the pieces of a character join to it again.
-/

namespace LexicalScope.Quoted

/-- What a reader takes a quoted character for. -/
def pieces (ascii : Bool) (c : Char) : List Piece :=
  if (shortEscape? c).isSome || isPlain ascii c then [.char c] else (units c).map .unit

/-! ## Escapes -/

theorem shortMeaning?_of_shortEscape? {c letter : Char} (h : shortEscape? c = some letter) :
    shortMeaning? letter = some c ∧ letter ≠ 'u' := by
  unfold shortEscape? at h
  split_ifs at h <;> subst_vars <;> obtain rfl := Option.some.inj h <;> exact ⟨rfl, by decide⟩

theorem ne_of_isPlain {ascii : Bool} {c : Char} (long : shortEscape? c = none)
    (plain : isPlain ascii c = true) : c ≠ '"' ∧ c ≠ '\\' ∧ ¬ c.toNat < 0x20 := by
  refine ⟨?_, ?_, ?_⟩
  · rintro rfl
    cases long
  · rintro rfl
    cases long
  · simp only [isPlain, Bool.and_eq_true, decide_eq_true_eq] at plain
    omega

theorem hexValue?_hexDigit {n : Nat} (h : n < 16) : hexValue? (hexDigit n) = some n := by
  interval_cases n <;> decide

theorem unitOf?_digits {u : Nat} (h : u < 0x10000) : unitOf? (hexDigit (u / 4096 % 16))
    (hexDigit (u / 256 % 16)) (hexDigit (u / 16 % 16)) (hexDigit (u % 16)) = some u := by
  have digit (n : Nat) : hexValue? (hexDigit (n % 16)) = some (n % 16) :=
    hexValue?_hexDigit (Nat.mod_lt _ (by decide))
  simp only [unitOf?, digit, Option.bind_eq_bind, Option.bind_some, Option.some.injEq]
  omega

theorem toNat_bounds (c : Char) :
    c.toNat < 0xD800 ∨ 0xDFFF < c.toNat ∧ c.toNat < 0x110000 := c.valid

theorem units_lt {c : Char} : ∀ u ∈ units c, u < 0x10000 := by
  have valid := toNat_bounds c
  unfold units
  dsimp only
  split
  · next short => exact List.forall_mem_singleton.mpr short
  · refine List.forall_mem_cons.mpr ⟨?_, List.forall_mem_singleton.mpr ?_⟩ <;> omega

/-! ## Pieces -/

/-- A part of a quoted text is read as some pieces, whatever follows it. -/
def Reads (text : List Char) (ps : List Piece) : Prop :=
  ∀ {more rest : List Char} {qs : List Piece}, pieces? more = some (qs, rest) →
    pieces? (text ++ more) = some (ps ++ qs, rest)

section

variable {c : Char}

theorem reads_short {letter : Char} (h : shortMeaning? letter = some c) (hu : letter ≠ 'u') :
    Reads ['\\', letter] [.char c] := by
  intro more rest qs read
  simp [pieces?, hu, h, read]

theorem reads_plain (quote : c ≠ '"') (backslash : c ≠ '\\') (control : ¬ c.toNat < 0x20) :
    Reads [c] [.char c] := by
  intro more rest qs read
  show pieces? (c :: more) = _
  rw [pieces?.eq_def]
  split <;> simp_all

theorem reads_unit {u : Nat} (h : u < 0x10000) : Reads (escapeUnit u) [.unit u] := by
  intro more rest qs read
  simp [escapeUnit, pieces?, unitOf?_digits h, read]

theorem reads_append {text text' : List Char} {ps ps' : List Piece} (h : Reads text ps)
    (h' : Reads text' ps') : Reads (text ++ text') (ps ++ ps') := by
  intro more rest qs read
  rw [List.append_assoc, List.append_assoc]
  exact h (h' read)

theorem reads_units {us : List Nat} (h : ∀ u ∈ us, u < 0x10000) :
    Reads (us.flatMap escapeUnit) (us.map .unit) := by
  induction us with
  | nil => exact fun read => read
  | cons u us ih =>
    obtain ⟨hu, hs⟩ := List.forall_mem_cons.mp h
    exact reads_append (reads_unit hu) (ih hs)

end

theorem reads_escape (ascii : Bool) (c : Char) : Reads (escape ascii c) (pieces ascii c) := by
  unfold escape pieces
  cases short : shortEscape? c with
  | some letter =>
    obtain ⟨meaning, hu⟩ := shortMeaning?_of_shortEscape? short
    exact reads_short meaning hu
  | none =>
    cases plain : isPlain ascii c with
    | true =>
      obtain ⟨quote, backslash, control⟩ := ne_of_isPlain short plain
      exact reads_plain quote backslash control
    | false => exact reads_units units_lt

theorem reads_encode (ascii : Bool) (cs : List Char) :
    Reads (encode ascii cs) (cs.flatMap (pieces ascii)) := by
  induction cs with
  | nil => exact fun read => read
  | cons c cs ih => exact reads_append (reads_escape ascii c) ih

/-! ## Joining pieces -/

theorem join?_units (c : Char) (ps : List Piece) :
    join? ((units c).map .unit ++ ps) = (join? ps).map (c :: ·) := by
  have valid := toNat_bounds c
  unfold units
  dsimp only
  split
  · have high : isHigh c.toNat = false := by
      simp [isHigh]
      omega
    have low : isLow c.toNat = false := by
      simp [isLow]
      omega
    conv_lhs => unfold join?
    simp [high, low]
  · have high : isHigh (0xD800 + (c.toNat - 0x10000) / 1024) = true := by
      simp [isHigh]
      omega
    have low : isLow (0xDC00 + (c.toNat - 0x10000) % 1024) = true := by
      simp [isLow]
      omega
    have same : 0x10000 + (0xD800 + (c.toNat - 0x10000) / 1024 - 0xD800) * 1024 +
        (0xDC00 + (c.toNat - 0x10000) % 1024 - 0xDC00) = c.toNat := by omega
    simp only [List.map_cons, List.map_nil, List.cons_append, List.nil_append, join?, high, low,
      if_true, same, Char.ofNat_toNat]

theorem join?_pieces (ascii : Bool) (c : Char) (ps : List Piece) :
    join? (pieces ascii c ++ ps) = (join? ps).map (c :: ·) := by
  unfold pieces
  split
  · rfl
  · exact join?_units c ps

theorem join?_flatMap_pieces (ascii : Bool) (cs : List Char) :
    join? (cs.flatMap (pieces ascii)) = some cs := by
  induction cs with
  | nil => rfl
  | cons c cs ih => rw [List.flatMap_cons, join?_pieces, ih, Option.map_some]

/-- A quoted text is read up to its closing quote. -/
theorem decode?_encode (ascii : Bool) (cs rest : List Char) :
    decode? (encode ascii cs ++ '"' :: rest) = some (cs, rest) := by
  have read : pieces? ('"' :: rest) = some ([], rest) := rfl
  simp [decode?, reads_encode ascii cs read, join?_flatMap_pieces]

end LexicalScope.Quoted
