import LexicalScope.Json.Printer
import LexicalScope.Json.Reader
import LexicalScope.Proofs.Json.Number
import LexicalScope.Proofs.Json.Quoted

/-! # Reading what was printed

A value printed in any layout is read as that value, with every member of an object in its place.
The reader takes the text that follows a value for a part of it only where a number could go on.
Its fuel suffices if it exceeds the number of characters that the value takes up.
-/

namespace LexicalScope.Json

/-! ## Blanks -/

def Blank (cs : List Char) : Prop := ∀ c ∈ cs, isBlank c = true

theorem blank_lineBreak (layout : Layout) (depth : Nat) : Blank (layout.lineBreak depth) := by
  unfold Layout.lineBreak
  split
  · simp [Blank]
  · refine List.forall_mem_cons.mpr ⟨rfl, ?_⟩
    intro c hc
    rw [List.eq_of_mem_replicate hc]
    rfl

section

variable {bs cs : List Char}

theorem skipBlanks_append (h : Blank bs) : skipBlanks (bs ++ cs) = skipBlanks cs :=
  List.dropWhile_append_of_pos h

theorem skipBlanks_cons {c : Char} (h : isBlank c = false) : skipBlanks (c :: cs) = c :: cs := by
  simp [skipBlanks, h]

theorem read?_append (fuel : Nat) (h : Blank bs) : read? fuel (bs ++ cs) = read? fuel cs := by
  cases fuel with
  | zero => rfl
  | succ fuel => rw [read?, read?, skipBlanks_append h]

end

/-! ## Numbers -/

/-- A text that goes on with no character of a number. -/
def EndsNumber (cs : List Char) : Prop := ∀ c ∈ cs.head?, NumberText.isMember c = false

theorem endsNumber_cons {c : Char} {cs : List Char} (h : NumberText.isMember c = false) :
    EndsNumber (c :: cs) := by
  simpa [EndsNumber] using h

theorem endsNumber_lineBreak (layout : Layout) (depth : Nat) {c : Char} {cs : List Char}
    (h : NumberText.isMember c = false) : EndsNumber (layout.lineBreak depth ++ c :: cs) := by
  unfold Layout.lineBreak
  split
  · exact endsNumber_cons h
  · exact endsNumber_cons rfl

theorem ne_of_digit_or_minus {c : Char} (h : c.isDigit = true ∨ c = '-') :
    isBlank c = false ∧ c ≠ '"' ∧ c ≠ '[' ∧ c ≠ '\x7b' ∧ c ≠ 'n' ∧ c ≠ 't' ∧ c ≠ 'f' ∧ c ≠ ']' := by
  rcases h with h | rfl
  · refine ⟨?_, ?_⟩
    · cases blank : isBlank c with
      | false => rfl
      | true =>
        simp only [isBlank, Bool.or_eq_true, beq_iff_eq] at blank
        rcases blank with ((rfl | rfl) | rfl) | rfl <;> cases h
    · refine ⟨?_, ?_, ?_, ?_, ?_, ?_, ?_⟩ <;> rintro rfl <;> cases h
  · decide

section

variable {n : Number} {rest : List Char}

theorem readNumber?_text (h : EndsNumber rest) :
    readNumber? (n.text ++ rest) = some (atom (.number n), rest) := by
  obtain ⟨t, ht⟩ := n.exists_parts?_text
  have members := NumberText.isMember_of_parts? ht
  have takes : rest.takeWhile NumberText.isMember = [] ∧
      rest.dropWhile NumberText.isMember = rest := by
    cases rest with
    | nil => exact ⟨rfl, rfl⟩
    | cons c cs => simp [h c rfl]
  rw [readNumber?, List.takeWhile_append_of_pos members, List.dropWhile_append_of_pos members,
    takes.1, takes.2, List.append_nil, Number.ofText?_text]
  rfl

theorem read?_number (fuel : Nat) (h : EndsNumber rest) :
    read? (fuel + 1) (n.text ++ rest) = some (atom (.number n), rest) := by
  obtain ⟨t, ht⟩ := n.exists_parts?_text
  obtain ⟨c, cs, hc, first⟩ := NumberText.exists_head_of_parts? ht
  have read := readNumber?_text (n := n) h
  have ne := ne_of_digit_or_minus first
  rw [hc, List.cons_append] at read ⊢
  rw [read?, skipBlanks_cons ne.1]
  split <;> simp_all

end

theorem readString?_write (layout : Layout) (s : String) (rest : List Char) :
    readString? (Quoted.encode layout.ascii s.toList ++ '"' :: rest) = some (s, rest) := by
  simp [readString?, Quoted.decode?_encode]

theorem expect?_append (word rest : List Char) : expect? word (word ++ rest) = some rest := by
  have : word.isPrefixOf (word ++ rest) = true := List.isPrefixOf_iff_prefix.mpr ⟨rest, rfl⟩
  simp [expect?, this]

theorem read?_atom (layout : Layout) (fuel : Nat) (a : Atom) {rest : List Char}
    (h : EndsNumber rest) :
    read? (fuel + 1) (writeAtom layout a rest) = some (atom a, rest) := by
  cases a with
  | null => exact congrArg (Option.map _) (expect?_append "ull".toList rest)
  | bool b =>
    cases b with
    | true => exact congrArg (Option.map _) (expect?_append "rue".toList rest)
    | false => exact congrArg (Option.map _) (expect?_append "alse".toList rest)
  | number n => exact read?_number fuel h
  | str s =>
    simp only [writeAtom, writeString, read?, skipBlanks_cons (show isBlank '"' = false from rfl),
      readString?_write]
    rfl

/-! ## Containers -/

section

variable {fuel : Nat} {bs cs middle rest : List Char}

theorem read?_arr {v : Json} {vs : List Json} (blank : Blank bs)
    (first : ∃ c more, cs = c :: more ∧ isBlank c = false ∧ c ≠ ']')
    (value : read? fuel cs = some (v, middle)) (items : readItems? fuel middle = some (vs, rest)) :
    read? (fuel + 1) ('[' :: (bs ++ cs)) = some (arr (v :: vs), rest) := by
  obtain ⟨c, more, rfl, nonblank, ne⟩ := first
  simp [read?, skipBlanks_cons (show isBlank '[' = false from rfl), skipBlanks_append blank,
    skipBlanks_cons nonblank, ne, value, items]

theorem read?_obj {f : String × Json} {fs : List (String × Json)} (blank : Blank bs)
    (field : readField? fuel ('"' :: cs) = some (f, middle))
    (fields : readFields? fuel middle = some (fs, rest)) :
    read? (fuel + 1) ('\x7b' :: (bs ++ '"' :: cs)) = some (obj (f :: fs), rest) := by
  simp [read?, skipBlanks_cons (show isBlank '\x7b' = false from rfl), skipBlanks_append blank,
    skipBlanks_cons (show isBlank '"' = false from rfl), field, fields]

theorem readItems?_cons {v : Json} {vs : List Json} (blank : Blank bs)
    (value : read? fuel cs = some (v, middle)) (items : readItems? fuel middle = some (vs, rest)) :
    readItems? (fuel + 1) (',' :: (bs ++ cs)) = some (v :: vs, rest) := by
  simp [readItems?, skipBlanks_cons (show isBlank ',' = false from rfl), read?_append fuel blank,
    value, items]

theorem readItems?_nil (blank : Blank bs) :
    readItems? (fuel + 1) (bs ++ ']' :: rest) = some ([], rest) := by
  simp [readItems?, skipBlanks_append blank, skipBlanks_cons (show isBlank ']' = false from rfl)]

theorem readField?_write (layout : Layout) (k : String) {v : Json}
    (value : read? fuel cs = some (v, rest)) :
    readField? (fuel + 1) (writeString layout k (layout.colon ++ cs)) = some ((k, v), rest) := by
  have colon : ∃ bs, Blank bs ∧ layout.colon = ':' :: bs := by
    unfold Layout.colon
    split
    · exact ⟨[], by simp [Blank], rfl⟩
    · exact ⟨[' '], by simp [Blank, isBlank], rfl⟩
  obtain ⟨bs, blank, hc⟩ := colon
  have quote (cs : List Char) : expect? ['"'] ('"' :: cs) = some cs := expect?_append _ cs
  have mark (cs : List Char) : expect? [':'] (':' :: cs) = some cs := expect?_append _ cs
  simp [readField?, writeString, skipBlanks_cons (show isBlank '"' = false from rfl), quote,
    readString?_write, hc, skipBlanks_cons (show isBlank ':' = false from rfl), mark,
    read?_append fuel blank, value]

theorem readField?_append (blank : Blank bs) :
    readField? fuel (bs ++ cs) = readField? fuel cs := by
  cases fuel with
  | zero => rfl
  | succ fuel => rw [readField?, readField?, skipBlanks_append blank]

theorem readFields?_cons {f : String × Json} {fs : List (String × Json)} (blank : Blank bs)
    (field : readField? fuel cs = some (f, middle))
    (fields : readFields? fuel middle = some (fs, rest)) :
    readFields? (fuel + 1) (',' :: (bs ++ cs)) = some (f :: fs, rest) := by
  simp [readFields?, skipBlanks_cons (show isBlank ',' = false from rfl), readField?_append blank,
    field, fields]

theorem readFields?_nil (blank : Blank bs) :
    readFields? (fuel + 1) (bs ++ '\x7d' :: rest) = some ([], rest) := by
  simp [readFields?, skipBlanks_append blank,
    skipBlanks_cons (show isBlank '\x7d' = false from rfl)]

end

/-! ## Values -/

section

variable (layout : Layout) (depth : Nat)

theorem exists_head_writeAtom (a : Atom) (rest : List Char) :
    ∃ c more, writeAtom layout a rest = c :: more ∧ isBlank c = false ∧ c ≠ ']' := by
  cases a with
  | null => exact ⟨_, _, rfl, by decide⟩
  | bool b => cases b <;> exact ⟨_, _, rfl, by decide⟩
  | number n =>
    obtain ⟨t, ht⟩ := n.exists_parts?_text
    obtain ⟨c, cs, hc, first⟩ := NumberText.exists_head_of_parts? ht
    obtain ⟨nonblank, -, -, -, -, -, -, ne⟩ := ne_of_digit_or_minus first
    exact ⟨c, cs ++ rest, by rw [writeAtom, hc, List.cons_append], nonblank, ne⟩
  | str s => exact ⟨_, _, rfl, by decide⟩

theorem exists_head_write (v : Json) (rest : List Char) :
    ∃ c more, write layout depth v rest = c :: more ∧ isBlank c = false ∧ c ≠ ']' := by
  match v with
  | .atom a =>
    rw [write]
    exact exists_head_writeAtom layout a rest
  | .arr [] => exact ⟨_, _, by rw [write], by decide⟩
  | .arr (v :: vs) => exact ⟨_, _, by rw [write], by decide⟩
  | .obj [] => exact ⟨_, _, by rw [write], by decide⟩
  | .obj (f :: fs) => exact ⟨_, _, by rw [write], by decide⟩

theorem suffix_writeString (s : String) (rest : List Char) : rest <:+ writeString layout s rest :=
  (List.suffix_cons _ _).trans ((List.suffix_append _ _).trans (List.suffix_cons _ _))

theorem suffix_writeAtom (a : Atom) (rest : List Char) : rest <:+ writeAtom layout a rest := by
  unfold writeAtom
  split
  · exact List.suffix_append _ _
  · exact List.suffix_append _ _
  · exact List.suffix_append _ _
  · exact List.suffix_append _ _
  · exact suffix_writeString layout _ rest

theorem suffix_close (c : Char) (rest : List Char) : rest <:+ layout.lineBreak depth ++ c :: rest :=
  (List.suffix_cons c rest).trans (List.suffix_append _ _)

end

mutual

theorem suffix_write (layout : Layout) (depth : Nat) (v : Json) (rest : List Char) :
    rest <:+ write layout depth v rest := by
  match v with
  | .atom a =>
    rw [write]
    exact suffix_writeAtom layout a rest
  | .arr [] =>
    rw [write]
    exact ⟨['[', ']'], rfl⟩
  | .arr (v :: vs) =>
    rw [write]
    exact (suffix_close layout depth ']' rest).trans <|
      (suffix_writeItems layout (depth + 1) vs _).trans <|
      (suffix_write layout (depth + 1) v _).trans <|
      (List.suffix_append _ _).trans (List.suffix_cons _ _)
  | .obj [] =>
    rw [write]
    exact ⟨['\x7b', '\x7d'], rfl⟩
  | .obj ((k, v) :: fs) =>
    rw [write]
    exact (suffix_close layout depth '\x7d' rest).trans <|
      (suffix_writeFields layout (depth + 1) fs _).trans <|
      (suffix_write layout (depth + 1) v _).trans <|
      (List.suffix_append _ _).trans <| (suffix_writeString layout k _).trans <|
      (List.suffix_append _ _).trans (List.suffix_cons _ _)

theorem suffix_writeItems (layout : Layout) (depth : Nat) (vs : List Json) (rest : List Char) :
    rest <:+ writeItems layout depth vs rest := by
  match vs with
  | [] => simp [writeItems]
  | v :: vs =>
    rw [writeItems]
    exact (suffix_writeItems layout depth vs rest).trans <|
      (suffix_write layout depth v _).trans <|
      (List.suffix_append _ _).trans (List.suffix_cons _ _)

theorem suffix_writeFields (layout : Layout) (depth : Nat) (fs : List (String × Json))
    (rest : List Char) : rest <:+ writeFields layout depth fs rest := by
  match fs with
  | [] => simp [writeFields]
  | (k, v) :: fs =>
    rw [writeFields]
    exact (suffix_writeFields layout depth fs rest).trans <|
      (suffix_write layout depth v _).trans <|
      (List.suffix_append _ _).trans <| (suffix_writeString layout k _).trans <|
      (List.suffix_append _ _).trans (List.suffix_cons _ _)

end

/-- There is fuel for every character of a text up to what follows it. -/
def Fits (fuel : Nat) (text rest : List Char) : Prop := text.length < fuel + rest.length

theorem Fits.exists_succ {fuel : Nat} {text rest : List Char} (h : Fits fuel text rest)
    (suffix : rest <:+ text) : ∃ k, fuel = k + 1 := by
  have := suffix.length_le
  unfold Fits at h
  exact ⟨fuel - 1, by omega⟩

section

variable (layout : Layout) (depth : Nat) (rest : List Char)

/-- The items of an array after the first, and the bracket that closes it. -/
def writeRest (vs : List Json) : List Char :=
  writeItems layout (depth + 1) vs (layout.lineBreak depth ++ ']' :: rest)

def writeMembers (fs : List (String × Json)) : List Char :=
  writeFields layout (depth + 1) fs (layout.lineBreak depth ++ '\x7d' :: rest)

def writeMember (f : String × Json) (rest : List Char) : List Char :=
  writeString layout f.1 (layout.colon ++ write layout depth f.2 rest)

theorem write_arr (v : Json) (vs : List Json) : write layout depth (arr (v :: vs)) rest =
    '[' :: (layout.lineBreak (depth + 1) ++
      write layout (depth + 1) v (writeRest layout depth rest vs)) := by
  rw [write]
  rfl

theorem write_obj (f : String × Json) (fs : List (String × Json)) :
    write layout depth (obj (f :: fs)) rest = '\x7b' :: (layout.lineBreak (depth + 1) ++
      writeMember layout (depth + 1) f (writeMembers layout depth rest fs)) := by
  rw [write]
  rfl

theorem writeRest_cons (v : Json) (vs : List Json) : writeRest layout depth rest (v :: vs) =
    ',' :: (layout.lineBreak (depth + 1) ++
      write layout (depth + 1) v (writeRest layout depth rest vs)) := by
  rw [writeRest, writeItems]
  rfl

theorem writeMembers_cons (f : String × Json) (fs : List (String × Json)) :
    writeMembers layout depth rest (f :: fs) = ',' :: (layout.lineBreak (depth + 1) ++
      writeMember layout (depth + 1) f (writeMembers layout depth rest fs)) := by
  rw [writeMembers, writeFields]
  rfl

theorem endsNumber_writeRest (vs : List Json) : EndsNumber (writeRest layout depth rest vs) := by
  cases vs with
  | nil => exact endsNumber_lineBreak layout depth rfl
  | cons v vs =>
    rw [writeRest_cons]
    exact endsNumber_cons rfl

theorem endsNumber_writeMembers (fs : List (String × Json)) :
    EndsNumber (writeMembers layout depth rest fs) := by
  cases fs with
  | nil => exact endsNumber_lineBreak layout depth rfl
  | cons f fs =>
    rw [writeMembers_cons]
    exact endsNumber_cons rfl

theorem suffix_writeRest (vs : List Json) : rest <:+ writeRest layout depth rest vs :=
  (suffix_close layout depth ']' rest).trans (suffix_writeItems layout (depth + 1) vs _)

theorem suffix_writeMembers (fs : List (String × Json)) :
    rest <:+ writeMembers layout depth rest fs :=
  (suffix_close layout depth '\x7d' rest).trans (suffix_writeFields layout (depth + 1) fs _)

variable {layout depth rest} {fuel : Nat} {middle bs : List Char} {c : Char}

theorem Fits.value {v : Json} (suffix : rest <:+ middle)
    (h : Fits (fuel + 1) (c :: (bs ++ write layout depth v middle)) rest) :
    Fits fuel (write layout depth v middle) middle ∧ Fits fuel middle rest := by
  have after := (suffix_write layout depth v middle).length_le
  have outer := suffix.length_le
  simp only [Fits, List.length_cons, List.length_append] at *
  omega

theorem Fits.member {f : String × Json} (suffix : rest <:+ middle)
    (h : Fits (fuel + 1) (c :: (bs ++ writeMember layout depth f middle)) rest) :
    ∃ k, fuel = k + 1 ∧ Fits k (write layout depth f.2 middle) middle ∧ Fits fuel middle rest := by
  have after := (suffix_write layout depth f.2 middle).length_le
  have outer := suffix.length_le
  simp only [Fits, writeMember, writeString, List.length_cons, List.length_append] at *
  exact ⟨fuel - 1, by omega⟩

end

mutual

theorem read?_write (layout : Layout) (depth : Nat) (v : Json) {fuel : Nat} {rest : List Char}
    (ends : EndsNumber rest) (fits : Fits fuel (write layout depth v rest) rest) :
    read? fuel (write layout depth v rest) = some (v, rest) := by
  obtain ⟨fuel, rfl⟩ := fits.exists_succ (suffix_write layout depth v rest)
  match v with
  | .atom a =>
    rw [write]
    exact read?_atom layout fuel a ends
  | .arr [] =>
    rw [write]
    rfl
  | .arr (v :: vs) =>
    rw [write_arr] at fits ⊢
    obtain ⟨value, items⟩ := fits.value (suffix_writeRest layout depth rest vs)
    exact read?_arr (blank_lineBreak layout _) (exists_head_write layout _ v _)
      (read?_write layout (depth + 1) v (endsNumber_writeRest layout depth rest vs) value)
      (readItems?_writeRest layout depth vs items)
  | .obj [] =>
    rw [write]
    rfl
  | .obj ((k, v) :: fs) =>
    rw [write_obj] at fits ⊢
    obtain ⟨fuel, rfl, value, fields⟩ := fits.member (suffix_writeMembers layout depth rest fs)
    refine read?_obj (blank_lineBreak layout _) ?_ (readFields?_writeMembers layout depth fs fields)
    exact readField?_write layout k
      (read?_write layout (depth + 1) v (endsNumber_writeMembers layout depth rest fs) value)

theorem readItems?_writeRest (layout : Layout) (depth : Nat) (vs : List Json) {fuel : Nat}
    {rest : List Char} (fits : Fits fuel (writeRest layout depth rest vs) rest) :
    readItems? fuel (writeRest layout depth rest vs) = some (vs, rest) := by
  obtain ⟨fuel, rfl⟩ := fits.exists_succ (suffix_writeRest layout depth rest vs)
  match vs with
  | [] => exact readItems?_nil (blank_lineBreak layout depth)
  | v :: vs =>
    rw [writeRest_cons] at fits ⊢
    obtain ⟨value, items⟩ := fits.value (suffix_writeRest layout depth rest vs)
    exact readItems?_cons (blank_lineBreak layout _)
      (read?_write layout (depth + 1) v (endsNumber_writeRest layout depth rest vs) value)
      (readItems?_writeRest layout depth vs items)

theorem readFields?_writeMembers (layout : Layout) (depth : Nat) (fs : List (String × Json))
    {fuel : Nat} {rest : List Char} (fits : Fits fuel (writeMembers layout depth rest fs) rest) :
    readFields? fuel (writeMembers layout depth rest fs) = some (fs, rest) := by
  obtain ⟨fuel, rfl⟩ := fits.exists_succ (suffix_writeMembers layout depth rest fs)
  match fs with
  | [] => exact readFields?_nil (blank_lineBreak layout depth)
  | (k, v) :: fs =>
    rw [writeMembers_cons] at fits ⊢
    obtain ⟨fuel, rfl, value, fields⟩ := fits.member (suffix_writeMembers layout depth rest fs)
    refine readFields?_cons (blank_lineBreak layout _) ?_
      (readFields?_writeMembers layout depth fs fields)
    exact readField?_write layout k
      (read?_write layout (depth + 1) v (endsNumber_writeMembers layout depth rest fs) value)

end

/-- A printed value is read as that value. -/
theorem parse?_render (layout : Layout) (v : Json) : parse? (v.render layout) = some v := by
  have fits : Fits ((write layout 0 v []).length + 1) (write layout 0 v []) [] := by
    simp [Fits]
  have read := read?_write layout 0 v (by simp [EndsNumber]) fits
  have chars : (v.render layout).toList = write layout 0 v [] := by simp [render]
  simp only [parse?, chars, read]
  rfl

end LexicalScope.Json
