import LexicalScope.Proofs.Command.Listing
import LexicalScope.Proofs.Json.Ascii
import LexicalScope.Proofs.Json.RoundTrip

/-! # The JSON listing

The listing of free variables as JSON is ASCII text, and it says all that there is to say: it is
read as the variables in their order, each with its name and the positions of its references.
Characters above U+FFFF stand in it as pairs of units.
-/

namespace LexicalScope

namespace Json

variable (layout : Layout) (depth : Nat) (rest : List Char)

theorem exists_suffix_writeItems {v : Json} {vs : List Json} (h : v ∈ vs) :
    ∃ after, write layout depth v after <:+ writeItems layout depth vs rest := by
  induction vs with
  | nil => cases h
  | cons w ws ih =>
    rw [writeItems]
    rcases List.mem_cons.mp h with rfl | h
    · exact ⟨_, (List.suffix_append _ _).trans (List.suffix_cons _ _)⟩
    · obtain ⟨after, inner⟩ := ih h
      exact ⟨after, inner.trans <| (suffix_write layout depth w _).trans <|
        (List.suffix_append _ _).trans (List.suffix_cons _ _)⟩

theorem exists_suffix_write_arr {v : Json} {vs : List Json} (h : v ∈ vs) :
    ∃ after, write layout (depth + 1) v after <:+ write layout depth (arr vs) rest := by
  cases vs with
  | nil => cases h
  | cons w ws =>
    rw [write_arr]
    rcases List.mem_cons.mp h with rfl | h
    · exact ⟨_, (List.suffix_append _ _).trans (List.suffix_cons _ _)⟩
    · obtain ⟨after, inner⟩ := exists_suffix_writeItems layout (depth + 1)
        (layout.lineBreak depth ++ ']' :: rest) h
      exact ⟨after, inner.trans <| (suffix_write layout (depth + 1) w _).trans <|
        (List.suffix_append _ _).trans (List.suffix_cons _ _)⟩

theorem exists_suffix_write_obj (k : String) (v : Json) (fs : List (String × Json)) :
    ∃ after, write layout (depth + 1) v after <:+ write layout depth (obj ((k, v) :: fs)) rest := by
  rw [write_obj, writeMember]
  exact ⟨_, (List.suffix_append _ _).trans <| (suffix_writeString layout k _).trans <|
    (List.suffix_append _ _).trans (List.suffix_cons _ _)⟩

end Json

namespace Command

variable {vs : List FreeVariable}

/-- A listed variable: its name and the lines and columns of its references. -/
def Lists (v : FreeVariable) (item : Json) : Prop :=
  ∃ ps, List.Forall₂ (fun r p => r.position = .ok p) v.members ps ∧
    item = .obj [("name", .atom v.name),
      ("occurrences", .arr (ps.map fun p => .obj [("line", p.line), ("column", p.column)]))]

theorem lists_of_variableJson {v : FreeVariable} {item : Json} (h : variableJson v = .ok item) :
    Lists v item := by
  rw [variableJson] at h
  cases read : v.members.mapM FreeReference.position with
  | error f =>
    rw [read] at h
    cases h
  | ok ps =>
    rw [read] at h
    exact ⟨ps, mapM_eq_ok.mp read, (Except.ok.inj h).symm⟩

theorem exists_lists_of_mem {v : FreeVariable} {items : List Json} (h : List.Forall₂ Lists vs items)
    (hv : v ∈ vs) : ∃ item ∈ items, Lists v item := by
  induction h with
  | nil => cases hv
  | @cons w item ws items own _ ih =>
    rcases List.mem_cons.mp hv with rfl | hv
    · exact ⟨item, List.mem_cons_self, own⟩
    · obtain ⟨item, member, own⟩ := ih hv
      exact ⟨item, List.mem_cons_of_mem _ member, own⟩

theorem infix_of_lists {v : FreeVariable} {name : String} {item : Json} {items : List Json}
    (h : Lists v item) (listed : item ∈ items) (named : v.name = .str name) :
    '"' :: Quoted.encode true name.toList ++ ['"'] <:+:
      ((Json.arr items).render .indentedAscii).toList := by
  obtain ⟨ps, -, rfl⟩ := h
  obtain ⟨_, outer⟩ := Json.exists_suffix_write_arr .indentedAscii 0 [] listed
  obtain ⟨after, inner⟩ := Json.exists_suffix_write_obj .indentedAscii 1 _ "name" (.atom v.name) _
  have quoted : '"' :: Quoted.encode true name.toList ++ ['"'] <+:
      Json.write .indentedAscii 2 (.atom v.name) after := by
    rw [named, Json.write]
    exact ⟨after, by simp [Json.writeAtom, Json.writeString, Json.Layout.indentedAscii]⟩
  rw [Json.render, String.toList_ofList]
  exact quoted.isInfix.trans (inner.trans outer).isInfix

/-- The JSON listing of free variables is ASCII text that is read back as the variables and their
positions, in order. -/
theorem jsonListing_reads_back
    (positions : ∀ v ∈ vs, ∀ r ∈ v.members, ∃ p, r.position = .ok p) :
    ∃ s items, jsonListing vs = .ok s ∧ IsAscii s.toList ∧
      Json.parse? s = some (.arr items) ∧ List.Forall₂ Lists vs items ∧
      (∀ v ∈ vs, ∀ name, v.name = .str name →
        '"' :: Quoted.encode true name.toList ++ ['"'] <:+: s.toList) ∧
      ∀ c : Char, 0xFFFF < c.toNat → ∃ high low,
        Quoted.isHigh high = true ∧ Quoted.isLow low = true ∧
        Quoted.encode true [c] = Quoted.escapeUnit high ++ Quoted.escapeUnit low ∧
        Quoted.join? [.unit high, .unit low] = some [c] := by
  obtain ⟨s, listed⟩ := exists_listing positions true
  rw [if_pos rfl] at listed
  obtain ⟨items, each, rfl⟩ : ∃ items, vs.mapM variableJson = .ok items ∧
      (Json.arr items).render .indentedAscii = s := by
    rw [jsonListing] at listed
    cases each : vs.mapM variableJson with
    | error f =>
      rw [each] at listed
      cases listed
    | ok items =>
      rw [each] at listed
      exact ⟨items, rfl, Except.ok.inj listed⟩
  have lists : List.Forall₂ Lists vs items :=
    (mapM_eq_ok.mp each).imp fun _ _ => lists_of_variableJson
  refine ⟨_, items, listed, Json.isAscii_render rfl _, Json.parse?_render .indentedAscii _, lists,
    fun v hv name named => ?_, fun c long => Quoted.encode_of_long long⟩
  obtain ⟨item, member, own⟩ := exists_lists_of_mem lists hv
  exact infix_of_lists own member named

def placedIdentifier (name : String) (line column : Int) : Tree :=
  .obj 0 [("type", .str "Identifier"), ("name", .str name),
    ("loc", .obj 1 [("start", .obj 2 [("line", .atom (.number (.int line))),
      ("column", .atom (.number (.int column)))])])]

/-- A variable `é😀` with one reference at a known place and one at an unknown place. -/
def placedVariable : FreeVariable :=
  ⟨.str "é😀", [⟨.str "é😀", placedIdentifier "é😀" 3 0, [placedIdentifier "é😀" 3 0]⟩,
    ⟨.str "é😀", .identifier 3 "é😀", [.identifier 3 "é😀"]⟩]⟩

/-- The name `é😀` is written with three escapes, and it is read again. -/
theorem jsonListing_reads_back_pair :
    (∀ v ∈ [placedVariable], ∀ r ∈ v.members, ∃ p, r.position = .ok p) ∧
    ∃ s, jsonListing [placedVariable] = .ok s ∧ IsAscii s.toList ∧
      "\"\\u00e9\\ud83d\\ude00\"".toList <:+: s.toList ∧
      Json.parse? s = some (.arr [.obj [("name", .str "é😀"), ("occurrences", .arr [
        .obj [("line", .int 3), ("column", .int 0)],
        .obj [("line", .null), ("column", .null)]])]]) := by
  have positions : ∀ v ∈ [placedVariable], ∀ r ∈ v.members, ∃ p, r.position = .ok p := by
    simp only [placedVariable, List.forall_mem_singleton, List.forall_mem_cons]
    exact ⟨⟨_, rfl⟩, ⟨_, rfl⟩⟩
  obtain ⟨s, items, listed, ascii, read, lists, quoted, -⟩ := jsonListing_reads_back positions
  have escaped : "\"\\u00e9\\ud83d\\ude00\"".toList =
      '"' :: Quoted.encode true "é😀".toList ++ ['"'] := by decide
  refine ⟨positions, s, listed, ascii, escaped ▸ quoted _ List.mem_cons_self _ rfl, ?_⟩
  obtain ⟨item, others, own, ends, rfl⟩ := List.forall₂_cons_left_iff.mp lists
  obtain rfl := List.forall₂_nil_left_iff.mp ends
  obtain ⟨ps, each, rfl⟩ := own
  cases each with
  | cons first rest =>
    cases rest with
    | cons second rest =>
      cases rest
      obtain rfl := Except.ok.inj first
      obtain rfl := Except.ok.inj second
      exact read

end Command

end LexicalScope
