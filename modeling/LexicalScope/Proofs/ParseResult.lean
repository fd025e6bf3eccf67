import LexicalScope.Parse.Result
import LexicalScope.Proofs.Json.RoundTrip
import Mathlib.Data.List.Basic

/-! # The text of a parse result

The text of a result says all that is in the result: read as JSON it is the tree, the errors in
order, the digest and the name, each under its key and with all keys in order. So results that
differ in one of these have different texts.
-/

namespace LexicalScope

namespace ParseError

theorem toJson_injective : Function.Injective toJson := by
  rintro ⟨d, l, c⟩ ⟨d', l', c'⟩ h
  simp only [toJson, Json.obj.injEq, List.cons.injEq, Prod.mk.injEq, true_and, and_true] at h
  obtain ⟨rfl, rfl, rfl⟩ := h
  rfl

end ParseError

namespace ParseResult

theorem contents_eq_of_toJson {r r' : ParseResult} (h : r'.toJson = r.toJson) :
    r'.ast.erase = r.ast.erase ∧ r'.errors = r.errors ∧ r'.sourceHash = r.sourceHash ∧
      r'.sourceName = r.sourceName := by
  simp only [toJson, Json.str, Json.obj.injEq, Json.arr.injEq, Json.atom.injEq, Atom.str.injEq,
    List.cons.injEq, Prod.mk.injEq, true_and, and_true] at h
  obtain ⟨ast, errors, hash, name⟩ := h
  exact ⟨ast, List.map_injective_iff.mpr ParseError.toJson_injective errors, hash, name⟩

theorem toJson_of_text {r : ParseResult} {s : String} (h : r.text = .ok s) :
    Json.parse? s = some r.toJson := by
  unfold text at h
  split at h
  · obtain rfl := Except.ok.inj h
    exact Json.parse?_render .indented r.toJson
  · cases h

/-- The text of a result is read as the result, with its keys in order, and as no other result. -/
theorem text_reads_back (r : ParseResult) (writable : r.writable = true) : ∃ s, r.text = .ok s ∧
    Json.parse? s = some (.obj [
      ("ast", r.ast.erase),
      ("errors", .arr (r.errors.map fun e =>
        .obj [("description", e.description), ("line", e.line), ("column", e.column)])),
      ("source_hash", .str r.sourceHash),
      ("source_name", .str r.sourceName)]) ∧
    ∀ r' : ParseResult, r'.text = .ok s → r'.ast.erase = r.ast.erase ∧ r'.errors = r.errors ∧
      r'.sourceHash = r.sourceHash ∧ r'.sourceName = r.sourceName := by
  have text : r.text = .ok (r.toJson.render .indented) := if_pos writable
  have read := toJson_of_text text
  refine ⟨_, text, read, fun r' text' => contents_eq_of_toJson ?_⟩
  exact Option.some.inj ((toJson_of_text text').symm.trans read)

/-- A result with escapes of every class, empty and nested containers, a long integer and a number
that is none. -/
def sample : ParseResult where
  ast := .obj 0 [("type", .str "Program"), ("body", .arr 1 []), ("", .obj 2 []),
    ("\"\\/\n\r\t\x08\x0c\x01", .arr 3 [.str "\x7f\u00e9\ud7ff𐐷",
      .atom (.number (.int (-100000000000000000000000))),
      .atom (.number (.real ⟨"1.50e+21".toList, by decide⟩)), .atom (.bool true), .null])]
  errors := [⟨.str "Unexpected token =", .int 1, .null⟩, ⟨.null, .null, .null⟩]
  sourceHash := "e3b0c442"
  sourceName := "<input>"
  writable := true

theorem text_reads_back_sample : sample.writable = true ∧ ∃ s, sample.text = .ok s ∧
    Json.parse? s = some (.obj [
      ("ast", sample.ast.erase),
      ("errors", .arr (sample.errors.map fun e =>
        .obj [("description", e.description), ("line", e.line), ("column", e.column)])),
      ("source_hash", .str sample.sourceHash),
      ("source_name", .str sample.sourceName)]) ∧
    ∀ r' : ParseResult, r'.text = .ok s → r'.ast.erase = sample.ast.erase ∧
      r'.errors = sample.errors ∧ r'.sourceHash = sample.sourceHash ∧
      r'.sourceName = sample.sourceName :=
  ⟨rfl, text_reads_back sample rfl⟩

end ParseResult

end LexicalScope
