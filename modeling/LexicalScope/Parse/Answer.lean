import LexicalScope.Parse.Request

/-! # Parser answers as JSON

A parser that runs as a program of its own gives its answer as JSON: an object whose `raise` member
describes a syntax error, or one whose `result` member is the tree.
-/

namespace LexicalScope

/-- A syntax error from the members that describe it; absent positions are null. -/
def SyntaxError.ofJson (v : Json) : SyntaxError :=
  let message := match v.get? "message" with
    | some (.atom (.str s)) => s
    | _ => ""
  ⟨message, (v.get? "lineNumber").getD .null, (v.get? "column").getD .null, v.get? "description"⟩

def ParseAnswer.ofJson (v : Json) : ParseAnswer :=
  match v.get? "raise" with
  | some e => .raised (.ofJson e)
  | none => .returned ((v.get? "result").getD .null).label true

end LexicalScope
