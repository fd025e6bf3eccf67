import LexicalScope.Position

/-! # Messages

The texts of the faults that have one. An analysis message ends with the position of the node it is
about, if that is known.
-/

namespace LexicalScope

namespace Tree

/-- The `type` of an object, which may be absent, and a word for anything else. -/
def reportedKind (t : Tree) : Json :=
  match t.object? with
  | some n => (n.get "type").erase
  | none => .str (Display.typeWord t.erase)

def located (t : Tree) (text : List Char) : Except Fault String :=
  t.positionSuffix.map fun suffix => String.ofList (text ++ suffix)

def unsupportedMessage (t : Tree) : Except Fault String :=
  t.located ("Unrecognized pattern type: ".toList ++ Display.bare t.reportedKind)

end Tree

namespace Fault

def message? : Fault → Option String
  | invalidInput => some "Source must be either a string of JavaScript or a Program AST"
  | unsupportedPattern t => t.unsupportedMessage.toOption
  | unknownSourceType given =>
    some (String.ofList ("Unknown source type: ".toList ++ Display.quotedValue given))
  | nullInPath => some "embedded null byte"
  | syntaxError e => some e.message
  | _ => none

end Fault

end LexicalScope
