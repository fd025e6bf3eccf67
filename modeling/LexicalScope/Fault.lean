import LexicalScope.Tree.Basic

/-! # Faults

A fault says why an analysis or a parse broke off. A malformed tree gives one of the first six, and
the others refuse an input as a whole or a part of it.
-/

namespace LexicalScope

structure SyntaxError where
  message : String
  line : Json
  column : Json
  /-- The message without its position, for parsers that tell the two apart. -/
  description : Option Json

inductive Fault where
  /-- A member was looked up in something that has none. -/
  | notObject
  /-- An object lacks a member that its kind requires. -/
  | missingField (key : String)
  /-- A required member was taken of something that is no object. -/
  | notIndexable
  /-- A list was expected where a number or a Boolean stands. -/
  | notIterable
  /-- A list or an object stands where a name or a kind is looked up. -/
  | notHashable
  | notComparable
  | invalidInput
  | unsupportedPattern (found : Tree)
  | unknownSourceType (given : Json)
  /-- A value holds something that JSON has no text for. -/
  | notWritable
  | undecodable
  | nullInPath
  | pathTooLong
  | syntaxError (error : SyntaxError)

end LexicalScope
