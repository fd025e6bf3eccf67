/-! # Line ends

A text that is read has one kind of line end: a carriage return, alone or before a line feed,
becomes a line feed.
-/

namespace LexicalScope.Text

def unifyNewlines : List Char → List Char
  | [] => []
  | '\r' :: '\n' :: rest => '\n' :: unifyNewlines rest
  | '\r' :: rest => '\n' :: unifyNewlines rest
  | c :: rest => c :: unifyNewlines rest

end LexicalScope.Text
