import LexicalScope.Json.Quoted
import LexicalScope.Text.Printable

/-! # Values in messages

A message shows a text bare, and inside an array or an object quoted. Null and the Booleans are
shown as `None`, `True` and `False`, and a number by its own text.
-/

namespace LexicalScope.Display

def hexDigits (width n : Nat) : List Char :=
  let digits := Nat.toDigits 16 n
  List.replicate (width - digits.length) '0' ++ digits

/-- Single quotes, unless the text holds some and no double quote. -/
def quoteFor (cs : List Char) : Char :=
  if cs.contains '\'' && !cs.contains '"' then '"' else '\''

def escape (quote c : Char) : List Char :=
  if c == quote || c == '\\' then ['\\', c]
  else if c == '\n' then ['\\', 'n']
  else if c == '\r' then ['\\', 'r']
  else if c == '\t' then ['\\', 't']
  else if Text.isPrintable c then [c]
  else if c.toNat < 0x100 then ['\\', 'x'] ++ hexDigits 2 c.toNat
  else if c.toNat < 0x10000 then ['\\', 'u'] ++ hexDigits 4 c.toNat
  else ['\\', 'U'] ++ hexDigits 8 c.toNat

def quoted (cs : List Char) : List Char :=
  let quote := quoteFor cs
  quote :: (cs.flatMap (escape quote) ++ [quote])

def quotedAtom : Atom → List Char
  | .null => "None".toList
  | .bool true => "True".toList
  | .bool false => "False".toList
  | .number n => n.text
  | .str s => quoted s.toList

def bareAtom : Atom → List Char
  | .str s => s.toList
  | a => quotedAtom a

mutual

def quotedValue : Json → List Char
  | .atom a => quotedAtom a
  | .arr vs => '[' :: (quotedItems vs ++ [']'])
  | .obj fs => '\x7b' :: (quotedFields fs ++ ['\x7d'])

def quotedItems : List Json → List Char
  | [] => []
  | [v] => quotedValue v
  | v :: vs => quotedValue v ++ ',' :: ' ' :: quotedItems vs

def quotedFields : List (String × Json) → List Char
  | [] => []
  | [(k, v)] => quoted k.toList ++ ':' :: ' ' :: quotedValue v
  | (k, v) :: fs =>
    quoted k.toList ++ ':' :: ' ' :: (quotedValue v ++ ',' :: ' ' :: quotedFields fs)

end

/-- A value as it stands in a message. -/
def bare : Json → List Char
  | .atom a => bareAtom a
  | v => quotedValue v

def typeWord : Json → String
  | .atom .null => "NoneType"
  | .atom (.bool _) => "bool"
  | .atom (.number (.int _)) => "int"
  | .atom (.number (.real _)) => "float"
  | .atom (.str _) => "str"
  | .arr _ => "list"
  | .obj _ => "dict"

end LexicalScope.Display
