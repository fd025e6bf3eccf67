import LexicalScope.Json.Quoted

/-! # Printing JSON

A layout says whether strings are kept to ASCII and whether items stand on lines of their own.
Every writer takes the text that follows, so that a value's text comes before it.
-/

namespace LexicalScope.Json

structure Layout where
  ascii : Bool
  /-- The columns that one level of nesting indents, or none for a value on one line. -/
  indent : Option Nat
deriving DecidableEq, Repr

namespace Layout

def compact : Layout := ⟨false, none⟩

def indented : Layout := ⟨false, some 2⟩

def indentedAscii : Layout := ⟨true, some 2⟩

def lineBreak (layout : Layout) (depth : Nat) : List Char :=
  match layout.indent with
  | none => []
  | some columns => '\n' :: List.replicate (columns * depth) ' '

def colon (layout : Layout) : List Char :=
  match layout.indent with
  | none => [':']
  | some _ => [':', ' ']

end Layout

def writeString (layout : Layout) (s : String) (rest : List Char) : List Char :=
  '"' :: (Quoted.encode layout.ascii s.toList ++ '"' :: rest)

def writeAtom (layout : Layout) (a : Atom) (rest : List Char) : List Char :=
  match a with
  | .null => "null".toList ++ rest
  | .bool true => "true".toList ++ rest
  | .bool false => "false".toList ++ rest
  | .number n => n.text ++ rest
  | .str s => writeString layout s rest

mutual

def write (layout : Layout) (depth : Nat) : Json → List Char → List Char
  | atom a, rest => writeAtom layout a rest
  | arr [], rest => '[' :: ']' :: rest
  | arr (v :: vs), rest =>
    '[' :: (layout.lineBreak (depth + 1) ++ write layout (depth + 1) v
      (writeItems layout (depth + 1) vs (layout.lineBreak depth ++ ']' :: rest)))
  | obj [], rest => '\x7b' :: '\x7d' :: rest
  | obj ((k, v) :: fs), rest =>
    '\x7b' :: (layout.lineBreak (depth + 1) ++ writeString layout k (layout.colon ++
      write layout (depth + 1) v
        (writeFields layout (depth + 1) fs (layout.lineBreak depth ++ '\x7d' :: rest))))

def writeItems (layout : Layout) (depth : Nat) : List Json → List Char → List Char
  | [], rest => rest
  | v :: vs, rest =>
    ',' :: (layout.lineBreak depth ++ write layout depth v (writeItems layout depth vs rest))

def writeFields (layout : Layout) (depth : Nat) : List (String × Json) → List Char → List Char
  | [], rest => rest
  | (k, v) :: fs, rest =>
    ',' :: (layout.lineBreak depth ++ writeString layout k (layout.colon ++
      write layout depth v (writeFields layout depth fs rest)))

end

def render (layout : Layout) (v : Json) : String := String.ofList (write layout 0 v [])

end LexicalScope.Json
