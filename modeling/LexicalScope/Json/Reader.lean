import LexicalScope.Json.Quoted

/-! # Reading JSON

The reader accepts one value with blanks around its parts and returns what follows it. Each step
spends one unit of fuel and consumes at least one character, so fuel beyond the length of the
text is never needed.
-/

namespace LexicalScope.Json

def isBlank (c : Char) : Bool := c == ' ' || c == '\n' || c == '\r' || c == '\t'

def skipBlanks (cs : List Char) : List Char := cs.dropWhile isBlank

def expect? (word : List Char) (cs : List Char) : Option (List Char) :=
  if word.isPrefixOf cs then some (cs.drop word.length) else none

def readWord? (word : String) (a : Atom) (cs : List Char) : Option (Json × List Char) :=
  (expect? word.toList cs).map (atom a, ·)

def readNumber? (cs : List Char) : Option (Json × List Char) :=
  (Number.ofText? (cs.takeWhile NumberText.isMember)).map fun n =>
    (atom (.number n), cs.dropWhile NumberText.isMember)

def readString? (cs : List Char) : Option (String × List Char) :=
  (Quoted.decode? cs).map fun (text, rest) => (String.ofList text, rest)

mutual

def read? : Nat → List Char → Option (Json × List Char)
  | 0, _ => none
  | fuel + 1, cs =>
    match skipBlanks cs with
    | '"' :: rest => (readString? rest).map fun (s, rest) => (str s, rest)
    | '[' :: rest =>
      match skipBlanks rest with
      | ']' :: rest => some (arr [], rest)
      | rest => do
        let (v, rest) ← read? fuel rest
        let (vs, rest) ← readItems? fuel rest
        some (arr (v :: vs), rest)
    | '\x7b' :: rest =>
      match skipBlanks rest with
      | '\x7d' :: rest => some (obj [], rest)
      | rest => do
        let (f, rest) ← readField? fuel rest
        let (fs, rest) ← readFields? fuel rest
        some (obj (f :: fs), rest)
    | 'n' :: rest => readWord? "ull" .null rest
    | 't' :: rest => readWord? "rue" (.bool true) rest
    | 'f' :: rest => readWord? "alse" (.bool false) rest
    | rest => readNumber? rest

def readItems? : Nat → List Char → Option (List Json × List Char)
  | 0, _ => none
  | fuel + 1, cs =>
    match skipBlanks cs with
    | ']' :: rest => some ([], rest)
    | ',' :: rest => do
      let (v, rest) ← read? fuel rest
      let (vs, rest) ← readItems? fuel rest
      some (v :: vs, rest)
    | _ => none

def readField? : Nat → List Char → Option ((String × Json) × List Char)
  | 0, _ => none
  | fuel + 1, cs => do
    let rest ← expect? ['"'] (skipBlanks cs)
    let (k, rest) ← readString? rest
    let rest ← expect? [':'] (skipBlanks rest)
    let (v, rest) ← read? fuel rest
    some ((k, v), rest)

def readFields? : Nat → List Char → Option (List (String × Json) × List Char)
  | 0, _ => none
  | fuel + 1, cs =>
    match skipBlanks cs with
    | '\x7d' :: rest => some ([], rest)
    | ',' :: rest => do
      let (f, rest) ← readField? fuel rest
      let (fs, rest) ← readFields? fuel rest
      some (f :: fs, rest)
    | _ => none

end

def parse? (s : String) : Option Json := do
  let cs := s.toList
  let (v, rest) ← read? (cs.length + 1) cs
  if (skipBlanks rest).isEmpty then some v else none

end LexicalScope.Json
