import LexicalScope.Json.Number

/-! # JSON values

Objects keep their members in the order they were written. Values that can stand for a name are
compared by a key, under which a Boolean and the number it counts as are the same.
-/

namespace LexicalScope

inductive Atom where
  | null
  | bool (b : Bool)
  | number (n : Number)
  | str (s : String)
deriving DecidableEq

/-- What tells two atoms apart where they serve as names. -/
inductive Key where
  | null
  | number (value : Decimal)
  | text (s : String)
deriving DecidableEq, Repr

namespace Key

/-- The order of two keys of one kind; keys of unlike kinds have none. -/
def less? : Key → Key → Option Bool
  | number a, number b => some (a.less b)
  | text a, text b => some (decide (a < b))
  | _, _ => none

end Key

namespace Atom

def key : Atom → Key
  | null => .null
  | bool b => .number (.normal ⟨if b then 1 else 0, 0⟩)
  | number n => .number n.value.normal
  | str s => .text s

/-- False of null, false, zero and the empty text. -/
def truthy : Atom → Bool
  | null => false
  | bool b => b
  | number n => !n.isZero
  | str s => s != ""

@[simp]
theorem key_str (s : String) : (str s).key = .text s := rfl

end Atom

inductive Json where
  | atom (a : Atom)
  | arr (items : List Json)
  | obj (fields : List (String × Json))

namespace Json

def null : Json := atom .null

def bool (b : Bool) : Json := atom (.bool b)

def str (s : String) : Json := atom (.str s)

def int (n : Int) : Json := atom (.number (.int n))

def nat (n : Nat) : Json := int n

def truthy : Json → Bool
  | atom a => a.truthy
  | arr vs => !vs.isEmpty
  | obj fs => !fs.isEmpty

def get? (v : Json) (key : String) : Option Json :=
  match v with
  | obj fields => fields.lookup key
  | _ => none

def items : Json → List Json
  | arr vs => vs
  | _ => []

end Json

end LexicalScope
