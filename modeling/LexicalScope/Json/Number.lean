import LexicalScope.Json.Double

/-! # Numbers

An integer has any size, and a number that is no integer keeps the text it was written in.
Either has a decimal value: an integer its own, any other number that of the double nearest to what
is written. Numbers of one value have one normal form.
-/

namespace LexicalScope

/-- The parts of a number's text, each a list of digits. -/
structure NumberText where
  negative : Bool
  whole : List Char
  fraction : Option (List Char)
  exponent : Option (Bool × List Char)
deriving DecidableEq, Repr

namespace NumberText

def isMember (c : Char) : Bool :=
  c.isDigit || c == '-' || c == '+' || c == '.' || c == 'e' || c == 'E'

/-- Digits of which the first is zero only when it stands alone. -/
def isWhole : List Char → Bool
  | [] => false
  | [c] => c.isDigit
  | c :: cs => c != '0' && (c :: cs).all Char.isDigit

def isDigits (cs : List Char) : Bool := !cs.isEmpty && cs.all Char.isDigit

def exponent? : List Char → Option (Option (Bool × List Char))
  | [] => some none
  | c :: cs =>
    if c == 'e' || c == 'E' then
      match cs with
      | '-' :: ds => if isDigits ds then some (some (true, ds)) else none
      | '+' :: ds => if isDigits ds then some (some (false, ds)) else none
      | ds => if isDigits ds then some (some (false, ds)) else none
    else none

def unsigned? (negative : Bool) (cs : List Char) : Option NumberText :=
  let whole := cs.takeWhile Char.isDigit
  if !isWhole whole then none
  else
    match cs.dropWhile Char.isDigit with
    | '.' :: rest =>
      let fraction := rest.takeWhile Char.isDigit
      if fraction.isEmpty then none
      else (exponent? (rest.dropWhile Char.isDigit)).map (⟨negative, whole, some fraction, ·⟩)
    | rest => (exponent? rest).map (⟨negative, whole, none, ·⟩)

def parts? : List Char → Option NumberText
  | '-' :: cs => unsigned? true cs
  | cs => unsigned? false cs

def isInteger (t : NumberText) : Bool := t.fraction.isNone && t.exponent.isNone

/-- The value as it is written, before any rounding. -/
def value (t : NumberText) : Decimal :=
  let fraction := t.fraction.getD []
  let digits : Int := Nat.ofDigitChars 10 (t.whole ++ fraction) 0
  let power : Int := match t.exponent with
    | none => 0
    | some (negative, ds) =>
      let n : Int := Nat.ofDigitChars 10 ds 0
      if negative then -n else n
  ⟨if t.negative then -digits else digits, power - fraction.length⟩

end NumberText

structure RealText where
  chars : List Char
  isReal : (NumberText.parts? chars).any (!·.isInteger) = true
deriving DecidableEq

namespace RealText

def value (r : RealText) : Decimal :=
  match NumberText.parts? r.chars with
  | some t => t.value.nearestDouble
  | none => ⟨0, 0⟩

end RealText

inductive Number where
  | int (n : Int)
  | real (r : RealText)
deriving DecidableEq

namespace Number

def value : Number → Decimal
  | int n => .ofInt n
  | real r => r.value

def text : Number → List Char
  | int n => if n < 0 then '-' :: Nat.toDigits 10 n.natAbs else Nat.toDigits 10 n.natAbs
  | real r => r.chars

def ofText? (cs : List Char) : Option Number :=
  match h : NumberText.parts? cs with
  | none => none
  | some t =>
    if isInt : t.isInteger = true then some (int t.value.mantissa)
    else some (real ⟨cs, by simp [h, isInt]⟩)

def isZero (n : Number) : Bool := n.value.mantissa == 0

end Number

end LexicalScope
