import LexicalScope.Json.Basic

/-! # Trees

A tree is a JSON value whose arrays and objects carry labels. Equal objects at two places are two
objects, and their labels tell them apart. Labelling a value numbers its containers outermost
first, so that no label occurs twice.
-/

namespace LexicalScope

abbrev Label := Nat

inductive Tree where
  | atom (a : Atom)
  | arr (label : Label) (items : List Tree)
  | obj (label : Label) (fields : List (String × Tree))

namespace Tree

def null : Tree := atom .null

def str (s : String) : Tree := atom (.str s)

def label? : Tree → Option Label
  | atom _ => none
  | arr l _ => some l
  | obj l _ => some l

mutual

def erase : Tree → Json
  | atom a => .atom a
  | arr _ vs => .arr (eraseItems vs)
  | obj _ fs => .obj (eraseFields fs)

def eraseItems : List Tree → List Json
  | [] => []
  | v :: vs => v.erase :: eraseItems vs

def eraseFields : List (String × Tree) → List (String × Json)
  | [] => []
  | (k, v) :: fs => (k, v.erase) :: eraseFields fs

end

/-- False of null, false, zero, the empty text and empty containers. -/
def truthy : Tree → Bool
  | atom a => a.truthy
  | arr _ vs => !vs.isEmpty
  | obj _ fs => !fs.isEmpty

/-- The first of two trees unless it is false. -/
def orElse (t u : Tree) : Tree := if t.truthy then t else u

def isText (t : Tree) (s : String) : Bool :=
  match t with
  | atom (.str r) => r == s
  | _ => false

theorem isText_eq_true {t : Tree} {s : String} : t.isText s = true ↔ t = .str s := by
  unfold isText
  split
  · next r => simp [str]
  · next h =>
    constructor
    · intro hf
      cases hf
    · intro ht
      exact absurd ht (h s)

mutual

/-- The levels of containers in a tree. -/
def height : Tree → Nat
  | atom _ => 0
  | arr _ vs => heightItems vs + 1
  | obj _ fs => heightFields fs + 1

def heightItems : List Tree → Nat
  | [] => 0
  | v :: vs => max v.height (heightItems vs)

def heightFields : List (String × Tree) → Nat
  | [] => 0
  | (_, v) :: fs => max v.height (heightFields fs)

end

theorem height_le_heightItems {v : Tree} {vs : List Tree} (h : v ∈ vs) :
    v.height ≤ heightItems vs := by
  induction vs with
  | nil => simp at h
  | cons w ws ih =>
    simp only [heightItems]
    rcases List.mem_cons.mp h with rfl | h
    · exact Nat.le_max_left _ _
    · exact Nat.le_trans (ih h) (Nat.le_max_right _ _)

theorem height_le_heightFields {k : String} {v : Tree} {fs : List (String × Tree)}
    (h : (k, v) ∈ fs) : v.height ≤ heightFields fs := by
  induction fs with
  | nil => simp at h
  | cons f fs ih =>
    obtain ⟨l, w⟩ := f
    simp only [heightFields]
    rcases List.mem_cons.mp h with h | h
    · cases h
      exact Nat.le_max_left _ _
    · exact Nat.le_trans (ih h) (Nat.le_max_right _ _)

theorem height_lookup_le {k : String} {fs : List (String × Tree)} :
    ((fs.lookup k).getD null).height ≤ heightFields fs := by
  induction fs with
  | nil => simp [null, height]
  | cons f fs ih =>
    obtain ⟨l, w⟩ := f
    simp only [List.lookup_cons, heightFields]
    split
    · exact Nat.le_max_left _ _
    · exact Nat.le_trans ih (Nat.le_max_right _ _)

end Tree

mutual

/-- Label the containers of a value from a number on, and give the first number left. -/
def Json.labelFrom (next : Label) : Json → Tree × Label
  | .atom a => (.atom a, next)
  | .arr vs =>
    let (ts, last) := Json.labelItems (next + 1) vs
    (.arr next ts, last)
  | .obj fs =>
    let (ts, last) := Json.labelFields (next + 1) fs
    (.obj next ts, last)

def Json.labelItems (next : Label) : List Json → List Tree × Label
  | [] => ([], next)
  | v :: vs =>
    let (t, middle) := Json.labelFrom next v
    let (ts, last) := Json.labelItems middle vs
    (t :: ts, last)

def Json.labelFields (next : Label) : List (String × Json) → List (String × Tree) × Label
  | [] => ([], next)
  | (k, v) :: fs =>
    let (t, middle) := Json.labelFrom next v
    let (ts, last) := Json.labelFields middle fs
    ((k, t) :: ts, last)

end

def Json.label (v : Json) : Tree := (v.labelFrom 0).1

end LexicalScope
