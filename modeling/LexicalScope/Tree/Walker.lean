import LexicalScope.Tree.Walk

/-! # Walkers

A walker goes through trees one after the other and keeps the chain of the nodes it is in. It visits
a node under a kind, and a function, a class or an identifier that is a target again under a second
kind, so it enters a node only if that is not the one it is in. Once what lies below has been walked
it calls the visitor for the kind, which may interrupt the walk. However a visit ends, the node is
left again if it was entered.
-/

namespace LexicalScope

inductive Interrupt where
  | fault (e : Fault)
  | stopped

structure Walker (σ : Type) where
  /-- The nodes that have been entered and not yet left, innermost first. -/
  chain : List Node
  state : σ

/-- What a visitor makes of a node and its chain from the root: a new state, and whether to stop. -/
abbrev Visitor (σ : Type) := Node → List Node → σ → σ × Bool

abbrev Visitors (σ : Type) := Kind → Option (Visitor σ)

namespace Walker

variable {σ : Type}

abbrev Action (σ : Type) := Walker σ → Walker σ × Option Interrupt

def start (state : σ) : Walker σ := ⟨[], state⟩

def isIn (w : Walker σ) (n : Node) : Bool := w.chain.head?.any (·.label == n.label)

def enter (n : Node) (w : Walker σ) : Walker σ := { w with chain := n :: w.chain }

def leave (w : Walker σ) : Walker σ := { w with chain := w.chain.tail }

def inTurn : List (Action σ) → Action σ
  | [], w => (w, none)
  | a :: as, w =>
    match a w with
    | (w, none) => inTurn as w
    | (w, some i) => (w, some i)

def breakOff (fault : Option Fault) : Action σ := fun w => (w, fault.map Interrupt.fault)

/-- Call the visitor for a kind, if there is one. What cannot be looked up is a fault. -/
def report (visitors : Visitors σ) (n : Node) (kind : Kind) : Action σ := fun w =>
  if kind = .compound then (w, some (.fault .notHashable))
  else
    match visitors kind with
    | none => (w, none)
    | some visitor =>
      let (state, stop) := visitor n w.chain.reverse w.state
      ({ w with state }, if stop then some .stopped else none)

def visitAs (visitors : Visitors σ) (n : Node) (below : Action σ) (kind : Kind) :
    Action σ := fun w =>
  if w.isIn n then inTurn [below, report visitors n kind] w
  else
    let (w, interrupt) := inTurn [below, report visitors n kind] (w.enter n)
    (w.leave, interrupt)

/-- Visit what stands in a slot under the kinds it is reported under, the last one outermost. -/
def visit (visitors : Visitors σ) (s : Slot) : Action σ := fun w =>
  match _h : s.value.node? with
  | none => (w, none)
  | some n =>
    let below := inTurn
      ((n.slots.items.attach.map fun c => visit visitors c.1) ++ [breakOff n.slots.fault])
    (n.reports s.target).foldl (visitAs visitors n) below w
termination_by s.value.height
decreasing_by
  rw [← Tree.tree_of_node? _h]
  exact n.below_slots _ c.2

def walk (visitors : Visitors σ) (t : Tree) : Action σ := visit visitors ⟨t, false⟩

end Walker

/-- A record of the reports under some kinds, which stops the walk when it holds a given number. -/
structure EventLog where
  kinds : List Kind
  limit : Option Nat
  events : List Event

namespace EventLog

def visitor : Visitors EventLog := fun kind => some fun node ancestors log =>
  if log.kinds.contains kind then
    let events := log.events ++ [⟨kind, node, ancestors.reverse.tail⟩]
    ({ log with events }, log.limit == some events.length)
  else (log, false)

end EventLog

end LexicalScope
