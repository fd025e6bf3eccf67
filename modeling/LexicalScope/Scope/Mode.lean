import LexicalScope.Tree.Node

/-! # Scope modes

A mode says to which nodes the names of `var` and function declarations attach. It follows from the
source type of a program, its directive prologue, and whether the program is embedded in a host
that keeps top-level names of scripts on its global object.
-/

namespace LexicalScope

namespace Kind

def isFunctionScope (k : Kind) : Bool := k.isFunction

/-- A block, the case list of a switch, or a function. -/
def isBlockLevelScope (k : Kind) : Bool := k.isBlock || k.isFunction

def isScope (k : Kind) : Bool := k == .program || k.isFunction

def isBlockScope (k : Kind) : Bool := k.isBlock || k.isScope

end Kind

structure ScopeMode where
  inModule : Bool
  strict : Bool
  hostEmbedded : Bool
deriving DecidableEq, Repr

namespace ScopeMode

/-- Whether `var` and function names may attach to the program. -/
def hoistsToProgram (m : ScopeMode) : Bool := m.inModule || !m.hostEmbedded

def isVarScope (m : ScopeMode) (k : Kind) : Bool :=
  if m.hoistsToProgram then k.isScope else k.isFunctionScope

def isFunctionNameScope (m : ScopeMode) (k : Kind) : Bool :=
  if m.hoistsToProgram then k.isScope else k.isBlockLevelScope

variable {mode : ScopeMode}

theorem isVarScope_of_hoists (h : mode.hoistsToProgram = true) :
    mode.isVarScope = Kind.isScope := by
  funext k
  rw [isVarScope, if_pos h]

theorem isFunctionNameScope_of_hoists (h : mode.hoistsToProgram = true) :
    mode.isFunctionNameScope = Kind.isScope := by
  funext k
  rw [isFunctionNameScope, if_pos h]

theorem isVarScope_of_embedded (h : mode.hoistsToProgram = false) :
    mode.isVarScope = Kind.isFunctionScope := by
  funext k
  rw [isVarScope, if_neg (by simp [h])]

theorem isFunctionNameScope_of_embedded (h : mode.hoistsToProgram = false) :
    mode.isFunctionNameScope = Kind.isBlockLevelScope := by
  funext k
  rw [isFunctionNameScope, if_neg (by simp [h])]

end ScopeMode

/-- Whether the directives that a statement list begins with include `use strict`. -/
def prologueIsStrict : List Tree → Except Fault Bool
  | [] => .ok false
  | statement :: rest => do
    let kind ← statement.get? "type"
    if !kind.isText "ExpressionStatement" then return false
    let directive ← statement.get? "directive"
    if !directive.truthy then return false
    if directive.isText "use strict" then return true
    prologueIsStrict rest

def resolveMode (program : Tree) (hostEmbedded : Bool) : Except Fault ScopeMode := do
  let sourceType ← program.get? "sourceType"
  let body ← program.get? "body"
  let strict ← prologueIsStrict (← body.elements)
  return ⟨sourceType.isText "module", strict, hostEmbedded⟩

end LexicalScope
