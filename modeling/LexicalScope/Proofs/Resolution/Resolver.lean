import LexicalScope.Globals
import LexicalScope.Proofs.Resolution.Declared

/-! # Resolution from the root down

A resolver goes down a tree once. It carries an environment: the names that each node around
declares, and what is known about `arguments`, `this` and declarators. At a name it asks the
environment alone, and the places of a reference are put together on the way back.
-/

namespace LexicalScope

structure Environment where
  /-- The names that the nodes around declare, innermost first. -/
  names : List (List String)
  /-- Within a function that has `arguments` of its own. -/
  bindsArguments : Bool
  /-- Within such a function, or in the value of a class field. -/
  bindsThis : Bool
  /-- In a declarator, with nothing but patterns between. -/
  declaring : Bool

namespace Environment

def top : Environment := ⟨[], false, false, false⟩

variable (env : Environment)

def enter (hoists : Bool) (n : Node) (field : Bool) : Environment where
  names := n.declares hoists :: env.names
  bindsArguments := env.bindsArguments || n.kind.declaresArguments
  bindsThis := env.bindsThis || n.kind.declaresArguments || field
  declaring := if n.kind.isPattern then env.declaring else n.kind == .variableDeclarator

def binds (x : String) : Bool :=
  x == "undefined" || (x == "arguments" && env.bindsArguments) || env.names.any (·.contains x)

/-- The reference that a node makes by itself, unless it is bound or declares. -/
def references (n : Node) (target : Bool) : List FreeReference :=
  match n.kind with
  | .identifier =>
    if target && env.declaring then []
    else ((n.get "name").text?.toList.filter (!env.binds ·)).map (⟨.str ·, n.tree, [n.tree]⟩)
  | .thisExpression => if env.bindsThis then [] else [⟨.str "this", n.tree, [n.tree]⟩]
  | _ => []

end Environment

/-- The slots of a node, each with whether it is the value of a class field. -/
def Node.regions (n : Node) : List (Slot × Bool) :=
  if n.kind = .propertyDefinition then
    (n.computedKey "key").items.map (·, false) ++ (n.plain "value").items.map (·, true)
  else n.slots.items.map (·, false)

theorem Node.map_fst_regions (n : Node) : n.regions.map Prod.fst = n.slots.items := by
  unfold regions
  split
  · next hk =>
    have hs : n.slots = n.computedKey "key" ++ n.plain "value" := by simp [slots, hk]
    have hf : (n.computedKey "key").fault = none := by
      unfold computedKey
      split <;> rfl
    rw [hs, Yield.items_append _ hf]
    simp [Function.comp_def]
  · simp [Function.comp_def]

def FreeReference.inside (r : FreeReference) (n : Node) : FreeReference :=
  { r with chain := n.tree :: r.chain }

def resolve (hoists : Bool) (env : Environment) (s : Slot) : List FreeReference :=
  match _h : s.value.node? with
  | none => []
  | some n =>
    (n.regions.attach.flatMap fun r =>
      (resolve hoists (env.enter hoists n r.1.2) r.1.1).map (·.inside n)) ++
        env.references n s.target
termination_by s.value.height
decreasing_by
  rw [← Tree.tree_of_node? _h]
  exact n.below_slots _ (n.map_fst_regions ▸ List.mem_map_of_mem r.2)

/-- The free variables of a program as the resolver finds them. -/
def resolveProgram (t : Tree) (hostEmbedded : Bool) : Except Fault (List FreeVariable) :=
  let inModule := t.object?.any fun n => (n.get "sourceType").isText "module"
  groupReferences (resolve (inModule || !hostEmbedded) .top ⟨t, false⟩)

section

variable {hoists : Bool} {env : Environment} {s : Slot} {n : Node}

theorem resolve_of_node?_eq_none (h : s.value.node? = none) : resolve hoists env s = [] := by
  rw [resolve]
  split
  · rfl
  · simp_all

theorem resolve_of_node?_eq_some (h : s.value.node? = some n) :
    resolve hoists env s =
      (n.regions.flatMap fun r => (resolve hoists (env.enter hoists n r.2) r.1).map (·.inside n)) ++
        env.references n s.target := by
  rw [resolve]
  split
  · simp_all
  · next m hm =>
    obtain rfl : m = n := Option.some.inj (hm.symm.trans h)
    rw [List.flatMap_subtype
      (g := fun r => (resolve hoists (env.enter hoists m r.2) r.1).map (·.inside m)) (by simp),
      List.unattach_attach]

end

end LexicalScope
