import LexicalScope.Proofs.Vocabulary.Basic
import LexicalScope.Proofs.Walk.Descent

/-! # Members

A kind of node that is treated in a way of its own has certain members that hold nodes, one node or
a list of them. Some members hide what they hold, as they hold names that refer to nothing, and some
are targets. The slots of a node are its members that hide nothing, in order, and the slots of an
object pattern are those of its entries.
-/

namespace LexicalScope

/-- Where a node stands in a tree. -/
inductive Place where
  | plain
  /-- Where names are declared or assigned. -/
  | target
  /-- In the property list of an object pattern. -/
  | entry
deriving DecidableEq

/-- A member that holds a node or a list of nodes. -/
structure Member where
  key : String
  list : Bool
deriving DecidableEq

namespace Member

def one (key : String) : Member := ⟨key, false⟩

def many (key : String) : Member := ⟨key, true⟩

end Member

/-- The members that hold nodes, unless every member may. -/
def Kind.members? : Kind → Option (List Member)
  | .identifier | .privateIdentifier | .literal | .thisExpression | .superExpression
  | .templateElement => some []
  | .metaProperty => some [.one "meta", .one "property"]
  | .breakStatement | .continueStatement => some [.one "label"]
  | .labeledStatement => some [.one "label", .one "body"]
  | .functionDeclaration | .functionExpression | .arrowFunctionExpression =>
    some [.one "id", .many "params", .one "body"]
  | .classDeclaration | .classExpression => some [.one "id", .one "superClass", .one "body"]
  | .variableDeclarator => some [.one "id", .one "init"]
  | .catchClause => some [.one "param", .one "body"]
  | .assignmentExpression | .assignmentPattern => some [.one "left", .one "right"]
  | .objectPattern => some [.many "properties"]
  | .arrayPattern => some [.many "elements"]
  | .restElement => some [.one "argument"]
  | .property | .methodDefinition | .propertyDefinition => some [.one "key", .one "value"]
  | .memberExpression => some [.one "object", .one "property"]
  | .importDeclaration => some [.many "specifiers", .one "source", .many "attributes"]
  | .importSpecifier => some [.one "imported", .one "local"]
  | .importDefaultSpecifier | .importNamespaceSpecifier => some [.one "local"]
  | .exportSpecifier => some [.one "local", .one "exported"]
  | .exportNamedDeclaration =>
    some [.one "declaration", .many "specifiers", .one "source", .many "attributes"]
  | .exportAllDeclaration => some [.one "exported", .one "source", .many "attributes"]
  | .exportDefaultDeclaration => some [.one "declaration"]
  | _ => none

/-- The kinds that no node of a syntax tree has. -/
def Kind.isForeign : Kind → Bool
  | .compound | .untyped | .all | .anyFunction | .anyClass | .variablePattern => true
  | .other name => name == "pattern"
  | _ => false

namespace Node

variable {n m p : Node} {key : String} {place : Place} {b : Bool} {ms : List Member}

/-- Metadata, keys that are not computed, labels and other names that refer to nothing. -/
def hides (n : Node) (key : String) : Bool :=
  metadataKeys.contains key ||
    match n.kind with
    | .property | .methodDefinition | .propertyDefinition =>
      key == "key" && !(n.get "computed").truthy
    | .memberExpression => key == "property" && !(n.get "computed").truthy
    | .labeledStatement | .breakStatement | .continueStatement => key == "label"
    | .importSpecifier | .importDefaultSpecifier | .importNamespaceSpecifier | .exportSpecifier
    | .metaProperty => true
    | .importDeclaration => key == "attributes"
    | .exportNamedDeclaration => key == "specifiers" || key == "attributes"
    | .exportAllDeclaration => key == "exported" || key == "attributes"
    | _ => false

/-- Whether what a node holds under a key is declared or assigned. -/
def targets? (n : Node) (place : Place) (key : String) : Bool :=
  match n.kind with
  | .variableDeclarator | .classDeclaration | .classExpression => key == "id"
  | .functionDeclaration | .functionExpression | .arrowFunctionExpression =>
    key == "id" || key == "params"
  | .catchClause => key == "param"
  | .assignmentExpression | .assignmentPattern => key == "left"
  | .property => key == "value" && place == .entry
  | .restElement => key == "argument"
  | .arrayPattern => key == "elements"
  | _ => false

def placeBelow (n : Node) (place : Place) (key : String) : Place :=
  if n.kind = .objectPattern then .entry
  else if n.targets? place key then .target else .plain

/-- A node is the value of a member. -/
def HasOne (n : Node) (key : String) (m : Node) : Prop := (n.get key).node? = some m

/-- A node is an item of a list that is the value of a member. -/
def HasAmong (n : Node) (key : String) (m : Node) : Prop :=
  ∃ l vs, n.get key = .arr l vs ∧ ∃ v ∈ vs, v.node? = some m

def Holds (n : Node) (key : String) (m : Node) : Prop := n.HasOne key m ∨ n.HasAmong key m

def memberYield (n : Node) (place : Place) (member : Member) : Yield Slot :=
  if n.hides member.key then .empty
  else (if member.list then Yield.ofExcept (n.get member.key).elements
    else .single (n.get member.key)).map (⟨·, n.targets? place member.key⟩)

theorem memberYield_one (key : String) :
    n.memberYield place (.one key) =
      if n.hides key then .empty
      else if n.targets? place key then n.target key else n.plain key := by
  cases h : n.targets? place key <;> simp [memberYield, Member.one, h] <;> rfl

theorem memberYield_many (key : String) :
    n.memberYield place (.many key) =
      if n.hides key then .empty
      else if n.targets? place key then n.targets key else n.plains key := by
  cases h : n.targets? place key <;> simp [memberYield, Member.many, h] <;> rfl

theorem slots_eq_collect (hms : n.kind.members? = some ms) (object : n.kind ≠ .objectPattern)
    (hp : place ≠ .entry) : n.slots = .collect (n.memberYield place) ms := by
  cases hk : n.kind <;> simp only [hk, Kind.members?, reduceCtorEq, Option.some.injEq] at hms
  case objectPattern => exact absurd hk object
  all_goals
    subst hms
    cases hc : (n.get "computed").truthy <;>
      simp [slots, hk, memberYield_one, memberYield_many, hides, metadataKeys, targets?,
        computedKey, hc, hp, Yield.append_assoc]

theorem propertySlots_eq_collect (hn : n.tree.node? = some n)
    (entry : n.kind = .property ∨ n.kind = .restElement) (hms : n.kind.members? = some ms) :
    propertySlots n.tree = .collect (n.memberYield .entry) ms := by
  rcases entry with hk | hk <;> simp only [hk, Kind.members?, Option.some.injEq] at hms
  all_goals
    subst hms
    cases hc : (n.get "computed").truthy <;>
      simp [propertySlots, hn, hk, memberYield_one, hides, metadataKeys, targets?, computedKey, hc]

theorem slots_eq_members (hms : n.kind.members? = none) (syntactic : n.kind.isForeign = false) :
    n.slots = .ofList (n.fields.flatMap memberSlots) := by
  cases hk : n.kind <;> simp [hk, Kind.members?, Kind.isForeign] at hms syntactic <;>
    simp [slots, hk]

theorem targets?_eq_false (hms : n.kind.members? = none) : n.targets? place key = false := by
  cases hk : n.kind <;> simp [hk, Kind.members?] at hms <;> simp [targets?, hk]

theorem hides_eq (hms : n.kind.members? = none) : n.hides key = metadataKeys.contains key := by
  cases hk : n.kind <;> simp [hk, Kind.members?] at hms <;> simp [hides, hk]

/-- A node holds nodes only in the members that its kind has for them. -/
structure Standard (n : Node) : Prop where
  syntactic : n.kind.isForeign = false
  keys : (n.fields.map Prod.fst).Nodup
  one : ∀ ms, n.kind.members? = some ms → ∀ key m, n.HasOne key m →
    key ∈ metadataKeys ∨ .one key ∈ ms
  among : ∀ ms, n.kind.members? = some ms → ∀ key m, n.HasAmong key m →
    key ∈ metadataKeys ∨ .many key ∈ ms
  lists : ∀ ms, n.kind.members? = some ms → ∀ key, .many key ∈ ms →
    (n.get key).IsListOf fun _ => True
  entries : n.kind = .objectPattern → ∀ p, n.HasAmong "properties" p →
    p.kind = .property ∨ p.kind = .restElement

/-- A node stands in a slot of a yield that is or is not in target position. -/
def StandsIn (m : Node) (y : Yield Slot) (target : Bool) : Prop :=
  ∃ c ∈ y.items, c.value.node? = some m ∧ c.target = target

theorem hasAmong_iff :
    n.HasAmong key m ↔ ∃ v ∈ (Yield.ofExcept (n.get key).elements).items, v.node? = some m := by
  constructor
  · rintro ⟨l, vs, hg, v, hv, hm⟩
    exact ⟨v, (Tree.mem_elements_iff hm).mpr ⟨l, vs, hg, hv⟩, hm⟩
  · rintro ⟨v, hv, hm⟩
    obtain ⟨l, vs, hg, hv⟩ := (Tree.mem_elements_iff hm).mp hv
    exact ⟨l, vs, hg, v, hv, hm⟩

theorem standsIn_map {y : Yield Tree} {target : Bool} :
    m.StandsIn (y.map (⟨·, target⟩)) b ↔ (∃ v ∈ y.items, v.node? = some m) ∧ target = b := by
  constructor
  · rintro ⟨c, hc, hm, rfl⟩
    obtain ⟨v, hv, rfl⟩ := List.mem_map.mp hc
    exact ⟨⟨v, hv, hm⟩, rfl⟩
  · rintro ⟨⟨v, hv, hm⟩, rfl⟩
    exact ⟨_, List.mem_map_of_mem hv, hm, rfl⟩

theorem standsIn_memberYield {member : Member} :
    m.StandsIn (n.memberYield place member) b ↔ n.hides member.key = false ∧
      (if member.list then n.HasAmong member.key m else n.HasOne member.key m) ∧
      n.targets? place member.key = b := by
  unfold memberYield
  cases h : n.hides member.key with
  | true => simp [StandsIn]
  | false =>
    rw [if_neg (by simp), standsIn_map]
    cases member.list with
    | true => simp [hasAmong_iff]
    | false => simp [HasOne]

theorem fault_memberYield {member : Member}
    (lists : member.list = true → (n.get member.key).IsListOf fun _ => True) :
    (n.memberYield place member).fault = none := by
  unfold memberYield
  split
  · rfl
  · cases h : member.list with
    | true => exact fault_elements (lists h)
    | false => rfl

namespace Standard

theorem fault_collect (h : n.Standard) (hms : n.kind.members? = some ms) :
    (Yield.collect (n.memberYield place) ms).fault = none := by
  rw [Yield.fault_collect]
  rintro ⟨key, list⟩ hmem
  refine fault_memberYield fun hl => ?_
  cases hl
  exact h.lists ms hms key hmem

theorem standsIn_collect (h : n.Standard) (hms : n.kind.members? = some ms) :
    m.StandsIn (.collect (n.memberYield place) ms) b ↔
      ∃ key, n.Holds key m ∧ n.hides key = false ∧ n.targets? place key = b := by
  have fault (member : Member) (hmem : member ∈ ms) : (n.memberYield place member).fault = none :=
    Yield.fault_collect.mp (h.fault_collect hms) member hmem
  have members : m.StandsIn (.collect (n.memberYield place) ms) b ↔
      ∃ member ∈ ms, m.StandsIn (n.memberYield place member) b := by
    simp only [StandsIn, Yield.items_collect fault, List.mem_flatMap]
    constructor
    · rintro ⟨c, ⟨member, hmem, hc⟩, hm⟩
      exact ⟨member, hmem, c, hc, hm⟩
    · rintro ⟨member, hmem, c, hc, hm⟩
      exact ⟨c, ⟨member, hmem, hc⟩, hm⟩
  rw [members]
  constructor
  · rintro ⟨⟨key, list⟩, -, hm⟩
    obtain ⟨shown, held, target⟩ := standsIn_memberYield.mp hm
    refine ⟨key, ?_, shown, target⟩
    cases list with
    | true => exact .inr held
    | false => exact .inl held
  · rintro ⟨key, held, shown, target⟩
    have noMetadata : key ∉ metadataKeys := by
      intro hk
      simp [hides, hk] at shown
    rcases held with held | held
    · exact ⟨.one key, (h.one ms hms key m held).resolve_left noMetadata,
        standsIn_memberYield.mpr ⟨shown, held, target⟩⟩
    · exact ⟨.many key, (h.among ms hms key m held).resolve_left noMetadata,
        standsIn_memberYield.mpr ⟨shown, held, target⟩⟩

theorem get_of_mem (h : n.Standard) {v : Tree} (hv : (key, v) ∈ n.fields) : n.get key = v := by
  obtain ⟨before, after, hf⟩ := List.append_of_mem hv
  have keys := h.keys
  rw [hf, List.map_append, List.map_cons] at keys
  have absent : before.lookup key = none := by
    rw [List.lookup_eq_none_iff]
    rintro ⟨k, u⟩ hu
    have other := (List.nodup_append.mp keys).2.2 k (List.mem_map_of_mem hu) key
      List.mem_cons_self
    simpa using Ne.symm other
  rw [get, hf, List.lookup_append, absent]
  simp

theorem fault_slots (h : n.Standard) : n.slots.fault = none := by
  cases hms : n.kind.members? with
  | none =>
    rw [slots_eq_members hms h.syntactic]
    rfl
  | some ms =>
    by_cases object : n.kind = .objectPattern
    · simp only [object, Kind.members?, Option.some.injEq] at hms
      simp only [slots, object, Yield.fault_flatMap, fault_propertySlots, implies_true, and_true]
      exact fault_elements (h.lists ms (by simp [object, Kind.members?, hms]) _ (by simp [← hms]))
    · have plain : Place.plain ≠ .entry := nofun
      rw [slots_eq_collect hms object plain]
      exact h.fault_collect hms

theorem standsIn_members (h : n.Standard) (hms : n.kind.members? = none) :
    m.StandsIn n.slots b ↔
      ∃ key, n.Holds key m ∧ n.hides key = false ∧ n.targets? place key = b := by
  have slots := slots_eq_members hms h.syntactic
  simp only [hides_eq hms, targets?_eq_false hms, List.contains_eq_mem, decide_eq_false_iff_not]
  constructor
  · rintro ⟨c, hc, hm, rfl⟩
    rw [slots] at hc
    obtain ⟨⟨key, v⟩, hv, hc⟩ := List.mem_flatMap.mp hc
    have held : n.get key = v := h.get_of_mem hv
    unfold memberSlots at hc
    split at hc
    · cases hc
    · next shown =>
      have shown : key ∉ metadataKeys := by simpa using shown
      split at hc
      · next l vs hl =>
        obtain ⟨u, hu, rfl⟩ := List.mem_map.mp hc
        exact ⟨key, .inr ⟨l, vs, held.trans hl, u, hu, hm⟩, shown, rfl⟩
      · obtain rfl := List.mem_singleton.mp hc
        exact ⟨key, .inl (by rw [HasOne, held, hm]), shown, rfl⟩
  · rintro ⟨key, hm | ⟨l, vs, hg, u, hu, hm⟩, shown, rfl⟩
    · exact ⟨_, mem_slots_member slots shown hm, hm, rfl⟩
    · have hv : (key, n.get key) ∈ n.fields := mem_fields_of_get (by simp [hg, Tree.null])
      refine ⟨⟨u, false⟩, ?_, hm, rfl⟩
      rw [slots]
      refine List.mem_flatMap.mpr ⟨_, hv, ?_⟩
      simp [memberSlots, shown, hg, hu]

/-- A node stands in a slot of another one just if that holds it in the open. -/
theorem standsIn_slots (h : n.Standard) (object : n.kind ≠ .objectPattern) (hp : place ≠ .entry) :
    m.StandsIn n.slots b ↔
      ∃ key, n.Holds key m ∧ n.hides key = false ∧ n.targets? place key = b := by
  cases hms : n.kind.members? with
  | none => exact h.standsIn_members hms
  | some ms =>
    rw [slots_eq_collect hms object hp]
    exact h.standsIn_collect hms

theorem standsIn_slots_objectPattern (h : n.Standard) (object : n.kind = .objectPattern)
    (entries : ∀ p, n.HasAmong "properties" p → p.Standard) :
    m.StandsIn n.slots b ↔ ∃ p, n.HasAmong "properties" p ∧
      ∃ key, p.Holds key m ∧ p.hides key = false ∧ p.targets? .entry key = b := by
  have below (p : Node) (hp : n.HasAmong "properties" p) : m.StandsIn (propertySlots p.tree) b ↔
      ∃ key, p.Holds key m ∧ p.hides key = false ∧ p.targets? .entry key = b := by
    obtain ⟨v, -, hv⟩ := hasAmong_iff.mp hp
    have kind := h.entries object p hp
    obtain ⟨ms, hms⟩ : ∃ ms, p.kind.members? = some ms := by
      rcases kind with hk | hk <;> exact ⟨_, by rw [hk]; rfl⟩
    rw [propertySlots_eq_collect (Tree.tree_of_node? hv ▸ hv) kind hms]
    exact (entries p hp).standsIn_collect hms
  have fault := h.fault_slots
  simp only [slots, object] at fault ⊢
  constructor
  · rintro ⟨c, hc, hm⟩
    obtain ⟨v, hv, hc⟩ := (Yield.mem_flatMap_iff fault).mp hc
    cases hp : v.node? with
    | none => simp [propertySlots, hp] at hc
    | some p =>
      have among : n.HasAmong "properties" p := hasAmong_iff.mpr ⟨v, hv, hp⟩
      rw [← Tree.tree_of_node? hp] at hc
      exact ⟨p, among, (below p among).mp ⟨c, hc, hm⟩⟩
  · rintro ⟨p, among, held⟩
    obtain ⟨v, hv, hp⟩ := hasAmong_iff.mp among
    obtain ⟨c, hc, hm⟩ := (below p among).mpr held
    rw [Tree.tree_of_node? hp] at hc
    exact ⟨c, (Yield.mem_flatMap_iff fault).mpr ⟨v, hv, hc⟩, hm⟩

end Standard

end Node

end LexicalScope
