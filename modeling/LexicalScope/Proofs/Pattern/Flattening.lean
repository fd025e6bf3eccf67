import Mathlib.Data.List.Lex
import Mathlib.Data.List.Sort
import LexicalScope.Proofs.Pattern.Break
import LexicalScope.Proofs.Pattern.Position
import LexicalScope.Proofs.Vocabulary.Check

/-! # Where flattening ends

Flattening a regular pattern gives the names of the identifiers at its positions, from left to
right. It runs to its end just if nothing but the five pattern kinds stands at a position. Otherwise
it breaks off at the leftmost position at which something else stands, after the names to the left
of it. What a node holds beside its parts makes no difference.
-/

namespace LexicalScope.Pattern

def IdentifierAt (stands : List Nat → Tree → Prop) (path : List Nat) (n : Node) : Prop :=
  stands path n.tree ∧ n.kind = .identifier

/-- The nodes at some paths, all of them, from left to right. -/
structure InOrder (P : List Nat → Node → Prop) (leaves : List (List Nat × Node)) : Prop where
  ascending : leaves.Pairwise fun a b => a.1 < b.1
  mem_iff : ∀ path n, (path, n) ∈ leaves ↔ P path n

def namesOf (leaves : List (List Nat × Node)) : List Tree := leaves.map (·.2.get "name")

/-- A yield of names reads off what stands at some paths, up to the leftmost tree that is no
pattern, where it breaks off. -/
inductive ReadsOff (stands : List Nat → Tree → Prop) : Yield Tree → Prop where
  | all {leaves : List (List Nat × Node)} (patterns : ∀ path u, stands path u → u.IsPattern)
      (order : InOrder (IdentifierAt stands) leaves) : ReadsOff stands (.ofList (namesOf leaves))
  | upTo {leaves : List (List Nat × Node)} {stop : List Nat} {offender : Tree}
      (here : stands stop offender) (foreign : ¬ offender.IsPattern)
      (leftmost : ∀ path u, stands path u → path < stop → u.IsPattern)
      (order : InOrder (fun path n => IdentifierAt stands path n ∧ path < stop) leaves) :
      ReadsOff stands ⟨namesOf leaves, some (.unsupportedPattern offender)⟩

namespace InOrder

variable {P Q R : List Nat → Node → Prop} {ls ms : List (List Nat × Node)}

theorem nil (none : ∀ path n, ¬ P path n) : InOrder P [] where
  ascending := .nil
  mem_iff path n := by simp [none]

theorem congr (h : InOrder P ls) (same : ∀ path n, P path n ↔ Q path n) : InOrder Q ls where
  ascending := h.ascending
  mem_iff path n := (h.mem_iff path n).trans (same path n)

theorem append (hl : InOrder P ls) (hm : InOrder Q ms)
    (before : ∀ p q n m, P p n → Q q m → p < q) (same : ∀ path n, R path n ↔ P path n ∨ Q path n) :
    InOrder R (ls ++ ms) where
  ascending := by
    refine List.pairwise_append.mpr ⟨hl.ascending, hm.ascending, ?_⟩
    rintro ⟨p, n⟩ hp ⟨q, m⟩ hq
    exact before p q n m ((hl.mem_iff p n).mp hp) ((hm.mem_iff q m).mp hq)
  mem_iff path n := by rw [List.mem_append, hl.mem_iff, hm.mem_iff, same]

theorem below (h : InOrder P ls) (i : Nat)
    (same : ∀ path n, Q path n ↔ ∃ inner, path = i :: inner ∧ P inner n) :
    InOrder Q (ls.map fun leaf => (i :: leaf.1, leaf.2)) where
  ascending := by
    refine List.pairwise_map.mpr (h.ascending.imp fun less => ?_)
    exact List.cons_lt_cons_iff.mpr (.inr ⟨rfl, less⟩)
  mem_iff path n := by
    simp only [same, List.mem_map, Prod.mk.injEq, Prod.exists, ← h.mem_iff]
    constructor
    · rintro ⟨inner, m, hm, rfl, rfl⟩
      exact ⟨inner, rfl, hm⟩
    · rintro ⟨inner, rfl, hm⟩
      exact ⟨inner, n, hm, rfl, rfl⟩

end InOrder

theorem namesOf_append (ls ms : List (List Nat × Node)) :
    namesOf (ls ++ ms) = namesOf ls ++ namesOf ms := List.map_append

theorem namesOf_below (i : Nat) (ls : List (List Nat × Node)) :
    namesOf (ls.map fun leaf => (i :: leaf.1, leaf.2)) = namesOf ls := by
  rw [namesOf, List.map_map]
  rfl

theorem ofList_append_below (i : Nat) (ls ms : List (List Nat × Node)) (fault : Option Fault) :
    (⟨namesOf ls, none⟩ : Yield Tree) ++ ⟨namesOf ms, fault⟩ =
      ⟨namesOf (ls.map (fun leaf => (i :: leaf.1, leaf.2)) ++ ms), fault⟩ := by
  rw [namesOf_append, namesOf_below]
  rfl

/-- What stands below some parts at their places. -/
def Among (ps : List (Tree × Nat)) (path : List Nat) (u : Tree) : Prop :=
  ∃ v i inner, path = i :: inner ∧ (v, i) ∈ ps ∧ At v inner u

section

variable {ps : List (Tree × Nat)} {v u : Tree} {n : Node} {i : Nat} {path : List Nat}

theorem among_cons : Among ((v, i) :: ps) path u ↔
    (∃ inner, path = i :: inner ∧ At v inner u) ∨ Among ps path u := by
  constructor
  · rintro ⟨w, j, inner, rfl, member, h⟩
    rcases List.mem_cons.mp member with same | member
    · obtain ⟨rfl, rfl⟩ := Prod.mk.inj same
      exact .inl ⟨inner, rfl, h⟩
    · exact .inr ⟨w, j, inner, rfl, member, h⟩
  · rintro (⟨inner, rfl, h⟩ | ⟨w, j, inner, rfl, member, h⟩)
    · exact ⟨v, i, inner, rfl, List.mem_cons_self, h⟩
    · exact ⟨w, j, inner, rfl, List.mem_cons_of_mem _ member, h⟩

theorem identifierAt_among_cons : IdentifierAt (Among ((v, i) :: ps)) path n ↔
    (∃ inner, path = i :: inner ∧ IdentifierAt (At v) inner n) ∨
      IdentifierAt (Among ps) path n := by
  simp only [IdentifierAt, among_cons, or_and_right, ← exists_and_right, and_assoc]

theorem ReadsOff.append {own others : Yield Tree} (first : ReadsOff (At v) own)
    (rest : ReadsOff (Among ps) others) (later : ∀ p ∈ ps, i < p.2) :
    ReadsOff (Among ((v, i) :: ps)) (own ++ others) := by
  have before (inner : List Nat) {path : List Nat} {u : Tree} (h : Among ps path u) :
      i :: inner < path := by
    obtain ⟨w, j, inner', rfl, member, -⟩ := h
    exact List.cons_lt_cons_iff.mpr (.inl (later _ member))
  cases first with
  | @upTo leaves stop offender here foreign leftmost order =>
    -- the first part breaks off, so nothing is read of the others
    have here' : Among ((v, i) :: ps) (i :: stop) offender :=
      among_cons.mpr (.inl ⟨stop, rfl, here⟩)
    rw [Yield.append_mk_some, ← namesOf_below i]
    refine .upTo here' foreign (fun path u h less => ?_) (order.below i fun path n => ?_)
    · rcases among_cons.mp h with ⟨inner, rfl, there⟩ | there
      · exact leftmost inner u there (by simpa [List.cons_lt_cons_iff] using less)
      · exact absurd (before stop there) (lt_asymm less)
    · rw [identifierAt_among_cons]
      constructor
      · rintro ⟨⟨inner, rfl, h⟩ | h, less⟩
        · exact ⟨inner, rfl, h, by simpa [List.cons_lt_cons_iff] using less⟩
        · exact absurd (before stop h.1) (lt_asymm less)
      · rintro ⟨inner, rfl, h, less⟩
        exact ⟨.inl ⟨inner, rfl, h⟩, List.cons_lt_cons_iff.mpr (.inr ⟨rfl, less⟩)⟩
  | @all leaves patterns order =>
    have inside (path : List Nat) (u : Tree) (h : ∃ inner, path = i :: inner ∧ At v inner u) :
        u.IsPattern := by
      obtain ⟨inner, rfl, there⟩ := h
      exact patterns inner u there
    have below := order.below i fun path n => Iff.rfl
    cases rest with
    | @all leaves' patterns' order' =>
      rw [Yield.ofList, Yield.ofList, ofList_append_below i]
      refine .all (fun path u h => ?_) (below.append order' ?_ fun path n =>
        identifierAt_among_cons)
      · exact (among_cons.mp h).elim (inside path u) (patterns' path u)
      · rintro _ q _ m ⟨inner, rfl, -⟩ h
        exact before inner h.1
    | @upTo leaves' stop offender here foreign leftmost order' =>
      rw [Yield.ofList, ofList_append_below i]
      refine .upTo (among_cons.mpr (.inr here)) foreign (fun path u h less => ?_)
        (below.append order' ?_ fun path n => ?_)
      · exact (among_cons.mp h).elim (inside path u) (leftmost path u · less)
      · rintro _ q _ m ⟨inner, rfl, -⟩ h
        exact before inner h.1.1
      · rw [identifierAt_among_cons, or_and_right]
        refine or_congr_left (and_iff_left_of_imp ?_)
        rintro ⟨inner, rfl, -⟩
        exact before inner here

theorem readsOff_collect (ascending : ps.Pairwise fun a b => a.2 < b.2)
    (each : ∀ v i, (v, i) ∈ ps → ReadsOff (At v) (names v)) :
    ReadsOff (Among ps) (Yield.collect names (ps.map Prod.fst)) := by
  induction ps with
  | nil =>
    have none (path : List Nat) (u : Tree) : ¬ Among [] path u := by simp [Among]
    exact @ReadsOff.all _ [] (fun path u h => absurd h (none path u))
      (.nil fun path n h => none path _ h.1)
  | cons p ps ih =>
    obtain ⟨v, i⟩ := p
    obtain ⟨later, ascending⟩ := List.pairwise_cons.mp ascending
    rw [List.map_cons, Yield.collect_cons]
    exact (each v i List.mem_cons_self).append
      (ih ascending fun w j hw => each w j (List.mem_cons_of_mem _ hw)) later

end

variable {t u : Tree} {n : Node} {path : List Nat}

theorem at_iff (node : t.object? = some n) : At t path u ↔ path = [] ∧ u = t ∨
    ∃ v i inner, path = i :: inner ∧ n.PartAt i v ∧ At v inner u := by
  constructor
  · intro h
    cases h with
    | whole => exact .inl ⟨rfl, rfl⟩
    | part node' part inner =>
      obtain rfl := Option.some.inj (node.symm.trans node')
      exact .inr ⟨_, _, _, rfl, part, inner⟩
  · rintro (⟨rfl, rfl⟩ | ⟨v, i, inner, rfl, part, h⟩)
    · exact .whole u
    · exact .part node part h

theorem ReadsOff.whole {stands : List Nat → Tree → Prop} {y : Yield Tree} (h : ReadsOff stands y)
    (node : t.object? = some n) (pattern : n.kind.isPattern = true)
    (same : ∀ path u, At t path u ↔ path = [] ∧ u = t ∨ stands path u) : ReadsOff (At t) y := by
  have isPattern : t.IsPattern := ⟨n, node, .inr pattern⟩
  have identifier (path : List Nat) (m : Node) :
      IdentifierAt stands path m ↔ IdentifierAt (At t) path m := by
    have other : m.tree = t → m.kind ≠ .identifier := by
      rintro rfl identifier
      obtain rfl := Option.some.inj node
      rw [identifier] at pattern
      cases pattern
    rw [IdentifierAt, IdentifierAt, same, or_and_right]
    refine ⟨.inr, Or.rec (fun h => absurd h.2 (other h.1.2)) id⟩
  cases h with
  | all patterns order =>
    refine .all (fun path u h => ?_) (order.congr identifier)
    rcases (same path u).mp h with ⟨-, rfl⟩ | h
    · exact isPattern
    · exact patterns path u h
  | upTo here foreign leftmost order =>
    refine .upTo ((same _ _).mpr (.inr here)) foreign (fun path u h less => ?_)
      (order.congr fun path m => and_congr_left fun _ => identifier path m)
    rcases (same path u).mp h with ⟨-, rfl⟩ | h
    · exact isPattern
    · exact leftmost path u h less

theorem isPattern_of_isIdentifier (h : isIdentifier t = true) : t.IsPattern := by
  obtain ⟨n, node, kind⟩ := (Option.any_eq_true _ _).mp h
  exact ⟨n, node, .inl (beq_iff_eq.mp kind)⟩

theorem isPattern_of_parts {ps : Yield Tree} (h : parts? t = some ps) : t.IsPattern := by
  obtain ⟨n, node, h⟩ := Option.bind_eq_some_iff.mp h
  refine ⟨n, node, .inr ?_⟩
  split at h
  case h_5 => cases h
  all_goals
    next kind =>
      rw [kind]
      rfl

theorem names_of_not_isPattern (regular : Regular t) (foreign : ¬ t.IsPattern) :
    names t = .fail (.unsupportedPattern t) := by
  have located : ∃ suffix, t.positionSuffix = .ok suffix := by
    cases object : t.object? with
    | none => cases t <;> first | exact ⟨_, rfl⟩ | cases object
    | some n =>
      obtain ⟨p, position⟩ := (regular.node object).located.exists_position
      obtain rfl := Tree.tree_of_object? object
      exact ⟨p.suffix, congrArg (Except.map Position.suffix) position⟩
  have unsupported : t.unsupported = .unsupportedPattern t := by
    obtain ⟨suffix, found⟩ := located
    rw [Tree.unsupported, found]
  have other : isIdentifier t = false := by
    simpa using mt isPattern_of_isIdentifier foreign
  have none : parts? t = none :=
    Option.eq_none_iff_forall_ne_some.mpr fun ps parts => foreign (isPattern_of_parts parts)
  rw [names_of_unsupported other none, unsupported]

theorem readsOff_of_identifier (regular : Regular t) (node : t.object? = some n)
    (identifier : n.kind = .identifier) : ReadsOff (At t) (names t) := by
  obtain ⟨v, name⟩ := (regular.node node).name identifier
  have names : names t = .ofList (namesOf [([], n)]) := by
    obtain rfl := Tree.tree_of_object? node
    rw [names_of_isIdentifier (by simp [isIdentifier, node, identifier]), name,
      ← Tree.get_of_field name]
    rfl
  have only (path : List Nat) (u : Tree) : At t path u ↔ path = [] ∧ u = t := by
    rw [at_iff node, or_iff_left]
    rintro ⟨v, i, inner, -, part, -⟩
    have compound := isPattern_of_partAt part
    rw [identifier] at compound
    cases compound
  rw [names]
  refine .all (fun path u h => ?_) ⟨List.pairwise_singleton _ _, fun path m => ?_⟩
  · obtain ⟨-, rfl⟩ := (only path u).mp h
    exact ⟨n, node, .inl identifier⟩
  · rw [IdentifierAt, only, List.mem_singleton, ← Tree.tree_of_object? node]
    constructor
    · rintro ⟨⟩
      exact ⟨⟨rfl, rfl⟩, identifier⟩
    · rintro ⟨⟨rfl, same⟩, -⟩
      obtain rfl : m = n := Option.some.inj (congrArg Tree.object? same)
      rfl

theorem readsOff_of_not_isPattern (regular : Regular t) (foreign : ¬ t.IsPattern) :
    ReadsOff (At t) (names t) := by
  rw [names_of_not_isPattern regular foreign]
  refine @ReadsOff.upTo _ [] _ _ (.whole t) foreign (fun path u _ less => ?_)
    (.nil fun path n h => ?_)
  · exact absurd less (List.not_lt_nil path)
  · exact absurd h.2 (List.not_lt_nil path)

/-- Flattening reads off what stands at the positions of a pattern. -/
theorem readsOff_names (regular : Regular t) : ReadsOff (At t) (names t) := by
  -- the parts of a node are found by lookups in it, so the induction is on the height
  induction hk : t.height using Nat.strongRecOn generalizing t with
  | ind k ih =>
    by_cases pattern : t.IsPattern
    · obtain ⟨n, node, identifier | compound⟩ := pattern
      · exact readsOff_of_identifier regular node identifier
      · obtain ⟨ps, parts, ascending, mem⟩ := exists_partsAt node compound (regular.node node)
        have inner : ReadsOff (Among ps) (Yield.collect names (ps.map Prod.fst)) := by
          refine readsOff_collect ascending fun v i hv => ?_
          have below : v.height < k := by
            subst hk
            exact height_of_mem_parts parts (List.mem_map_of_mem (f := Prod.fst) hv)
          exact ih _ below (regular.part node ((mem v i).mp hv)) rfl
        rw [names_of_parts (isIdentifier_of_parts parts) parts, Yield.flatMap_ofList]
        refine inner.whole node compound fun path u => ?_
        simp only [at_iff node, Among, mem]
    · exact readsOff_of_not_isPattern regular pattern

theorem collect_of_places {ps ps' : List (Tree × Nat)} {f : Tree → Yield Tree}
    (places : ps.map Prod.snd = ps'.map Prod.snd)
    (each : ∀ v v' i, (v, i) ∈ ps → (v', i) ∈ ps' → f v' = f v) :
    Yield.collect f (ps'.map Prod.fst) = Yield.collect f (ps.map Prod.fst) := by
  induction ps generalizing ps' with
  | nil =>
    obtain rfl := List.map_eq_nil_iff.mp places.symm
    rfl
  | cons p ps ih =>
    cases ps' with
    | nil => cases places
    | cons p' ps' =>
      obtain ⟨v, i⟩ := p
      obtain ⟨v', j⟩ := p'
      obtain ⟨same, rest⟩ := List.cons.inj places
      obtain rfl : i = j := same
      rw [List.map_cons, List.map_cons, Yield.collect_cons, Yield.collect_cons,
        each v v' i List.mem_cons_self List.mem_cons_self,
        ih rest fun w w' k hw hw' => each w w' k (List.mem_cons_of_mem _ hw)
          (List.mem_cons_of_mem _ hw')]

theorem names_of_sameParts {t' : Tree} (h : SameParts t t') (regular : Regular t)
    (regular' : Regular t') : names t' = names t := by
  induction h with
  | same => rfl
  | @parts t t' n n' node node' pattern kind places each ih =>
    obtain ⟨ps, parts, ascending, mem⟩ := exists_partsAt node pattern (regular.node node)
    obtain ⟨ps', parts', ascending', mem'⟩ :=
      exists_partsAt node' (kind ▸ pattern) (regular'.node node')
    have subset {qs rs : List (Tree × Nat)} (sub : ∀ i, (∃ v, (v, i) ∈ qs) → ∃ v, (v, i) ∈ rs) :
        qs.map Prod.snd ⊆ rs.map Prod.snd := by
      intro i hi
      obtain ⟨⟨v, _⟩, member, rfl⟩ := List.mem_map.mp hi
      obtain ⟨w, member⟩ := sub _ ⟨v, member⟩
      exact List.mem_map.mpr ⟨_, member, rfl⟩
    have indices : ps.map Prod.snd = ps'.map Prod.snd := by
      refine List.Subset.antisymm_of_pairwise (List.pairwise_map.mpr ascending)
        (List.pairwise_map.mpr ascending') (subset fun i => ?_) (subset fun i => ?_)
      · simp only [mem, mem']
        exact (places i).mp
      · simp only [mem, mem']
        exact (places i).mpr
    rw [names_of_parts (isIdentifier_of_parts parts) parts,
      names_of_parts (isIdentifier_of_parts parts') parts', Yield.flatMap_ofList,
      Yield.flatMap_ofList]
    refine collect_of_places indices fun v v' i member member' => ?_
    have part := (mem v i).mp member
    have part' := (mem' v' i).mp member'
    exact ih i v v' part part' (regular.part node part) (regular'.part node' part')

/-- Flattening a regular pattern gives the names of its identifiers up to the leftmost position
without a pattern, where it breaks off. -/
theorem names_of_regular (regular : Regular t) :
    ((names t).fault = none ↔ ∀ path u, At t path u → u.IsPattern) ∧ ReadsOff (At t) (names t) ∧
      ∀ t', Regular t' → SameParts t t' → names t' = names t := by
  have reads := readsOff_names regular
  refine ⟨?_, reads, fun t' regular' same => names_of_sameParts same regular regular'⟩
  generalize names t = y at reads ⊢
  cases reads with
  | all patterns order => exact iff_of_true rfl patterns
  | upTo here foreign leftmost order =>
    exact iff_of_false (Option.some_ne_none _) fun patterns => foreign (patterns _ _ here)

end LexicalScope.Pattern

namespace LexicalScope

def Node.isLocated (n : Node) : Bool :=
  (n.get "loc").isNull || (n.get "loc").object?.any fun l =>
    (l.get "start").isNull || (l.get "start").object?.isSome

def Node.isRegular (n : Node) : Bool :=
  n.isLocated && match n.kind with
    | .objectPattern => (n.get "properties").isListOf fun entry => entry.object?.isSome
    | .arrayPattern => (n.get "elements").isListOf fun _ => true
    | .identifier => (n.fields.lookup "name").isSome
    | _ => true

theorem Node.isLocated_sound {n : Node} (h : n.isLocated = true) : n.Located := by
  rw [isLocated, Bool.or_eq_true] at h
  refine h.imp Tree.eq_null_of_isNull fun h => ?_
  obtain ⟨l, object, start⟩ := (Option.any_eq_true _ _).mp h
  rw [Bool.or_eq_true] at start
  exact ⟨l, object, start.imp Tree.eq_null_of_isNull Option.isSome_iff_exists.mp⟩

theorem Node.isRegular_sound {n : Node} (h : n.isRegular = true) : n.Regular := by
  obtain ⟨located, own⟩ := Bool.and_eq_true_iff.mp h
  refine ⟨fun kind => ?_, fun kind => ?_, fun kind => ?_, isLocated_sound located⟩ <;>
    simp only [kind] at own
  · exact Tree.isListOf_sound (fun _ => Option.isSome_iff_exists.mp) own
  · exact Tree.isListOf_sound (fun _ _ => trivial) own
  · obtain ⟨v, name⟩ := Option.isSome_iff_exists.mp own
    exact ⟨v, by rw [Node.tree, Tree.field, name]⟩

namespace Pattern

/-- Whether a pattern is regular, as far as it is looked into. -/
def isRegular : Nat → Tree → Bool
  | 0, _ => false
  | depth + 1, t => t.object?.all fun n => n.isRegular &&
    (parts? t).all fun ps => ps.items.all (isRegular depth)

theorem isRegular_sound (depth : Nat) {t : Tree} (h : isRegular depth t = true) : Regular t := by
  induction depth generalizing t with
  | zero => cases h
  | succ depth ih =>
    intro path u m there object
    cases hn : t.object? with
    | none =>
      cases there with
      | whole => exact absurd (hn.symm.trans object) (by simp)
      | part node => exact absurd (hn.symm.trans node) (by simp)
    | some n =>
      rw [isRegular, hn, Option.all_some, Bool.and_eq_true] at h
      have own := Node.isRegular_sound h.1
      rcases (at_iff hn).mp there with ⟨rfl, rfl⟩ | ⟨v, i, inner, rfl, part, below⟩
      · obtain rfl := Option.some.inj (hn.symm.trans object)
        exact own
      · obtain ⟨ps, parts, -, mem⟩ := exists_partsAt hn (isPattern_of_partAt part) own
        rw [parts, Option.all_some, List.all_eq_true] at h
        exact ih (h.2 v (List.mem_map.mpr ⟨_, (mem v i).mpr part, rfl⟩)) inner u m below object

theorem sameParts_of_left {n n' : Node} (kind : n.kind = .assignmentPattern)
    (kind' : n'.kind = .assignmentPattern) (left : n'.get "left" = n.get "left") :
    SameParts n.tree n'.tree := by
  have only {m : Node} (kind : m.kind = .assignmentPattern) {i : Nat} {v : Tree} :
      m.PartAt i v ↔ i = 0 ∧ v = m.get "left" := by
    constructor
    · intro part
      cases part with
      | left => exact ⟨rfl, rfl⟩
      | entry other | element other | argument other => simp [kind] at other
    · rintro ⟨rfl, rfl⟩
      exact .left kind
  refine .parts rfl rfl (by rw [kind]; rfl) (kind'.trans kind.symm) (fun i => ?_)
    fun i v v' part part' => ?_
  · simp only [only kind, only kind', exists_and_left, exists_eq]
  · obtain ⟨-, rfl⟩ := (only kind).mp part
    obtain ⟨-, rfl⟩ := (only kind').mp part'
    rw [left]
    exact .same _

/-- The pattern `[, { ...a }, b.c, d]` with a default value. -/
def interruptedPattern (default : Tree) : Node :=
  ⟨0, [("type", .str "AssignmentPattern"),
    ("left", .obj 1 [("type", .str "ArrayPattern"), ("elements", .arr 2 [.null,
      .obj 3 [("type", .str "ObjectPattern"), ("properties", .arr 4
        [.obj 5 [("value", .str ""), ("argument", .identifier 6 "a")]])],
      .obj 7 [("type", .str "MemberExpression"), ("object", .identifier 8 "b"),
        ("property", .identifier 9 "c")],
      .identifier 10 "d"])]),
    ("right", default)]⟩

/-- Of the pattern `[, { ...a }, b.c, d]` the name `a` is read off, whatever the default value. -/
theorem names_of_regular_interrupted :
    Regular (interruptedPattern .null).tree ∧ Regular (interruptedPattern (.arr 11 [])).tree ∧
    SameParts (interruptedPattern .null).tree (interruptedPattern (.arr 11 [])).tree ∧
    ReadsOff (At (interruptedPattern .null).tree) (names (interruptedPattern .null).tree) ∧
    (names (interruptedPattern .null).tree).fault ≠ none ∧
    (names (interruptedPattern .null).tree).items.map (·.isText "a") = [true] ∧
    names (interruptedPattern (.arr 11 [])).tree = names (interruptedPattern .null).tree := by
  have regular : Regular (interruptedPattern .null).tree :=
    isRegular_sound 5 rfl
  have regular' : Regular (interruptedPattern (.arr 11 [])).tree :=
    isRegular_sound 5 rfl
  have same : SameParts (interruptedPattern .null).tree (interruptedPattern (.arr 11 [])).tree :=
    sameParts_of_left rfl rfl rfl
  obtain ⟨ends, reads, beside⟩ := names_of_regular regular
  refine ⟨regular, regular', same, reads, ends.not.mpr fun patterns => ?_, by decide +kernel,
    beside _ regular' same⟩
  have member : At (interruptedPattern .null).tree [0, 2] _ :=
    .part rfl (.left rfl) (.part rfl (.element rfl rfl rfl (by simp [Tree.null])) (.whole _))
  obtain ⟨n, node, kind | kind⟩ := patterns _ _ member
  all_goals
    obtain rfl := Option.some.inj node
    cases kind

end Pattern

end LexicalScope
