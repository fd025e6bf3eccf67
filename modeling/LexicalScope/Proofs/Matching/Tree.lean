import LexicalScope.Proofs.Analysis
import LexicalScope.Proofs.Matching.Arrange

/-! # Matching trees

Two trees match if they hold the same atoms under the same keys and labels. Where the order does not
count, the items of a list and the members of an object may stand in any order. Some functions may
be opened, which leaves their parameters and their bodies out of the comparison. All that an
analysis reads off a tree is the same in a matching one, or matches again.
-/

namespace LexicalScope

def Kept (opened : Label → Prop) (owner : Label) (key : String) : Prop :=
  ¬ opened owner ∨ key ≠ "params" ∧ key ≠ "body"

inductive Tree.Matches (ordered : Bool) (opened : Label → Prop) : Tree → Tree → Prop where
  | atom (a : Atom) : Matches ordered opened (atom a) (atom a)
  | arr {l : Label} {vs ws us : List Tree} (order : Reordered ordered vs ws)
      (length : ws.length = us.length)
      (items : ∀ v u, (v, u) ∈ ws.zip us → Matches ordered opened v u) :
    Matches ordered opened (arr l vs) (arr l us)
  | obj {l : Label} {fs gs hs : List (String × Tree)} (order : Reordered ordered fs gs)
      (distinct : ordered = false → (fs.map Prod.fst).Nodup) (length : gs.length = hs.length)
      (keys : ∀ f g, (f, g) ∈ gs.zip hs → f.1 = g.1)
      (members : ∀ f g, (f, g) ∈ gs.zip hs → Kept opened l f.1 → Matches ordered opened f.2 g.2) :
    Matches ordered opened (obj l fs) (obj l hs)

/-- Members of matching objects with a label. -/
def MemberMatches (ordered : Bool) (opened : Label → Prop) (owner : Label)
    (f g : String × Tree) : Prop :=
  f.1 = g.1 ∧ (Kept opened owner f.1 → f.2.Matches ordered opened g.2)

def Node.Matches (ordered : Bool) (opened : Label → Prop) (n n' : Node) : Prop :=
  n.tree.Matches ordered opened n'.tree

theorem lookup_of_perm {fs gs : List (String × Tree)} (h : fs.Perm gs)
    (distinct : (fs.map Prod.fst).Nodup) (key : String) : gs.lookup key = fs.lookup key := by
  induction h with
  | nil => rfl
  | cons f _ ih =>
    obtain ⟨k, v⟩ := f
    rw [List.lookup_cons, List.lookup_cons, ih (List.nodup_cons.mp distinct).2]
  | swap f g fs =>
    obtain ⟨k, v⟩ := f
    obtain ⟨l, w⟩ := g
    have apart : l ≠ k := by simp_all
    simp only [List.lookup_cons]
    cases hk : key == k with
    | false => rfl
    | true =>
      obtain rfl := eq_of_beq hk
      rw [beq_false_of_ne apart.symm]
  | trans h _ ih ih' => rw [ih' ((h.map _).nodup_iff.mp distinct), ih distinct]

variable {ordered : Bool} {opened : Label → Prop}

namespace Tree.Matches

variable {t t' : Tree} {l : Label}

theorem of_items {vs us : List Tree} (h : Arranged ordered (Matches ordered opened) vs us) :
    (Tree.arr l vs).Matches ordered opened (.arr l us) := by
  obtain ⟨ws, order, related⟩ := h
  rw [List.forall₂_iff_zip] at related
  exact .arr order related.1 fun v u hm => related.2 hm

theorem of_members {fs hs : List (String × Tree)}
    (distinct : ordered = false → (fs.map Prod.fst).Nodup)
    (h : Arranged ordered (MemberMatches ordered opened l) fs hs) :
    (Tree.obj l fs).Matches ordered opened (.obj l hs) := by
  obtain ⟨gs, order, related⟩ := h
  rw [List.forall₂_iff_zip] at related
  exact .obj order distinct related.1 (fun f g hm => (related.2 hm).1)
    fun f g hm => (related.2 hm).2

theorem refl (t : Tree) : t.Matches true opened t := by
  cases t with
  | atom a => exact .atom a
  | arr l vs =>
    apply of_items
    apply Arranged.of_forall₂
    rw [List.forall₂_same]
    intro v hv
    exact refl v
  | obj l fs =>
    apply of_members (by simp)
    apply Arranged.of_forall₂
    rw [List.forall₂_same]
    rintro ⟨k, v⟩ hf
    exact ⟨rfl, fun _ => refl v⟩
termination_by t
decreasing_by
  · have := List.sizeOf_lt_of_mem hv
    simp only [arr.sizeOf_spec]
    omega
  · have := List.sizeOf_lt_of_mem hf
    simp only [Prod.mk.sizeOf_spec] at this
    simp only [obj.sizeOf_spec]
    omega

theorem items {vs : List Tree} (h : (Tree.arr l vs).Matches ordered opened t') :
    ∃ us, t' = .arr l us ∧ Arranged ordered (Matches ordered opened) vs us := by
  cases h with
  | arr order length items =>
    exact ⟨_, rfl, _, order, List.forall₂_iff_zip.mpr ⟨length, fun hm => items _ _ hm⟩⟩

theorem members {fs : List (String × Tree)} (h : (Tree.obj l fs).Matches ordered opened t') :
    ∃ hs, t' = .obj l hs ∧ (ordered = false → (fs.map Prod.fst).Nodup) ∧
      Arranged ordered (MemberMatches ordered opened l) fs hs := by
  cases h with
  | obj order distinct length keys members =>
    exact ⟨_, rfl, distinct, _, order,
      List.forall₂_iff_zip.mpr ⟨length, fun hm => ⟨keys _ _ hm, members _ _ hm⟩⟩⟩

theorem symm (h : t.Matches ordered opened t') : t'.Matches ordered opened t := by
  induction h with
  | atom a => exact .atom a
  | arr order length _ ih =>
    apply of_items
    apply Arranged.symm (R := fun v u => Matches ordered opened u v)
    exact ⟨_, order, List.forall₂_iff_zip.mpr ⟨length, fun hm => ih _ _ hm⟩⟩
  | @obj l fs gs hs order distinct length keys _ ih =>
    have related : Arranged ordered
        (fun f g => f.1 = g.1 ∧ (Kept opened l f.1 → g.2.Matches ordered opened f.2)) fs hs :=
      ⟨_, order, List.forall₂_iff_zip.mpr ⟨length, fun hm => ⟨keys _ _ hm, ih _ _ hm⟩⟩⟩
    apply of_members
    · intro ho
      have same := related.reordered_map (f := Prod.fst) (g := Prod.fst) fun f _ g hr => hr.1.symm
      exact same.1.nodup_iff.mp (distinct ho)
    · refine related.symm.mono ?_
      rintro f - g - ⟨hk, hm⟩
      exact ⟨hk.symm, fun kept => hm (hk ▸ kept)⟩

theorem label?_eq (h : t.Matches ordered opened t') : t'.label? = t.label? := by
  cases h <;> rfl

theorem asKind_eq (h : t.Matches ordered opened t') : t'.asKind = t.asKind := by
  cases h <;> rfl

theorem isText_eq (h : t.Matches ordered opened t') (s : String) : t'.isText s = t.isText s := by
  cases h <;> rfl

theorem atom?_eq (h : t.Matches ordered opened t') : t'.atom? = t.atom? := by
  cases h <;> rfl

theorem truthy_eq (h : t.Matches ordered opened t') : t'.truthy = t.truthy := by
  have empty {α : Type} {as bs cs : List α} (order : Reordered ordered as cs)
      (length : cs.length = bs.length) : (!bs.isEmpty) = !as.isEmpty := by
    rw [Bool.eq_iff_iff]
    simp [← List.length_eq_zero_iff, ← length, order.1.length_eq]
  cases h with
  | atom a => rfl
  | arr order length _ => exact empty order length
  | obj order _ length _ _ => exact empty order length

theorem lookup {fs : List (String × Tree)} {gs : List (String × Tree)}
    (h : (Tree.obj l fs).Matches ordered opened (.obj l gs)) (key : String) :
    Option.Rel (fun v u => Kept opened l key → v.Matches ordered opened u) (fs.lookup key)
      (gs.lookup key) := by
  obtain ⟨gs', same, distinct, cs, order, related⟩ := h.members
  obtain ⟨-, rfl⟩ := Tree.obj.inj same
  have reordered : cs.lookup key = fs.lookup key := by
    cases ordered with
    | true => rw [order.2 rfl]
    | false => exact lookup_of_perm order.1 (distinct rfl) key
  rw [← reordered]
  clear order reordered same h
  induction related with
  | nil => exact .none
  | @cons f g cs gs hr _ ih =>
    obtain ⟨k, v⟩ := f
    obtain ⟨k', v'⟩ := g
    obtain ⟨rfl, hv⟩ := hr
    rw [List.lookup_cons, List.lookup_cons]
    cases hk : key == k with
    | false => exact ih
    | true =>
      obtain rfl := eq_of_beq hk
      exact .some hv

theorem object? (h : t.Matches ordered opened t') :
    Option.Rel (Node.Matches ordered opened) t.object? t'.object? := by
  cases t with
  | obj l fs =>
    obtain ⟨gs, rfl, -⟩ := id h.members
    exact .some h
  | arr l vs =>
    obtain ⟨us, rfl, -⟩ := h.items
    exact .none
  | atom a =>
    cases h
    exact .none

theorem node? (h : t.Matches ordered opened t') : t.node? = none ∧ t'.node? = none ∨
    ∃ n n', t.node? = some n ∧ t'.node? = some n' ∧ n.Matches ordered opened n' := by
  cases t with
  | obj l fs =>
    obtain ⟨gs, rfl, -⟩ := id h.members
    have typed : (gs.lookup "type").isSome = (fs.lookup "type").isSome := by
      have member := h.lookup "type"
      generalize fs.lookup "type" = found, gs.lookup "type" = found' at member ⊢
      cases member <;> rfl
    simp only [Tree.node?, typed]
    split
    · exact .inr ⟨_, _, rfl, rfl, h⟩
    · exact .inl ⟨rfl, rfl⟩
  | arr l vs =>
    obtain ⟨us, rfl, -⟩ := h.items
    exact .inl ⟨rfl, rfl⟩
  | atom a =>
    cases h
    exact .inl ⟨rfl, rfl⟩

theorem elements (h : t.Matches ordered opened t') :
    (Yield.ofExcept t.elements).Arranges ordered (Matches ordered opened)
      (Yield.ofExcept t'.elements) := by
  unfold Tree.elements
  rw [h.truthy_eq]
  split
  · cases t with
    | obj l fs =>
      obtain ⟨gs, rfl, -, members⟩ := h.members
      refine Yield.arranges_ofList (members.map ?_)
      rintro f - g ⟨hk, -⟩
      rw [hk]
      exact .atom _
    | arr l vs =>
      obtain ⟨us, rfl, items⟩ := h.items
      exact Yield.arranges_ofList items
    | atom a =>
      cases h
      cases a with
      | str s =>
        apply Yield.arranges_ofList
        apply Arranged.of_forall₂
        rw [List.forall₂_same]
        intro v hv
        obtain ⟨c, -, rfl⟩ := List.mem_map.mp hv
        exact .atom _
      | _ => exact Yield.arranges_fail
  · exact Yield.arranges_empty

theorem field {key : String} (h : t.Matches ordered opened t') (hk : key ≠ "params" ∧ key ≠ "body")
    {v : Tree} (hv : t.field key = .ok v) :
    ∃ v', t'.field key = .ok v' ∧ v.Matches ordered opened v' := by
  cases t with
  | obj l fs =>
    obtain ⟨gs, rfl, -⟩ := id h.members
    have member := h.lookup key
    simp only [Tree.field] at hv ⊢
    generalize fs.lookup key = found, gs.lookup key = found' at hv member ⊢
    cases member with
    | none => cases hv
    | some hm =>
      obtain rfl := Except.ok.inj hv
      exact ⟨_, rfl, hm (.inr hk)⟩
  | _ => cases hv

theorem get? {key : String} (h : t.Matches ordered opened t') (kept : ∀ l, Kept opened l key)
    {v : Tree} (hv : t.get? key = .ok v) :
    ∃ v', t'.get? key = .ok v' ∧ v.Matches ordered opened v' := by
  cases t with
  | obj l fs =>
    obtain ⟨gs, rfl, -⟩ := id h.members
    obtain rfl := Except.ok.inj hv
    refine ⟨_, rfl, ?_⟩
    have member := h.lookup key
    unfold Node.get
    generalize fs.lookup key = found, gs.lookup key = found' at member ⊢
    cases member with
    | none => exact .atom _
    | some hm => exact hm (kept l)
  | _ => cases hv

end Tree.Matches

namespace Node.Matches

variable {n n' : Node}

theorem label (h : n.Matches ordered opened n') : n'.label = n.label :=
  Option.some.inj h.label?_eq

theorem lookup (h : n.Matches ordered opened n') (key : String) :
    Option.Rel (fun v u => Kept opened n.label key → v.Matches ordered opened u)
      (n.fields.lookup key) (n'.fields.lookup key) := by
  have same := h.label
  obtain ⟨l, fs⟩ := n
  obtain ⟨l', gs⟩ := n'
  obtain rfl : l' = l := same
  exact Tree.Matches.lookup h key

theorem get (h : n.Matches ordered opened n') (key : String) (kept : Kept opened n.label key) :
    (n.get key).Matches ordered opened (n'.get key) := by
  have member := h.lookup key
  unfold Node.get
  generalize n.fields.lookup key = found, n'.fields.lookup key = found' at member ⊢
  cases member with
  | none => exact .atom _
  | some hm => exact hm kept

theorem kind (h : n.Matches ordered opened n') : n'.kind = n.kind :=
  (h.get _ (.inr (by decide))).asKind_eq

theorem name? (h : n.Matches ordered opened n') : n'.name? = n.name? := by
  have member := h.lookup "name"
  unfold Node.name?
  generalize n.fields.lookup "name" = found, n'.fields.lookup "name" = found' at member ⊢
  cases member with
  | none => rfl
  | some hm => exact congrArg some (hm (.inr (by decide))).atom?_eq

theorem alike (h : n.Matches ordered opened n') : n.Alike n' where
  label := h.label
  kind := h.kind
  value _ := (h.get _ (.inr (by decide))).label?_eq

end Node.Matches

namespace Tree.Matches

variable {t t' : Tree}

theorem member_isText (h : t.Matches ordered opened t') (key : String)
    (hk : key ≠ "params" ∧ key ≠ "body") (s : String) :
    (t'.object?.any fun n => (n.get key).isText s) =
      t.object?.any fun n => (n.get key).isText s := by
  have node := h.object?
  generalize t.object? = found, t'.object? = found' at node ⊢
  cases node with
  | none => rfl
  | some hn => exact (hn.get _ (.inr hk)).isText_eq s

theorem isProgram_eq (h : t.Matches ordered opened t') : t'.isProgram = t.isProgram :=
  h.member_isText "type" (by decide) "Program"

theorem isModule_eq (h : t.Matches ordered opened t') : t'.isModule = t.isModule :=
  h.member_isText "sourceType" (by decide) "module"

end Tree.Matches

end LexicalScope
