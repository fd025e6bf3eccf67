import LexicalScope.Tree.Basic

/-! # Labels

The labels of a tree in the order of its text. Labelling a value gives consecutive labels, so no
label occurs twice, and erasing the labels gives the value back.
-/

namespace LexicalScope

namespace Tree

mutual

def labels : Tree → List Label
  | atom _ => []
  | arr l vs => l :: labelsItems vs
  | obj l fs => l :: labelsFields fs

def labelsItems : List Tree → List Label
  | [] => []
  | v :: vs => v.labels ++ labelsItems vs

def labelsFields : List (String × Tree) → List Label
  | [] => []
  | (_, v) :: fs => v.labels ++ labelsFields fs

end

end Tree

namespace Json

mutual

theorem labels_labelFrom (next : Label) (v : Json) :
    ∃ n, (v.labelFrom next).1.labels = List.range' next n ∧ (v.labelFrom next).2 = next + n := by
  match v with
  | .atom a => exact ⟨0, by simp [labelFrom, Tree.labels]⟩
  | .arr vs =>
    obtain ⟨n, h₁, h₂⟩ := labels_labelItems (next + 1) vs
    refine ⟨n + 1, ?_, ?_⟩
    · simp [labelFrom, Tree.labels, h₁, List.range'_succ]
    · rw [labelFrom, h₂, Nat.add_assoc, Nat.add_comm 1]
  | .obj fs =>
    obtain ⟨n, h₁, h₂⟩ := labels_labelFields (next + 1) fs
    refine ⟨n + 1, ?_, ?_⟩
    · simp [labelFrom, Tree.labels, h₁, List.range'_succ]
    · rw [labelFrom, h₂, Nat.add_assoc, Nat.add_comm 1]

theorem labels_labelItems (next : Label) (vs : List Json) :
    ∃ n, Tree.labelsItems (labelItems next vs).1 = List.range' next n ∧
      (labelItems next vs).2 = next + n := by
  match vs with
  | [] => exact ⟨0, by simp [labelItems, Tree.labelsItems]⟩
  | v :: vs =>
    obtain ⟨m, h₁, h₂⟩ := labels_labelFrom next v
    obtain ⟨n, h₃, h₄⟩ := labels_labelItems (labelFrom next v).2 vs
    refine ⟨m + n, ?_, ?_⟩
    · rw [labelItems, Tree.labelsItems, h₁, h₃, h₂, List.range'_append_1]
    · rw [labelItems, h₄, h₂, Nat.add_assoc]

theorem labels_labelFields (next : Label) (fs : List (String × Json)) :
    ∃ n, Tree.labelsFields (labelFields next fs).1 = List.range' next n ∧
      (labelFields next fs).2 = next + n := by
  match fs with
  | [] => exact ⟨0, by simp [labelFields, Tree.labelsFields]⟩
  | (k, v) :: fs =>
    obtain ⟨m, h₁, h₂⟩ := labels_labelFrom next v
    obtain ⟨n, h₃, h₄⟩ := labels_labelFields (labelFrom next v).2 fs
    refine ⟨m + n, ?_, ?_⟩
    · rw [labelFields, Tree.labelsFields, h₁, h₃, h₂, List.range'_append_1]
    · rw [labelFields, h₄, h₂, Nat.add_assoc]

end

theorem nodup_labels_labelFrom (next : Label) (v : Json) :
    (v.labelFrom next).1.labels.Nodup := by
  obtain ⟨n, h, -⟩ := labels_labelFrom next v
  rw [h]
  exact List.nodup_range'

mutual

theorem erase_labelFrom (next : Label) (v : Json) : (v.labelFrom next).1.erase = v := by
  match v with
  | .atom a => simp [labelFrom, Tree.erase]
  | .arr vs => simp [labelFrom, Tree.erase, eraseItems_labelItems]
  | .obj fs => simp [labelFrom, Tree.erase, eraseFields_labelFields]

theorem eraseItems_labelItems (next : Label) (vs : List Json) :
    Tree.eraseItems (labelItems next vs).1 = vs := by
  match vs with
  | [] => simp [labelItems, Tree.eraseItems]
  | v :: vs => simp [labelItems, Tree.eraseItems, erase_labelFrom, eraseItems_labelItems]

theorem eraseFields_labelFields (next : Label) (fs : List (String × Json)) :
    Tree.eraseFields (labelFields next fs).1 = fs := by
  match fs with
  | [] => simp [labelFields, Tree.eraseFields]
  | (k, v) :: fs => simp [labelFields, Tree.eraseFields, erase_labelFrom, eraseFields_labelFields]

end

end Json

end LexicalScope
