import DesignTokens.Themes

/-!
Equality of documents can be decided.

Values and nodes are trees with lists of trees in them, so equality is decided by a Boolean function
that recurses over a tree and its lists together, and the function is then shown to be equality.
-/

namespace DesignTokens

deriving instance DecidableEq for OrderedMap
deriving instance DecidableEq for Themes

namespace Yaml

deriving instance DecidableEq for Number

namespace Value

mutual

/-- Whether two values are equal, entry by entry. -/
def equals : Value → Value → Bool
  | .null, .null => true
  | .bool a, .bool b => a == b
  | .number m, .number n => decide (m = n)
  | .string s, .string t => s == t
  | .sequence xs, .sequence ys => equalsItems xs ys
  | .mapping xs, .mapping ys => equalsEntries xs ys
  | .tagged s v, .tagged t w => s == t && equals v w
  | _, _ => false

def equalsItems : List Value → List Value → Bool
  | [], [] => true
  | x :: xs, y :: ys => equals x y && equalsItems xs ys
  | _, _ => false

def equalsEntries : List (Value × Value) → List (Value × Value) → Bool
  | [], [] => true
  | (k, v) :: xs, (l, w) :: ys => equals k l && equals v w && equalsEntries xs ys
  | _, _ => false

end

mutual

theorem equals_iff (a b : Value) : equals a b = true ↔ a = b := by
  cases a <;> cases b <;> simp only [equals, beq_iff_eq, decide_eq_true_eq, Bool.and_eq_true,
    reduceCtorEq, Bool.false_eq_true, bool.injEq, number.injEq, string.injEq, sequence.injEq,
    mapping.injEq, tagged.injEq]
  · exact equalsItems_iff _ _
  · exact equalsEntries_iff _ _
  · rw [equals_iff]

theorem equalsItems_iff (xs ys : List Value) : equalsItems xs ys = true ↔ xs = ys := by
  match xs, ys with
  | [], [] => simp [equalsItems]
  | [], y :: ys => simp [equalsItems]
  | x :: xs, [] => simp [equalsItems]
  | x :: xs, y :: ys =>
      rw [equalsItems, Bool.and_eq_true, equals_iff x y, equalsItems_iff xs ys, List.cons.injEq]

theorem equalsEntries_iff (xs ys : List (Value × Value)) : equalsEntries xs ys = true ↔ xs = ys := by
  match xs, ys with
  | [], [] => simp [equalsEntries]
  | [], y :: ys => simp [equalsEntries]
  | x :: xs, [] => simp [equalsEntries]
  | (k, v) :: xs, (l, w) :: ys =>
      rw [equalsEntries, Bool.and_eq_true, Bool.and_eq_true, equals_iff k l, equals_iff v w,
        equalsEntries_iff xs ys, List.cons.injEq, Prod.mk.injEq]

end

instance : DecidableEq Value := fun a b =>
  decidable_of_iff _ (equals_iff a b)

end Value
end Yaml

deriving instance DecidableEq for Item

namespace Node

mutual

def equals : Node → Node → Bool
  | .collection own members, .collection own' members' => own == own' && equalsMembers members members'
  | .item content, .item content' => decide (content = content')
  | _, _ => false

def equalsMembers : List Member → List Member → Bool
  | [], [] => true
  | .platforms :: ms, .platforms :: ns => equalsMembers ms ns
  | .child k n :: ms, .child l o :: ns => k == l && equals n o && equalsMembers ms ns
  | _, _ => false

end

mutual

theorem equals_iff (a b : Node) : equals a b = true ↔ a = b := by
  cases a <;> cases b <;> simp only [equals, beq_iff_eq, decide_eq_true_eq, Bool.and_eq_true,
    reduceCtorEq, Bool.false_eq_true, collection.injEq, item.injEq]
  rw [equalsMembers_iff]

theorem equalsMembers_iff (xs ys : List Member) : equalsMembers xs ys = true ↔ xs = ys := by
  match xs, ys with
  | [], [] => simp [equalsMembers]
  | [], y :: ys => simp [equalsMembers]
  | x :: xs, [] => simp [equalsMembers]
  | .platforms :: xs, .platforms :: ys =>
      rw [equalsMembers, equalsMembers_iff xs ys, List.cons.injEq, eq_self, true_and]
  | .platforms :: xs, .child l o :: ys => simp [equalsMembers]
  | .child k n :: xs, .platforms :: ys => simp [equalsMembers]
  | .child k n :: xs, .child l o :: ys =>
      rw [equalsMembers, Bool.and_eq_true, Bool.and_eq_true, beq_iff_eq, equals_iff n o,
        equalsMembers_iff xs ys, List.cons.injEq, Member.child.injEq]

end

instance : DecidableEq Node := fun a b =>
  decidable_of_iff _ (equals_iff a b)

end Node

deriving instance DecidableEq for Document

end DesignTokens
