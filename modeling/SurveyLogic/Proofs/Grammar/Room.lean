import SurveyLogic.Expr.Shape

/-!
# The room that reading a tree takes

A tree is read with some room, and the room it takes is almost its height.  Only an empty array asks
for one level below its bracket that it has no use for; and what stands on the left of an operator
is read with the room of the whole, before the operator is seen.  So `Expr.roomNeeded` lies between
the height and one more than that (`Expr.height_le_roomNeeded`, `Expr.roomNeeded_le`), and it is the
height where no array is empty (`Expr.roomNeeded_eq_height`).
-/

namespace SurveyLogic

namespace Expr

mutual

/-- The least room in which a tree can be read. -/
def roomNeeded : Expr → Nat
  | number _ _ | text _ _ | truth _ _ | name _ _ => 1
  | member object _ _ => max object.roomNeeded (object.height + 1)
  | array elements _ => max 1 (roomNeededByAll elements) + 1
  | unary _ operand _ => operand.roomNeeded + 1
  | binary _ left right _ => max left.roomNeeded (max left.height right.roomNeeded + 1)
  | logical _ left right _ => max left.roomNeeded (max left.height right.roomNeeded + 1)
  | group inner _ => inner.roomNeeded + 1
  | assign target value _ => max target.roomNeeded value.roomNeeded + 1
  | between subject lower upper _ =>
    max subject.roomNeeded (max subject.height (max lower.roomNeeded upper.roomNeeded) + 1)

def roomNeededByAll : List Expr → Nat
  | [] => 0
  | tree :: trees => max tree.roomNeeded (roomNeededByAll trees)

end

mutual

/-- No array in the tree is empty. -/
def NoEmptyArray : Expr → Prop
  | number _ _ | text _ _ | truth _ _ | name _ _ => True
  | member object _ _ => object.NoEmptyArray
  | array elements _ => elements ≠ [] ∧ NoEmptyArrayInAny elements
  | unary _ operand _ => operand.NoEmptyArray
  | binary _ left right _ => left.NoEmptyArray ∧ right.NoEmptyArray
  | logical _ left right _ => left.NoEmptyArray ∧ right.NoEmptyArray
  | group inner _ => inner.NoEmptyArray
  | assign target value _ => target.NoEmptyArray ∧ value.NoEmptyArray
  | between subject lower upper _ =>
    subject.NoEmptyArray ∧ lower.NoEmptyArray ∧ upper.NoEmptyArray

def NoEmptyArrayInAny : List Expr → Prop
  | [] => True
  | tree :: trees => tree.NoEmptyArray ∧ NoEmptyArrayInAny trees

end

mutual

theorem height_le_roomNeeded : ∀ tree : Expr, tree.height ≤ tree.roomNeeded
  | number _ _ | text _ _ | truth _ _ | name _ _ => Nat.le_refl 1
  | member object _ _ => by
    simp only [height, roomNeeded]
    omega
  | array elements _ => by
    have := heightOfAll_le_roomNeededByAll elements
    simp only [height, roomNeeded]
    omega
  | unary _ operand _ | group operand _ => by
    have := height_le_roomNeeded operand
    simp only [height, roomNeeded]
    omega
  | binary _ left right _ | logical _ left right _ => by
    have := height_le_roomNeeded right
    simp only [height, roomNeeded]
    omega
  | assign target value _ => by
    have := height_le_roomNeeded target
    have := height_le_roomNeeded value
    simp only [height, roomNeeded]
    omega
  | between subject lower upper _ => by
    have := height_le_roomNeeded lower
    have := height_le_roomNeeded upper
    simp only [height, roomNeeded]
    omega

theorem heightOfAll_le_roomNeededByAll :
    ∀ trees : List Expr, heightOfAll trees ≤ roomNeededByAll trees
  | [] => Nat.le_refl 0
  | tree :: trees => by
    have := height_le_roomNeeded tree
    have := heightOfAll_le_roomNeededByAll trees
    simp only [heightOfAll, roomNeededByAll]
    omega

end

mutual

theorem roomNeeded_le : ∀ tree : Expr, tree.roomNeeded ≤ tree.height + 1
  | number _ _ | text _ _ | truth _ _ | name _ _ => Nat.le_succ 1
  | member object _ _ => by
    have := roomNeeded_le object
    simp only [height, roomNeeded]
    omega
  | array elements _ => by
    have := roomNeededByAll_le elements
    simp only [height, roomNeeded]
    omega
  | unary _ operand _ | group operand _ => by
    have := roomNeeded_le operand
    simp only [height, roomNeeded]
    omega
  | binary _ left right _ | logical _ left right _ | assign left right _ => by
    have := roomNeeded_le left
    have := roomNeeded_le right
    simp only [height, roomNeeded]
    omega
  | between subject lower upper _ => by
    have := roomNeeded_le subject
    have := roomNeeded_le lower
    have := roomNeeded_le upper
    simp only [height, roomNeeded]
    omega

theorem roomNeededByAll_le :
    ∀ trees : List Expr, roomNeededByAll trees ≤ heightOfAll trees + 1
  | [] => Nat.zero_le _
  | tree :: trees => by
    have := roomNeeded_le tree
    have := roomNeededByAll_le trees
    simp only [heightOfAll, roomNeededByAll]
    omega

end

mutual

theorem roomNeeded_eq_height : ∀ tree : Expr, tree.NoEmptyArray → tree.roomNeeded = tree.height
  | number _ _, _ | text _ _, _ | truth _ _, _ | name _ _, _ => rfl
  | member object _ _, h => by
    have := roomNeeded_eq_height object h
    simp only [height, roomNeeded]
    omega
  | array [] _, h => absurd rfl h.1
  | array (element :: elements) _, h => by
    have hall := roomNeededByAll_eq_heightOfAll (element :: elements) h.2
    -- with an element below the bracket, the extra level is there anyway
    have hpos := height_pos element
    simp only [height, roomNeeded, hall]
    simp only [heightOfAll]
    omega
  | unary _ operand _, h | group operand _, h => by
    simp only [height, roomNeeded, roomNeeded_eq_height operand h]
  | binary _ left right _, h | logical _ left right _, h | assign left right _, h => by
    have := roomNeeded_eq_height left h.1
    have := roomNeeded_eq_height right h.2
    simp only [height, roomNeeded]
    omega
  | between subject lower upper _, h => by
    have := roomNeeded_eq_height subject h.1
    have := roomNeeded_eq_height lower h.2.1
    have := roomNeeded_eq_height upper h.2.2
    simp only [height, roomNeeded]
    omega

theorem roomNeededByAll_eq_heightOfAll :
    ∀ trees : List Expr, NoEmptyArrayInAny trees → roomNeededByAll trees = heightOfAll trees
  | [], _ => rfl
  | tree :: trees, h => by
    simp only [heightOfAll, roomNeededByAll, roomNeeded_eq_height tree h.1,
      roomNeededByAll_eq_heightOfAll trees h.2]

end

theorem roomNeeded_pos (tree : Expr) : 0 < tree.roomNeeded :=
  Nat.lt_of_lt_of_le tree.height_pos tree.height_le_roomNeeded

end Expr

end SurveyLogic
