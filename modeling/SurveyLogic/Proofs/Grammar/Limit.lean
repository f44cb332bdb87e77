import SurveyLogic.Proofs.Grammar.Bindings

/-!
# The limit on nesting

No tree is higher than `Expr.maxHeight`.  A sentence whose tree is not higher is accepted, unless an
empty array is read on the last level: the reader asks for room below the opening bracket before it
looks for the closing one.  With a higher tree, or such an array, the answer is that the nesting is
too deep.  `Expr.limit_exact` says this of conditions and of bindings.

What stands on the left of an operator is read before the operator is seen, on the level of the
whole.  So an empty array may stand on the last level there, and nowhere else.
-/

namespace SurveyLogic

namespace Expr

/-! ## Where empty arrays are read -/

mutual

/-- The levels on which the empty arrays of a tree are read; the tree itself is on the first. -/
def emptyArrayLevels : Expr → List Nat
  | number _ _ | text _ _ | truth _ _ | name _ _ => []
  | member object _ _ => object.emptyArrayLevels
  | array elements _ =>
    if elements.isEmpty then [1] else (emptyArrayLevelsInAny elements).map (· + 1)
  | unary _ operand _ => operand.emptyArrayLevels.map (· + 1)
  | binary _ left right _ => left.emptyArrayLevels ++ right.emptyArrayLevels.map (· + 1)
  | logical _ left right _ => left.emptyArrayLevels ++ right.emptyArrayLevels.map (· + 1)
  | group inner _ => inner.emptyArrayLevels.map (· + 1)
  | assign target value _ => (target.emptyArrayLevels ++ value.emptyArrayLevels).map (· + 1)
  | between subject lower upper _ =>
    subject.emptyArrayLevels ++ (lower.emptyArrayLevels ++ upper.emptyArrayLevels).map (· + 1)

def emptyArrayLevelsInAny : List Expr → List Nat
  | [] => []
  | tree :: trees => tree.emptyArrayLevels ++ emptyArrayLevelsInAny trees

end

/-- A tree of a height that leaves room below each of its empty arrays. -/
def FitsInto (room : Nat) (tree : Expr) : Prop :=
  tree.height ≤ room ∧ ∀ level ∈ tree.emptyArrayLevels, level < room

/-! ## The room that is asked for -/

/-- The room that is needed is given by a height and by levels below which there has to be room. -/
def Demands (needed height : Nat) (levels : List Nat) : Prop :=
  ∀ room, needed ≤ room ↔ height ≤ room ∧ ∀ level ∈ levels, level < room

namespace Demands

variable {needed needed' height height' : Nat} {levels levels' : List Nat}

theorem leaf : Demands 1 1 [] := by
  simp [Demands]

/-- One level further down. -/
theorem below (h : Demands needed height levels) :
    Demands (needed + 1) (height + 1) (levels.map (· + 1)) := by
  intro room
  cases room with
  | zero => simp
  | succ room => simpa using h room

/-- One beside the other, on the same level. -/
theorem both (h : Demands needed height levels) (h' : Demands needed' height' levels') :
    Demands (max needed needed') (max height height') (levels ++ levels') := by
  intro room
  rw [Nat.max_le, Nat.max_le, h room, h' room, List.forall_mem_append]
  exact and_and_and_comm

/-- A node above a part that was read on the node's own level. -/
theorem above (h : Demands needed height levels) :
    Demands (max needed (height + 1)) (height + 1) levels := by
  intro room
  rw [Nat.max_le, h room]
  constructor
  · rintro ⟨⟨-, hlevels⟩, hheight⟩
    exact ⟨hheight, hlevels⟩
  · rintro ⟨hheight, hlevels⟩
    exact ⟨⟨Nat.le_of_succ_le hheight, hlevels⟩, hheight⟩

/-- An operator: the left operand was read on its own level, the right one further down. -/
theorem operands (h : Demands needed height levels) (h' : Demands needed' height' levels') :
    Demands (max needed (max height needed' + 1)) (max height height' + 1)
      (levels ++ levels'.map (· + 1)) := by
  have hneeded : max (max needed (height + 1)) (needed' + 1) =
      max needed (max height needed' + 1) := by omega
  have hheight : max (height + 1) (height' + 1) = max height height' + 1 := by omega
  have hboth := h.above.both h'.below
  rwa [hneeded, hheight] at hboth

end Demands

mutual

/-- The room that reading a tree takes is its height, with a level more below empty arrays. -/
theorem demands : ∀ tree : Expr, Demands tree.roomNeeded tree.height tree.emptyArrayLevels
  | number _ _ | text _ _ | truth _ _ | name _ _ => .leaf
  | member object _ _ => (demands object).above
  | array [] _ => by
    intro room
    simp [roomNeeded, roomNeededByAll, height, heightOfAll, emptyArrayLevels]
    omega
  | array (element :: elements) _ => by
    have hpos := element.roomNeeded_pos
    have hone : max 1 (roomNeededByAll (element :: elements)) =
        roomNeededByAll (element :: elements) := by
      simp only [roomNeededByAll]
      omega
    rw [roomNeeded, hone]
    exact (demandsOfAll (element :: elements)).below
  | unary _ operand _ | group operand _ => (demands operand).below
  | binary _ left right _ | logical _ left right _ => (demands left).operands (demands right)
  | assign target value _ => ((demands target).both (demands value)).below
  | between subject lower upper _ =>
    (demands subject).operands ((demands lower).both (demands upper))

theorem demandsOfAll : ∀ trees : List Expr,
    Demands (roomNeededByAll trees) (heightOfAll trees) (emptyArrayLevelsInAny trees)
  | [] => by
    simp [Demands, roomNeededByAll, heightOfAll, emptyArrayLevelsInAny]
  | tree :: trees => (demands tree).both (demandsOfAll trees)

end

/-! ## The limit -/

theorem fitsInto_iff {tree : Expr} {room : Nat} :
    tree.FitsInto room ↔ tree.roomNeeded ≤ room :=
  (demands tree room).symm

/-- Only a tree of the greatest height with an empty array in it may fail to fit. -/
theorem fitsInto_of_height {tree : Expr} {room : Nat}
    (h : tree.height < room ∨ tree.height = room ∧ tree.NoEmptyArray) : tree.FitsInto room := by
  rw [fitsInto_iff]
  rcases h with hlt | ⟨rfl, hnone⟩
  · exact Nat.le_trans tree.roomNeeded_le hlt
  · exact Nat.le_of_eq (tree.roomNeeded_eq_height hnone)

/-- **The limit on nesting is exact, but for empty arrays.**  Whatever is accepted is at most of the
greatest height.  A condition or a binding is accepted with its tree if that fits, which means that
it is not higher and that none of its empty arrays is read on the last level; else the answer is
that the nesting is too deep. -/
theorem limit_exact (tokens : List Lexeme) :
    (∀ tree, parse tokens = .ok tree ∨ parseBinding tokens = .ok tree →
      tree.height ≤ maxHeight) ∧
    (∀ tree, Sentence tokens tree →
      (tree.FitsInto maxHeight → parse tokens = .ok tree) ∧
      (¬ tree.FitsInto maxHeight →
        ∃ position, parse tokens = .error (.nestingTooDeep position))) ∧
    (∀ tree, BindingSentence tokens tree →
      (tree.FitsInto maxHeight → parseBinding tokens = .ok tree) ∧
      (¬ tree.FitsInto maxHeight →
        ∃ position, parseBinding tokens = .error (.nestingTooDeep position))) ∧
    (∀ tree : Expr, tree.height < maxHeight ∨ tree.height = maxHeight ∧ tree.NoEmptyArray →
      tree.FitsInto maxHeight) := by
  simp only [fitsInto_iff, Nat.not_le]
  refine ⟨fun tree h => ?_, fun tree h => ⟨?_, ?_⟩, fun tree h => ⟨?_, ?_⟩, fun tree h => ?_⟩
  · have hroom : tree.roomNeeded ≤ maxHeight := by
      rcases h with hcondition | hbinding
      · exact (sentence_of_parse hcondition).2
      · exact (bindingSentence_of_parseBinding hbinding).2
    exact Nat.le_trans tree.height_le_roomNeeded hroom
  · exact parse_of_sentence h
  · exact parseWithin_of_lt h (by decide)
  · exact h.parseBinding_of_le
  · exact h.parseBinding_of_lt
  · exact fitsInto_iff.mp (fitsInto_of_height h)

/-- The tokens of `[]` in pairs of parentheses, from an offset on. -/
def nestedTokens : (depth start : Nat) → List Lexeme
  | 0, start => [⟨.symbol .openBracket, start⟩, ⟨.symbol .closeBracket, start + 1⟩]
  | depth + 1, start => ⟨.symbol .openParen, start⟩ :: nestedTokens depth (start + 1) ++
      [⟨.symbol .closeParen, start + 2 * depth + 3⟩]

def nestedTree : (depth start : Nat) → Expr
  | 0, start => .array [] start
  | depth + 1, start => .group (nestedTree depth (start + 1)) start

theorem sentence_nested (depth start : Nat) :
    Sentence (nestedTokens depth start) (nestedTree depth start) := by
  induction depth generalizing start with
  | zero => exact (Derives.emptyArray start (start + 1)).of_within (Level.within_or _)
  | succ depth ih => exact (Derives.group start _ (ih (start + 1))).of_within (Level.within_or _)

/-- In 63 pairs of parentheses the tree of `[]` has the greatest height and is refused. -/
theorem limit_exact_nested :
    Sentence (nestedTokens 63 0) (nestedTree 63 0) ∧
    (nestedTree 63 0).height = maxHeight ∧ (nestedTree 63 0).emptyArrayLevels = [maxHeight] ∧
    (∃ position, parse (nestedTokens 63 0) = .error (.nestingTooDeep position)) ∧
    parse (nestedTokens 62 0) = .ok (nestedTree 62 0) ∧
    ∃ position, parseBinding (⟨.name "a", 0⟩ :: ⟨.symbol .assign, 2⟩ :: nestedTokens 62 4) =
      .error (.nestingTooDeep position) := by
  have hheight : (nestedTree 63 0).height = maxHeight := by decide
  have hlevels : (nestedTree 63 0).emptyArrayLevels = [maxHeight] := by decide
  have hfull : ¬ (nestedTree 63 0).FitsInto maxHeight := by
    simp [FitsInto, hlevels]
  have hfits : (nestedTree 62 0).FitsInto maxHeight := fitsInto_of_height (Or.inl (by decide))
  have hrefused := (limit_exact (nestedTokens 63 0)).2.1 _ (sentence_nested 63 0)
  have haccepted := (limit_exact (nestedTokens 62 0)).2.1 _ (sentence_nested 62 0)
  -- the value of an assignment is one level further down
  have hbinding : BindingSentence (⟨.name "a", 0⟩ :: ⟨.symbol .assign, 2⟩ :: nestedTokens 62 4)
      (.assign (.name "a" 0) (nestedTree 62 4) 2) := .assign 2 (.name "a" 0) (sentence_nested 62 4)
  have hlevels' : (assign (.name "a" 0) (nestedTree 62 4) 2).emptyArrayLevels = [maxHeight] := by
    decide
  have hfull' : ¬ (assign (.name "a" 0) (nestedTree 62 4) 2).FitsInto maxHeight := by
    simp [FitsInto, hlevels']
  have hrefused' := (limit_exact _).2.2.1 _ hbinding
  exact ⟨sentence_nested 63 0, hheight, hlevels, hrefused.2 hfull, haccepted.1 hfits,
    hrefused'.2 hfull'⟩

end Expr

end SurveyLogic
