import SurveyLogic.Proofs.Grammar.Link
import SurveyLogic.Proofs.Grammar.Room
import SurveyLogic.Proofs.Grammar.Steps

/-!
# Every phrase is read

A phrase of the grammar is read with its tree, in any room that its tree needs and in front of
anything that does not go on with it: `Derives.readBack`.  The induction is on the derivation.

A chain is derived with its last link outermost but read from its first operand on.  So of a phrase
of a chain level the induction says more, namely that reading it leaves the loop over the links with
its tree in hand, wherever the next link may stand (`ReadBack.grows`).
-/

namespace SurveyLogic

/-! ## What ends a phrase -/

/-- What stands behind a phrase does not go on with it: there is no link up to the level, and no
property name. -/
structure Ended (level : Level) (rest : List Lexeme) : Prop where
  unlinked : Unlinked level rest
  undotted : ∀ next ∈ rest.head?, next.token ≠ .symbol .dot

theorem Ended.mono {inner outer : Level} {rest : List Lexeme} (h : Ended outer rest)
    (hwithin : inner.Within outer) : Ended inner rest :=
  ⟨h.unlinked.mono hwithin, h.undotted⟩

/-- Nothing stands behind the last phrase. -/
theorem ended_nil (level : Level) : Ended level [] :=
  ⟨unlinked_nil level, by simp⟩

theorem ended_cons {level : Level} {token : Token} {position : Nat} {rest : List Lexeme}
    (hunlinked : Unlinked level (⟨token, position⟩ :: rest)) (hdot : token ≠ .symbol .dot) :
    Ended level (⟨token, position⟩ :: rest) :=
  ⟨hunlinked, by simpa using hdot⟩

theorem LoneIs.append {sign operand : List Lexeme} (h : LoneIs sign operand)
    (hoperand : operand ≠ []) (rest : List Lexeme) : LoneIs sign (operand ++ rest) := by
  intro hsign next hnext
  rw [List.head?_append] at hnext
  obtain ⟨first, others, rfl⟩ := List.exists_cons_of_ne_nil hoperand
  exact h hsign next hnext

/-- The tokens of an operator end its left operand. -/
theorem ended_spelled {operator : BinaryOperator} {sign : Lexeme} {more rest : List Lexeme}
    (hspelled : (sign :: more).map (·.token) ∈ operator.spellings)
    (hlone : LoneIs (sign :: more) rest) :
    Ended operator.level.operand (sign :: more ++ rest) := by
  refine ⟨Unlinked.spelled hspelled hlone, ?_⟩
  intro next hnext
  obtain rfl : sign = next := by simpa using hnext
  rcases BinaryOperator.spelled_cases hspelled with
    ⟨token, position, heq, htoken⟩ | ⟨rfl, position, heq⟩ | ⟨rfl, position, atNot, heq⟩
  · obtain ⟨rfl, -⟩ := List.cons.inj heq
    rintro rfl
    simp [Token.operator?] at htoken
  · obtain ⟨rfl, -⟩ := List.cons.inj heq
    simp
  · obtain ⟨rfl, -⟩ := List.cons.inj heq
    simp

namespace Reader

/-! ## What is shown of a phrase -/

/-- The answer of a reader: a tree, and what is left. -/
def Answers {whole : List Lexeme} (answer : Except SyntaxError (Reading Expr whole)) (tree : Expr)
    (rest : List Lexeme) : Prop :=
  ∃ shorter, answer = .ok ⟨tree, rest, shorter⟩

/-- A phrase is read with its tree wherever it ends.  On a level of chains a link may follow: the
loop over the links goes on with the tree. -/
structure ReadBack (level : Level) (consumed : List Lexeme) (tree : Expr) : Prop where
  full : ∀ room, tree.roomNeeded ≤ room → ∀ whole rest, whole = consumed ++ rest →
    Ended level rest → Answers (withRoom room level whole) tree rest
  grows : level ≠ .unary → level ≠ .power → ∀ room, tree.roomNeeded ≤ room → ∀ whole rest,
    whole = consumed ++ rest → Ended level.operand rest →
    ∃ shorter, withRoom room level whole = links level room (below room) ⟨tree, rest, shorter⟩

/-- Elements are read up to their closing bracket. -/
def AllReadBack (consumed : List Lexeme) (trees : List Expr) : Prop :=
  ∀ room, Expr.roomNeededByAll trees ≤ room → ∀ whole rest close,
    whole = consumed ++ ⟨.symbol .closeBracket, close⟩ :: rest →
    ∃ shorter, elements (withRoom room .or) whole = .ok ⟨trees, rest, shorter⟩

variable {room : Nat} {deeper : Option (Level → Reader Expr)} {level : Level}
  {consumed : List Lexeme} {tree : Expr}

/-- On the tightest level there are no links. -/
theorem ReadBack.of_unary
    (h : ∀ room, tree.roomNeeded ≤ room → ∀ whole rest, whole = consumed ++ rest →
      Ended .unary rest → Answers (unary room (below room) whole) tree rest) :
    ReadBack .unary consumed tree := by
  refine ⟨fun room hroom whole rest hwhole hended => ?_, fun hunary => absurd rfl hunary⟩
  rw [withRoom_eq, ofLevel_unary]
  exact h room hroom whole rest hwhole hended

/-- Where a phrase of a chain ends, the loop over its links ends. -/
theorem ReadBack.of_grows
    (h : ∀ room, tree.roomNeeded ≤ room → ∀ whole rest, whole = consumed ++ rest →
      Ended level.operand rest →
      ∃ shorter, withRoom room level whole = links level room (below room) ⟨tree, rest, shorter⟩) :
    ReadBack level consumed tree := by
  refine ⟨fun room hroom whole rest hwhole hended => ?_, fun _ _ => h⟩
  obtain ⟨shorter, hread⟩ := h room hroom whole rest hwhole (hended.mono level.operand_within)
  refine ⟨shorter, ?_⟩
  rw [hread]
  exact links_of_none (hended.unlinked level level.within_refl)

/-! ## Member chains -/

theorem property?_of_undotted {rest : List Lexeme}
    (h : ∀ next ∈ rest.head?, next.token ≠ .symbol .dot) : property? rest = .ok none := by
  unfold property?
  split
  · exact absurd rfl (h _ rfl)
  · exact absurd rfl (h _ rfl)
  · exact absurd rfl (h _ rfl)
  · rfl

theorem fit_of_le {position : Nat} (h : tree.height ≤ room) :
    fit room tree position = .ok tree :=
  if_pos h

/-- The loop over the property names takes all that belong to the chain. -/
theorem members_grow (h : DerivesMember consumed tree) :
    ∃ word position more, consumed = ⟨.name word, position⟩ :: more ∧
      ∀ room, tree.height ≤ room → ∀ (whole rest : List Lexeme) (start : Reading Expr whole),
        start.result = .name word position → start.rest = more ++ rest →
        ∃ shorter, members room start = members room ⟨tree, rest, shorter⟩ := by
  induction h with
  | name word position =>
      refine ⟨word, position, [], rfl, ?_⟩
      intro room _ whole rest start hresult hrest
      obtain ⟨result, _, shorter⟩ := start
      obtain rfl : result = _ := hresult
      obtain rfl : _ = rest := hrest
      exact ⟨shorter, rfl⟩
  | @property tokens object property position after _ ih =>
      -- the loop comes to the last dot with the chain before it, and takes one more turn
      obtain ⟨word, start, more, rfl, hmembers⟩ := ih
      refine ⟨word, start, _, rfl, ?_⟩
      intro room hroom whole rest first hresult hrest
      have hobject : object.height ≤ room := by
        simp only [Expr.height] at hroom
        omega
      obtain ⟨shorter, hread⟩ := hmembers room hobject whole
        (⟨.symbol .dot, position⟩ :: ⟨.name property, after⟩ :: rest) first hresult
        (by simpa using hrest)
      have hproperty : property? (⟨.symbol .dot, position⟩ :: ⟨.name property, after⟩ :: rest) =
          .ok (some (property, position, rest)) := rfl
      refine ⟨Nat.lt_trans (length_lt_of_property? hproperty) shorter, ?_⟩
      rw [hread, members_of_some hproperty, fit_of_le hroom]
      rfl

theorem readBack_member (h : DerivesMember consumed tree) : ReadBack .unary consumed tree := by
  obtain ⟨word, position, more, rfl, hmembers⟩ := members_grow h
  refine .of_unary fun room hroom whole rest hwhole hended => ?_
  subst hwhole
  have hheight : tree.height ≤ room := Nat.le_trans tree.height_le_roomNeeded hroom
  obtain ⟨shorter, hread⟩ := hmembers room hheight (⟨.name word, position⟩ :: more ++ rest) rest
    (.first (.name word position) _ _) rfl rfl
  refine ⟨shorter, ?_⟩
  have hstart : unary room (below room) (⟨.name word, position⟩ :: more ++ rest) =
      members room (.first (.name word position) _ (more ++ rest)) := rfl
  rw [hstart]
  exact hread.trans (members_of_none (property?_of_undotted hended.undotted))

/-! ## Literals, groups and arrays -/

/-- A phrase that is one token. -/
theorem readBack_single {token : Token} {position : Nat}
    (h : ∀ room rest, Answers (unary room (below room) (⟨token, position⟩ :: rest)) tree rest) :
    ReadBack .unary [⟨token, position⟩] tree := by
  refine .of_unary fun room _ whole rest hwhole _ => ?_
  obtain rfl : whole = ⟨token, position⟩ :: rest := hwhole
  exact h room rest

theorem expect_self (token : Token) (position : Nat) (rest : List Lexeme) :
    expect token (⟨token, position⟩ :: rest) = .ok (.first () _ rest) :=
  if_pos rfl

theorem ended_closing {token : Token} (level : Level)
    (htoken : token = .symbol .closeParen ∨ token = .symbol .closeBracket ∨
      token = .symbol .comma) (position : Nat) (rest : List Lexeme) :
    Ended level (⟨token, position⟩ :: rest) := by
  refine ended_cons (unlinked_closing level htoken position rest) ?_
  rcases htoken with rfl | rfl | rfl <;> decide

theorem readBack_group {inner : Expr} (h : ReadBack .or consumed inner) (position close : Nat) :
    ReadBack .unary (⟨.symbol .openParen, position⟩ :: consumed ++ [⟨.symbol .closeParen, close⟩])
      (.group inner position) := by
  refine .of_unary fun room hroom whole rest hwhole _ => ?_
  simp only [Expr.roomNeeded] at hroom
  have hpos := inner.roomNeeded_pos
  obtain rfl : whole =
      ⟨.symbol .openParen, position⟩ :: (consumed ++ ⟨.symbol .closeParen, close⟩ :: rest) := by
    simpa using hwhole
  obtain ⟨shorter, hinner⟩ := h.full (room - 1) (by omega) _ _ rfl
    (ended_closing .or (Or.inl rfl) close rest)
  have hread : unary room (below room) (⟨.symbol .openParen, position⟩ ::
      (consumed ++ ⟨.symbol .closeParen, close⟩ :: rest)) =
      (do
        let inner ← descend (below room) .or position
          (consumed ++ ⟨.symbol .closeParen, close⟩ :: rest)
        let close ← expect (.symbol .closeParen) inner.rest
        .ok ⟨.group inner.result position, close.rest,
          Nat.lt_succ_of_lt (Nat.lt_trans close.shorter inner.shorter)⟩) := rfl
  rw [hread, descend_below (by omega), hinner]
  simp only [ok_bind, expect_self]
  exact ⟨_, rfl⟩

theorem elements_of_close {read : Reader Expr} {tokens rest : List Lexeme} {close : Nat}
    (h : Answers (read tokens) tree (⟨.symbol .closeBracket, close⟩ :: rest)) :
    ∃ shorter, elements read tokens = .ok ⟨[tree], rest, shorter⟩ := by
  obtain ⟨shorter, hread⟩ := h
  refine ⟨Nat.lt_trans (Nat.lt_succ_self _) shorter, ?_⟩
  unfold elements
  rw [hread]
  rfl

theorem elements_of_comma {read : Reader Expr} {tokens others rest : List Lexeme} {position : Nat}
    {trees : List Expr} (h : Answers (read tokens) tree (⟨.symbol .comma, position⟩ :: others))
    (hothers : ∃ shorter, elements read others = .ok ⟨trees, rest, shorter⟩) :
    ∃ shorter, elements read tokens = .ok ⟨tree :: trees, rest, shorter⟩ := by
  obtain ⟨shorter, hread⟩ := h
  obtain ⟨shorter', hothers⟩ := hothers
  refine ⟨Nat.lt_trans shorter' (Nat.lt_trans (Nat.lt_succ_self _) shorter), ?_⟩
  unfold elements
  rw [hread, ok_bind]
  dsimp only
  rw [hothers]
  rfl

theorem allReadBack_one (h : ReadBack .or consumed tree) : AllReadBack consumed [tree] := by
  intro room hroom whole rest close hwhole
  simp only [Expr.roomNeededByAll] at hroom
  exact elements_of_close
    (h.full room (by omega) whole _ hwhole (ended_closing .or (Or.inr (Or.inl rfl)) close rest))

theorem allReadBack_more {others : List Lexeme} {trees : List Expr} (position : Nat)
    (h : ReadBack .or consumed tree) (hothers : AllReadBack others trees) :
    AllReadBack (consumed ++ ⟨.symbol .comma, position⟩ :: others) (tree :: trees) := by
  intro room hroom whole rest close hwhole
  simp only [Expr.roomNeededByAll] at hroom
  have hrest := hothers room (by omega) _ rest close rfl
  have hsplit : whole = consumed ++ ⟨.symbol .comma, position⟩ ::
      (others ++ ⟨.symbol .closeBracket, close⟩ :: rest) := by
    simpa using hwhole
  have hfirst := h.full room (by omega) whole _ hsplit
    (ended_closing .or (Or.inr (Or.inr rfl)) position _)
  exact elements_of_comma hfirst hrest

/-- The array without elements needs room below its bracket, too. -/
theorem readBack_emptyArray (position close : Nat) :
    ReadBack .unary [⟨.symbol .openBracket, position⟩, ⟨.symbol .closeBracket, close⟩]
      (.array [] position) := by
  refine .of_unary fun room hroom whole rest hwhole _ => ?_
  simp only [Expr.roomNeeded, Expr.roomNeededByAll] at hroom
  obtain rfl : whole =
      ⟨.symbol .openBracket, position⟩ :: ⟨.symbol .closeBracket, close⟩ :: rest := hwhole
  have hbelow : below room = some (withRoom (room - 1)) := if_pos (by omega)
  rw [hbelow]
  exact ⟨_, rfl⟩

theorem readBack_array {elements : List Expr} (position close : Nat)
    (h : AllReadBack consumed elements)
    (hconsumed : ∃ first more, consumed = first :: more ∧ first.token.opens = true) :
    ReadBack .unary
      (⟨.symbol .openBracket, position⟩ :: consumed ++ [⟨.symbol .closeBracket, close⟩])
      (.array elements position) := by
  refine .of_unary fun room hroom whole rest hwhole _ => ?_
  simp only [Expr.roomNeeded] at hroom
  obtain rfl : whole =
      ⟨.symbol .openBracket, position⟩ :: (consumed ++ ⟨.symbol .closeBracket, close⟩ :: rest) := by
    simpa using hwhole
  obtain ⟨shorter, hinner⟩ := h (room - 1) (by omega) _ rest close rfl
  have hbelow : below room = some (withRoom (room - 1)) := if_pos (by omega)
  -- no element starts with the closing bracket, so the array is not taken for an empty one
  have hopen : ∀ atClose after, consumed ++ ⟨.symbol .closeBracket, close⟩ :: rest ≠
      ⟨.symbol .closeBracket, atClose⟩ :: after := by
    intro atClose after heq
    obtain ⟨first, more, rfl, hfirst⟩ := hconsumed
    obtain ⟨rfl, -⟩ := List.cons.inj heq
    simp [Token.opens] at hfirst
  have hunary : unary room (below room) (⟨.symbol .openBracket, position⟩ ::
      (consumed ++ ⟨.symbol .closeBracket, close⟩ :: rest)) =
      primary room (below room) (⟨.symbol .openBracket, position⟩ ::
      (consumed ++ ⟨.symbol .closeBracket, close⟩ :: rest)) := rfl
  rw [hunary, primary_array hbelow hopen, hinner]
  exact ⟨_, rfl⟩

/-! ## Prefix operators and powers -/

theorem unaryOperator?_of_mem_spellings {token : Token} {operator : UnaryOperator}
    (h : token ∈ operator.spellings) : unaryOperator? token = some operator := by
  cases operator with
  | negate =>
      obtain rfl : token = .symbol .minus := by simpa [UnaryOperator.spellings] using h
      rfl
  | not =>
      rcases (by simpa [UnaryOperator.spellings] using h :
        token = .symbol .bang ∨ token = .keyword .not) with rfl | rfl <;> rfl

theorem readBack_unary {operator : UnaryOperator} {sign : Lexeme} {operand : Expr}
    (hsign : sign.token ∈ operator.spellings) (h : ReadBack .unary consumed operand) :
    ReadBack .unary (sign :: consumed) (.unary operator operand sign.position) := by
  refine .of_unary fun room hroom whole rest hwhole hended => ?_
  simp only [Expr.roomNeeded] at hroom
  have hpos := operand.roomNeeded_pos
  obtain rfl : whole = sign :: (consumed ++ rest) := hwhole
  obtain ⟨shorter, hoperand⟩ := h.full (room - 1) (by omega) _ _ rfl hended
  unfold unary
  dsimp only
  rw [unaryOperator?_of_mem_spellings hsign]
  dsimp only
  rw [descend_below (by omega), hoperand]
  exact ⟨_, rfl⟩

theorem ended_caret (position : Nat) (rest : List Lexeme) :
    Ended .unary (⟨.symbol .caret, position⟩ :: rest) :=
  ended_cons (unlinked_unary _) (by decide)

theorem readBack_power {before after : List Lexeme} {base exponent : Expr} (position : Nat)
    (hbase : ReadBack .unary before base) (hexponent : ReadBack .power after exponent) :
    ReadBack .power (before ++ ⟨.symbol .caret, position⟩ :: after)
      (.binary .power base exponent position) := by
  refine ⟨fun room hroom whole rest hwhole hended => ?_, fun _ hpower => absurd rfl hpower⟩
  have hheight := Nat.le_trans (Expr.height_le_roomNeeded _) hroom
  simp only [Expr.roomNeeded] at hroom
  have hpos := exponent.roomNeeded_pos
  -- the base ends at the `^`, and the exponent where the whole power ends
  have hsplit : whole = before ++ ⟨.symbol .caret, position⟩ :: (after ++ rest) := by
    simpa using hwhole
  obtain ⟨shorter, hread⟩ := hbase.full room (by omega) whole _ hsplit (ended_caret _ _)
  obtain ⟨shorter', hread'⟩ := hexponent.full (room - 1) (by omega) _ rest rfl hended
  rw [withRoom_eq, ofLevel_unary] at hread
  rw [withRoom_eq, ofLevel_power]
  unfold power
  rw [hread, ok_bind]
  dsimp only
  rw [descend_below (by omega), hread', ok_bind, fit_of_le hheight]
  exact ⟨_, rfl⟩

/-! ## Chains -/

/-- A link whose node is read and fits is one turn of the loop. -/
theorem links_of_linked {whole tokens before rest : List Lexeme} {left node : Expr} {link : Link}
    {position : Nat} {shorter : before.length < whole.length}
    (hlink : level.link? before = some (link, position, tokens))
    (hnode : Answers (linked link (descend deeper level.operand position) left position tokens)
      node rest)
    (hfits : node.height ≤ room) :
    ∃ shorter', links level room deeper (⟨left, before, shorter⟩ : Reading Expr whole) =
      links level room deeper ⟨node, rest, shorter'⟩ := by
  obtain ⟨shorter', hnode⟩ := hnode
  refine ⟨Nat.lt_trans shorter' (Nat.lt_trans (Level.length_lt_of_link? hlink) shorter), ?_⟩
  rw [links_of_some hlink]
  dsimp only
  rw [hnode, ok_bind, fit_of_le hfits, ok_bind]
  rfl

theorem readBack_binary {operator : BinaryOperator} {sign : Lexeme}
    {more before after : List Lexeme} {left right : Expr} (hpower : operator ≠ .power)
    (hspelled : (sign :: more).map (·.token) ∈ operator.spellings)
    (hlone : LoneIs (sign :: more) after) (hafter : after ≠ [])
    (hleft : ReadBack operator.level before left)
    (hright : ReadBack operator.level.operand after right) :
    ReadBack operator.level (before ++ sign :: more ++ after)
      (.binary operator left right sign.position) := by
  refine .of_grows fun room hroom whole rest hwhole hended => ?_
  have hheight := Nat.le_trans (Expr.height_le_roomNeeded _) hroom
  simp only [Expr.roomNeeded] at hroom
  have hpos := right.roomNeeded_pos
  have hlevel : operator.level ≠ .power := by
    revert hpower
    cases operator <;> decide
  have hsplit : whole = before ++ (sign :: more ++ (after ++ rest)) := by
    simpa using hwhole
  have hlone' : LoneIs (sign :: more) (after ++ rest) := hlone.append hafter rest
  -- the loop comes to the sign with the left operand, and the right one is its next turn
  obtain ⟨shorter, hread⟩ := hleft.grows operator.level_ne_unary hlevel room (by omega) whole _
    hsplit (ended_spelled hspelled hlone')
  rw [hread]
  refine links_of_linked (Level.link?_spelled hspelled hlone') ?_ hheight
  obtain ⟨shorter', hread'⟩ := hright.full (room - 1) (by omega) _ rest rfl hended
  rw [descend_below (by omega)]
  unfold linked
  rw [hread', ok_bind]
  exact ⟨_, rfl⟩

theorem readBack_logical {operator : LogicalOperator} {before after : List Lexeme}
    {left right : Expr} {sign : Lexeme} (hunary : level ≠ .unary) (hpower : level ≠ .power)
    (hlink : ∀ rest, level.link? (sign :: rest) = some (.logical operator, sign.position, rest))
    (hsign : ∀ rest, Ended level.operand (sign :: rest))
    (hleft : ReadBack level before left) (hright : ReadBack level.operand after right) :
    ReadBack level (before ++ sign :: after) (.logical operator left right sign.position) := by
  refine .of_grows fun room hroom whole rest hwhole hended => ?_
  have hheight := Nat.le_trans (Expr.height_le_roomNeeded _) hroom
  simp only [Expr.roomNeeded] at hroom
  have hpos := right.roomNeeded_pos
  have hsplit : whole = before ++ (sign :: (after ++ rest)) := by
    simpa using hwhole
  obtain ⟨shorter, hread⟩ := hleft.grows hunary hpower room (by omega) whole _ hsplit (hsign _)
  rw [hread]
  refine links_of_linked (hlink _) ?_ hheight
  obtain ⟨shorter', hread'⟩ := hright.full (room - 1) (by omega) _ rest rfl hended
  rw [descend_below (by omega)]
  unfold linked
  rw [hread', ok_bind]
  exact ⟨_, rfl⟩

theorem readBack_between {before first second : List Lexeme} {subject lower upper : Expr}
    (position atBetween atAnd : Nat) (hsubject : ReadBack .relational before subject)
    (hlower : ReadBack .additive first lower) (hupper : ReadBack .additive second upper) :
    ReadBack .relational
      (before ++ ⟨.keyword .is, position⟩ :: ⟨.name "between", atBetween⟩ :: first ++
        ⟨.keyword .and, atAnd⟩ :: second)
      (.between subject lower upper position) := by
  refine .of_grows fun room hroom whole rest hwhole hended => ?_
  have hheight := Nat.le_trans (Expr.height_le_roomNeeded _) hroom
  simp only [Expr.roomNeeded] at hroom
  have hpos := lower.roomNeeded_pos
  have hsplit : whole = before ++ ⟨.keyword .is, position⟩ :: ⟨.name "between", atBetween⟩ ::
      (first ++ ⟨.keyword .and, atAnd⟩ :: (second ++ rest)) := by
    simpa using hwhole
  -- `is between` ends the subject, and `and` ends the lower bound
  have hbetween : Ended .additive (⟨.keyword .is, position⟩ :: ⟨.name "between", atBetween⟩ ::
      (first ++ ⟨.keyword .and, atAnd⟩ :: (second ++ rest))) :=
    ended_cons (unlinked_isBetween _ _ _) (by decide)
  have hand : Ended .additive (⟨.keyword .and, atAnd⟩ :: (second ++ rest)) :=
    ended_cons ((unlinked_and _ _).mono (by decide)) (by decide)
  obtain ⟨shorter, hread⟩ := hsubject.grows (by decide) (by decide) room (by omega) whole _ hsplit
    hbetween
  rw [hread]
  refine links_of_linked rfl ?_ hheight
  obtain ⟨shorter₁, hread₁⟩ := hlower.full (room - 1) (by omega) _ _ rfl hand
  obtain ⟨shorter₂, hread₂⟩ := hupper.full (room - 1) (by omega) _ rest rfl hended
  rw [descend_below (by omega)]
  unfold linked
  dsimp only [Level.operand]
  rw [hread₁, ok_bind]
  dsimp only
  rw [expect_self, ok_bind]
  dsimp only [Reading.first]
  rw [hread₂, ok_bind]
  exact ⟨_, rfl⟩

/-- A phrase of the next tighter level. -/
theorem readBack_operand (h : ReadBack level.operand consumed tree) :
    ReadBack level consumed tree := by
  by_cases hunary : level = .unary
  · subst hunary
    exact h
  by_cases hpower : level = .power
  · subst hpower
    refine ⟨fun room hroom whole rest hwhole hended => ?_, fun _ hpower => absurd rfl hpower⟩
    obtain ⟨shorter, hread⟩ := h.full room hroom whole rest hwhole (hended.mono (by decide))
    rw [Level.operand, withRoom_eq, ofLevel_unary] at hread
    rw [withRoom_eq, ofLevel_power]
    refine ⟨shorter, ?_⟩
    unfold power
    rw [hread, ok_bind]
    dsimp only
    -- a `^` would be a link
    split
    · next position after =>
        have hnone := hended.unlinked .power Level.power.within_refl
        simp [Level.link?, Token.operator?, BinaryOperator.level] at hnone
    · rfl
  · refine .of_grows fun room hroom whole rest hwhole hended => ?_
    obtain ⟨shorter, hread⟩ := h.full room hroom whole rest hwhole hended
    refine ⟨shorter, ?_⟩
    rw [withRoom_eq] at hread ⊢
    rw [ofLevel_chain hunary hpower]
    unfold chain
    rw [hread, ok_bind]

end Reader

/-! ## Derivations -/

open Reader in
mutual

theorem Derives.readBack {level : Level} {tokens : List Lexeme} {tree : Expr} :
    Derives level tokens tree → ReadBack level tokens tree
  | .number value position => readBack_single fun _ _ => ⟨_, rfl⟩
  | .text value position => readBack_single fun _ _ => ⟨_, rfl⟩
  | .truth value position => readBack_single fun _ _ => ⟨_, rfl⟩
  | .member h => readBack_member h
  | .group position close h => readBack_group h.readBack position close
  | .emptyArray position close => readBack_emptyArray position close
  | .array position close h => readBack_array position close h.allReadBack h.exists_cons
  | .unary hsign h => readBack_unary hsign h.readBack
  | .power position hbase hexponent => readBack_power position hbase.readBack hexponent.readBack
  | .binary hoperator htighter hspelled hlone hleft hright => by
    have hbefore := hleft.readBack
    have hafter := hright.readBack
    -- from here on the level is the one that the reader's own table gives the operator
    obtain ⟨hpower, rfl⟩ := Level.mem_operators_iff.mp hoperator
    obtain ⟨-, rfl⟩ := Level.tighter?_eq_some_iff.mp htighter
    exact readBack_binary hpower hspelled hlone hright.ne_nil hbefore hafter
  | .between position atBetween atAnd hsubject hlower hupper =>
    readBack_between position atBetween atAnd hsubject.readBack hlower.readBack hupper.readBack
  | .and position hleft hright => by
    have hended : ∀ rest, Ended .equality (⟨.keyword .and, position⟩ :: rest) := fun rest =>
      ended_cons (unlinked_and position rest) (by decide)
    exact readBack_logical (by decide) (by decide) (fun _ => rfl) hended hleft.readBack
      hright.readBack
  | .or position hleft hright => by
    have hended : ∀ rest, Ended .and (⟨.keyword .or, position⟩ :: rest) := fun rest =>
      ended_cons (unlinked_or position rest) (by decide)
    exact readBack_logical (by decide) (by decide) (fun _ => rfl) hended hleft.readBack
      hright.readBack
  | .operand htighter h => by
    have hoperand := h.readBack
    obtain ⟨-, rfl⟩ := Level.tighter?_eq_some_iff.mp htighter
    exact readBack_operand hoperand

theorem DerivesAll.allReadBack {tokens : List Lexeme} {trees : List Expr} :
    DerivesAll tokens trees → AllReadBack tokens trees
  | .one h => allReadBack_one h.readBack
  | .more position h hothers => allReadBack_more position h.readBack hothers.allReadBack

end

/-- **Readers are complete.**  A phrase up to the end of the tokens is read in any room that its
tree needs. -/
theorem Derives.read_eq {level : Level} {tokens : List Lexeme} {tree : Expr}
    (h : Derives level tokens tree) {room : Nat} (hroom : tree.roomNeeded ≤ room) :
    ∃ shorter, Reader.withRoom room level tokens = .ok ⟨tree, [], shorter⟩ :=
  h.readBack.full room hroom tokens [] (List.append_nil tokens).symm (ended_nil level)

end SurveyLogic
