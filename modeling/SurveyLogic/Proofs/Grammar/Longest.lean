import SurveyLogic.Proofs.Grammar.Local
import SurveyLogic.Proofs.Grammar.MoreRoom

/-!
# The longest phrase is taken

What a level takes off the front of a token list is the longest phrase of that level there
(`Reader.takes_longest`).  Behind it stands no operator that the level or a tighter one could go on
with, the tree fits into the levels that the starting depth leaves below the greatest height, and
the phrase by itself is read as the same tree.

That a phrase is taken, and that its tree fits, is soundness; that it is read by itself is
completeness.  There is no longer one because readers are local: in front of the tokens that a
longer phrase would add the reader stops just as well, with whatever room.
-/

namespace SurveyLogic

/-! ## The operator in front of the tokens -/

/-- The level of the binary operator that a token writes by itself. -/
def Token.operatorLevel? : Token → Option Level
  | .keyword .or => some .or
  | .keyword .and => some .and
  | .symbol .assign | .symbol .equal | .symbol .notEqual => some .equality
  | .symbol .less | .symbol .lessEqual | .symbol .greater | .symbol .greaterEqual
  | .keyword .contains | .keyword .within => some .relational
  | .symbol .plus | .symbol .minus => some .additive
  | .symbol .star | .symbol .slash => some .multiplicative
  | .symbol .caret => some .power
  | _ => none

/-- The level of the binary operator in front of the tokens.  An `is` is relational directly before
the name `between` and belongs to equality anywhere else. -/
def operatorLevel? : List Lexeme → Option Level
  | [] => none
  | ⟨.keyword .is, _⟩ :: ⟨.name "between", _⟩ :: _ => some .relational
  | ⟨.keyword .is, _⟩ :: _ => some .equality
  | ⟨token, _⟩ :: _ => token.operatorLevel?

/-- On the level of equality any `is` is a link. -/
theorem Level.link?_equality_is (position : Nat) (rest : List Lexeme) :
    Level.equality.link? (⟨.keyword .is, position⟩ :: rest) ≠ none := by
  unfold link?
  split <;> simp_all

/-- A token that writes an operator is a link on the operator's level. -/
theorem Token.link?_ne_none {token : Token} {level : Level} (h : token.operatorLevel? = some level)
    (position : Nat) (rest : List Lexeme) : level.link? (⟨token, position⟩ :: rest) ≠ none := by
  unfold operatorLevel? at h
  split at h <;> first
    | contradiction
    | (obtain rfl := Option.some.inj h; simp [Level.link?, operator?, BinaryOperator.level])

/-- An operator is a link on its own level. -/
theorem link?_ne_none_of_operatorLevel? {tokens : List Lexeme} {level : Level}
    (h : operatorLevel? tokens = some level) : level.link? tokens ≠ none := by
  unfold operatorLevel? at h
  split at h
  · contradiction
  · obtain rfl := Option.some.inj h
    simp [Level.link?]
  · obtain rfl := Option.some.inj h
    exact Level.link?_equality_is _ _
  · exact Token.link?_ne_none h _ _

/-- Where no link stands, the next operator belongs to a looser level. -/
theorem Unlinked.not_within {level next : Level} {tokens : List Lexeme} (h : Unlinked level tokens)
    (hnext : operatorLevel? tokens = some next) : ¬ next.Within level :=
  fun hwithin => link?_ne_none_of_operatorLevel? hnext (h next hwithin)

/-! ## Nothing longer is a phrase -/

/-- Where reading may stop, it may also stop when the tokens end further on. -/
theorem stopsAlike_front {front : List Lexeme} (hfront : front ≠ []) (level : Level)
    (rest : List Lexeme) : StopsAlike level (front ++ rest) front := by
  obtain ⟨⟨token, position⟩, more, rfl⟩ := List.exists_cons_of_ne_nil hfront
  by_cases hlast : token = .keyword .is ∧ more = []
  · -- what follows the `is` is cut off: that matters on the level of equality only, where reading
    -- goes on in either case
    obtain ⟨rfl, rfl⟩ := hlast
    refine ⟨fun inner _ hnone => ?_, fun _ => rfl⟩
    by_cases hequality : inner = .equality
    · subst hequality
      exact absurd hnone (Level.link?_equality_is position rest)
    · exact Level.link?_is hequality (by simp)
  · have hdecides : Decides (⟨token, position⟩ :: more) :=
      decides_cons (Classical.not_and_iff_not_or_not.mp hlast)
    have halike := stopsAlike_append hdecides level rest []
    rwa [List.append_nil] at halike

namespace Reader

section Longer

variable {room : Nat} {level : Level} {tokens consumed : List Lexeme}
  {reading : Reading Expr tokens}

/-- The level leaves nothing that would make what it takes a longer phrase. -/
theorem not_derives_of_withRoom (h : withRoom room level tokens = .ok reading)
    (hconsumed : tokens = consumed ++ reading.rest) {more rest : List Lexeme} (hmore : more ≠ [])
    (hrest : reading.rest = more ++ rest) (tree : Expr) :
    ¬ Derives level (consumed ++ more) tree := by
  intro hderives
  obtain ⟨consumed', hconsumed', hlocal⟩ := local_withRoom room level tokens reading h
  obtain rfl : consumed' = consumed :=
    List.append_cancel_right (hconsumed'.symm.trans hconsumed)
  have hstops : StopsAlike level reading.rest more := by
    rw [hrest]
    exact stopsAlike_front hmore level rest
  obtain ⟨_, hread⟩ := hlocal more hstops
  -- the longer phrase may need more room, but with that it would be read to its end
  obtain ⟨_, hwhole⟩ := hderives.read_eq (Nat.le_max_right room tree.roomNeeded)
  rcases upTo_withRoom (Nat.le_max_left room tree.roomNeeded) level (consumed' ++ more) with
    ⟨position, hdeep⟩ | heq
  · rw [hread] at hdeep
    contradiction
  · rw [hread, hwhole] at heq
    exact hmore (congrArg Reading.rest (Except.ok.inj heq))

/-- No phrase at the front of the tokens is longer than what the level takes. -/
theorem length_le_of_withRoom (h : withRoom room level tokens = .ok reading)
    (hconsumed : tokens = consumed ++ reading.rest) {longer rest : List Lexeme} {tree : Expr}
    (hlonger : tokens = longer ++ rest) (hderives : Derives level longer tree) :
    longer.length ≤ consumed.length := by
  rcases List.append_eq_append_iff.mp (hconsumed.symm.trans hlonger) with
    ⟨more, rfl, hrest⟩ | ⟨less, rfl, -⟩
  · have hmore : more = [] := by
      refine Decidable.byContradiction fun hmore => ?_
      exact not_derives_of_withRoom h hconsumed hmore hrest tree hderives
    simp [hmore]
  · simp

end Longer

/-! ## What a level takes -/

/-- At the depth, `consumed` is what the level takes off the front of the tokens. -/
structure Takes (depth : Nat) (level : Level) {tokens : List Lexeme}
    (reading : Reading Expr tokens) (consumed : List Lexeme) : Prop where
  nonempty : consumed ≠ []
  split : tokens = consumed ++ reading.rest
  phrase : Derives level consumed reading.result
  longest : ∀ longer rest tree, tokens = longer ++ rest → Derives level longer tree →
    longer.length ≤ consumed.length
  /-- The next token, if there is one, is no operator of the level or a tighter one. -/
  stops : ∀ next, operatorLevel? reading.rest = some next → ¬ next.Within level
  bounded : reading.result.height ≤ Expr.maxHeight - depth
  /-- By itself it is read the same, and nothing is left. -/
  alone : Answers (withRoom (Expr.maxHeight - depth) level consumed) reading.result []

/-- **A level takes the longest phrase.**  What a level reads, from any depth above the limit, is a
phrase at the front of the tokens, and no phrase of the level there is longer.  The next operator is
one of a looser level, the tree has no more levels than the depth leaves, and what is left had no
part in the answer. -/
theorem takes_longest (level : Level) {depth : Nat} (hdepth : depth < Expr.maxHeight)
    {tokens : List Lexeme} {reading : Reading Expr tokens}
    (h : withRoom (Expr.maxHeight - depth) level tokens = .ok reading) :
    ∃ consumed, Takes depth level reading consumed := by
  have hroom : 1 ≤ Expr.maxHeight - depth := Nat.sub_pos_of_lt hdepth
  obtain ⟨⟨consumed, htokens, hderives⟩, hunlinked, hfits⟩ :=
    sound_withRoom _ hroom level tokens reading h
  exact ⟨consumed,
    { nonempty := hderives.ne_nil
      split := htokens
      phrase := hderives
      longest := fun _ _ _ hlonger hphrase => length_le_of_withRoom h htokens hlonger hphrase
      stops := fun _ hnext => hunlinked.not_within hnext
      bounded := Nat.le_trans reading.result.height_le_roomNeeded hfits
      alone := hderives.read_eq hfits }⟩

/-- The tokens of `x > y is between a and b`. -/
def chainTokens : List Lexeme :=
  [⟨.name "x", 0⟩, ⟨.symbol .greater, 2⟩, ⟨.name "y", 4⟩, ⟨.keyword .is, 6⟩, ⟨.name "between", 9⟩,
    ⟨.name "a", 17⟩, ⟨.keyword .and, 19⟩, ⟨.name "b", 23⟩]

def chainTree : Expr :=
  .between (.binary .greater (.name "x" 0) (.name "y" 4) 2) (.name "a" 17) (.name "b" 23) 6

theorem derives_chain : Derives .relational chainTokens chainTree := by
  have hname : ∀ word position, Derives .additive [⟨.name word, position⟩] (.name word position) :=
    fun word position => (Derives.member (.name word position)).of_within (by decide)
  have hgreater : Derives .relational _ _ :=
    .binary_of_token .greater ⟨.symbol .greater, 2⟩ (by decide) rfl (by decide) (by decide)
      (.operand rfl (hname "x" 0)) (hname "y" 4)
  exact .between 6 9 19 hgreater (hname "a" 17) (hname "b" 23)

/-- With `is not z` behind it and three levels left, the relational level takes the whole chain,
whose tree has three levels, and leaves the `is` to equality. -/
theorem takes_longest_chain :
    61 < Expr.maxHeight ∧
    ∃ reading : Reading Expr
        (chainTokens ++ [⟨.keyword .is, 25⟩, ⟨.keyword .not, 28⟩, ⟨.name "z", 32⟩]),
      withRoom (Expr.maxHeight - 61) .relational _ = .ok reading ∧ reading.result = chainTree ∧
      operatorLevel? reading.rest = some .equality ∧ chainTree.height = Expr.maxHeight - 61 ∧
      ∃ consumed, Takes 61 .relational reading consumed := by
  have hspelled : ([⟨.keyword .is, 25⟩, ⟨.keyword .not, 28⟩] : List Lexeme).map (·.token) ∈
      BinaryOperator.notEqual.spellings := by
    simp [BinaryOperator.spellings]
  have hended : Ended .relational [⟨.keyword .is, 25⟩, ⟨.keyword .not, 28⟩, ⟨.name "z", 32⟩] :=
    ended_spelled hspelled (by simp [LoneIs])
  obtain ⟨shorter, hread⟩ :=
    derives_chain.readBack.full (Expr.maxHeight - 61) (by decide) _ _ rfl hended
  exact ⟨by decide, _, hread, rfl, rfl, by decide, takes_longest .relational (by decide) hread⟩

end Reader

end SurveyLogic
