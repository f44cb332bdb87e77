import SurveyLogic.Proofs.Grammar.Derivation

/-!
# Links as they are spelled

`Level.link?` looks at the front of a token list for something that joins operands on a level.  Here
it is compared with the spellings of the grammar, in both directions: what it finds is spelled there
(`Level.link?_spec`), and what is spelled there it finds (`Level.link?_spelled`), on its own level
and on no tighter one (`Unlinked.spelled`).

`is` needs care.  On the equality level `link?` takes any `is`, also one before `between`; but a
chain of that level looks for a link only where the relational level has found none, and that level
takes `is between`.
-/

namespace SurveyLogic

/-! ## Looseness -/

/-- A level is tighter than another or the same. -/
def Level.Within (inner outer : Level) : Prop := inner.looseness ≤ outer.looseness

instance (inner outer : Level) : Decidable (inner.Within outer) :=
  inferInstanceAs (Decidable (_ ≤ _))

theorem Level.within_refl (level : Level) : level.Within level := Nat.le_refl _

theorem Level.operand_within (level : Level) : level.operand.Within level := by
  cases level <;> decide

theorem Level.Within.trans {a b c : Level} (h : a.Within b) (h' : b.Within c) : a.Within c :=
  Nat.le_trans h h'

/-- The level of `or` is the loosest. -/
theorem Level.within_or (level : Level) : level.Within .or := by
  cases level <;> decide

theorem Level.eq_unary_of_within {level : Level} (h : level.Within .unary) : level = .unary := by
  revert h
  cases level <;> decide

theorem Level.Within.eq_or_operand {inner outer : Level} (h : inner.Within outer) :
    inner = outer ∨ inner.Within outer.operand := by
  cases outer <;> cases inner <;> first
    | exact Or.inl rfl
    | exact Or.inr (by decide)
    | exact absurd h (by decide)

/-- The six looser levels are chains of operands of the next level. -/
theorem Level.chain_induction {motive : Level → Prop} (hunary : motive .unary)
    (hpower : motive .power)
    (hchain : ∀ level : Level, level ≠ .unary → level ≠ .power → motive level.operand →
      motive level) (level : Level) : motive level := by
  have hmultiplicative := hchain .multiplicative (by decide) (by decide) hpower
  have hadditive := hchain .additive (by decide) (by decide) hmultiplicative
  have hrelational := hchain .relational (by decide) (by decide) hadditive
  have hequality := hchain .equality (by decide) (by decide) hrelational
  have hand := hchain .and (by decide) (by decide) hequality
  have hor := hchain .or (by decide) (by decide) hand
  cases level <;> assumption

/-- A phrase of a level is a phrase of every looser one. -/
theorem Derives.of_within {inner outer : Level} {tokens : List Lexeme} {tree : Expr}
    (h : Derives inner tokens tree) (hwithin : inner.Within outer) : Derives outer tokens tree := by
  induction outer using Level.chain_induction with
  | hunary =>
      obtain rfl := Level.eq_unary_of_within hwithin
      exact h
  | hpower =>
      rcases hwithin.eq_or_operand with rfl | hunary
      · exact h
      · obtain rfl := Level.eq_unary_of_within hunary
        exact .of_operand h
  | hchain level _ _ ih =>
      rcases hwithin.eq_or_operand with rfl | hoperand
      · exact h
      · exact .of_operand (ih hoperand)

/-! ## Where no link stands -/

/-- Neither the level nor a tighter one has a link in front of the tokens. -/
def Unlinked (level : Level) (tokens : List Lexeme) : Prop :=
  ∀ inner : Level, inner.Within level → inner.link? tokens = none

theorem Unlinked.mono {inner outer : Level} {tokens : List Lexeme} (h : Unlinked outer tokens)
    (hwithin : inner.Within outer) : Unlinked inner tokens :=
  fun level hlevel => h level (hlevel.trans hwithin)

theorem Unlinked.of_operand {level : Level} {tokens : List Lexeme}
    (h : Unlinked level.operand tokens) (hlevel : level.link? tokens = none) :
    Unlinked level tokens := by
  intro inner hwithin
  rcases hwithin.eq_or_operand with rfl | hinner
  · exact hlevel
  · exact h inner hinner

theorem unlinked_unary (tokens : List Lexeme) : Unlinked .unary tokens := by
  intro inner hwithin
  obtain rfl := Level.eq_unary_of_within hwithin
  unfold Level.link?
  split <;> try contradiction
  · split
    · next operator _ =>
        rw [if_neg operator.level_ne_unary]
    · rfl
  · rfl

theorem unlinked_nil (level : Level) : Unlinked level [] := by
  intro inner _
  cases inner <;> rfl

/-- The tokens that end a phrase inside brackets. -/
theorem unlinked_closing {token : Token} (level : Level)
    (htoken : token = .symbol .closeParen ∨ token = .symbol .closeBracket ∨
      token = .symbol .comma) (position : Nat) (rest : List Lexeme) :
    Unlinked level (⟨token, position⟩ :: rest) := by
  intro inner _
  rcases htoken with rfl | rfl | rfl <;> cases inner <;> rfl

/-! ## What `link?` finds is spelled in the grammar -/

theorem Token.spelled_of_operator? {token : Token} {operator : BinaryOperator}
    (h : token.operator? = some operator) : [token] ∈ operator.spellings := by
  unfold operator? at h
  split at h <;> first
    | contradiction
    | (obtain rfl := Option.some.inj h; decide)

/-- What stands in front of `rest` when `link?` finds a link there. -/
def Link.Written (level : Level) (position : Nat) (tokens rest : List Lexeme) : Link → Prop
  | .logical .or => level = .or ∧ tokens = ⟨.keyword .or, position⟩ :: rest
  | .logical .and => level = .and ∧ tokens = ⟨.keyword .and, position⟩ :: rest
  | .range => level = .relational ∧
      ∃ atBetween, tokens = ⟨.keyword .is, position⟩ :: ⟨.name "between", atBetween⟩ :: rest
  | .binary operator => operator.level = level ∧
      ∃ sign more, tokens = sign :: more ++ rest ∧ sign.position = position ∧
        (sign :: more).map (·.token) ∈ operator.spellings ∧ LoneIs (sign :: more) rest

theorem Level.link?_spec {level : Level} {tokens rest : List Lexeme} {link : Link} {position : Nat}
    (hunlinked : Unlinked level.operand tokens)
    (h : level.link? tokens = some (link, position, rest)) :
    link.Written level position tokens rest := by
  unfold link? at h
  split at h
  · obtain ⟨rfl, rfl, rfl⟩ := by simpa using h
    exact ⟨rfl, rfl⟩
  · obtain ⟨rfl, rfl, rfl⟩ := by simpa using h
    exact ⟨rfl, rfl⟩
  · next atIs atNot rest' =>
      obtain ⟨rfl, rfl, rfl⟩ := by simpa using h
      refine ⟨rfl, ⟨.keyword .is, atIs⟩, [⟨.keyword .not, atNot⟩], rfl, rfl,
        by simp [BinaryOperator.spellings], ?_⟩
      intro hlone
      simp at hlone
  · -- an `is` by itself: `not` would have made it `is not`
    next atIs rest' hnot =>
      obtain ⟨rfl, rfl, rfl⟩ := by simpa using h
      refine ⟨rfl, ⟨.keyword .is, atIs⟩, [], rfl, rfl,
        by simp [BinaryOperator.spellings], ?_⟩
      intro _ next hnext
      obtain ⟨after, rfl⟩ : ∃ after, rest' = next :: after := by
        cases rest' with
        | nil => simp at hnext
        | cons first after => exact ⟨after, by simpa using hnext⟩
      constructor
      · intro hkeyword
        exact hnot next.position after (by rw [← hkeyword])
      · -- the relational level would have taken `is between`
        intro hbetween
        have hrelational := hunlinked .relational (by decide)
        obtain ⟨token, atNext⟩ := next
        obtain rfl : token = .name "between" := hbetween
        simp [link?] at hrelational
  · obtain ⟨rfl, rfl, rfl⟩ := by simpa using h
    exact ⟨rfl, _, rfl⟩
  · next token atToken rest' _ _ _ _ _ =>
      split at h
      · next operator hoperator =>
          split at h
          · next hlevel =>
              obtain ⟨rfl, rfl, rfl⟩ := by simpa using h
              refine ⟨hlevel, ⟨token, atToken⟩, [], rfl, rfl,
                Token.spelled_of_operator? hoperator, ?_⟩
              intro hlone
              obtain rfl : token = .keyword .is := by simpa using hlone
              simp [Token.operator?] at hoperator
          · simp at h
      · simp at h
  · simp at h

/-! ## What the grammar spells, `link?` finds -/

/-- An operator is spelled by one token that writes it by itself, by `is`, or by `is not`. -/
theorem BinaryOperator.spelled_cases {operator : BinaryOperator} {sign : List Lexeme}
    (h : sign.map (·.token) ∈ operator.spellings) :
    (∃ token position, sign = [⟨token, position⟩] ∧ token.operator? = some operator) ∨
    (operator = .equal ∧ ∃ position, sign = [⟨.keyword .is, position⟩]) ∨
    (operator = .notEqual ∧ ∃ position atNot,
      sign = [⟨.keyword .is, position⟩, ⟨.keyword .not, atNot⟩]) := by
  match sign with
  | [] => cases operator <;> simp [spellings] at h
  | [⟨token, position⟩] =>
      by_cases his : token = .keyword .is
      · -- the only operator that is written by `is` alone is equality
        subst his
        refine Or.inr (Or.inl ⟨?_, position, rfl⟩)
        cases operator <;> simp [spellings] at h ⊢
      · refine Or.inl ⟨token, position, rfl, ?_⟩
        cases operator <;> simp [spellings, his] at h <;>
          first
            | (subst h; rfl)
            | (rcases h with rfl | rfl <;> rfl)
  | [⟨first, position⟩, ⟨second, atSecond⟩] =>
      refine Or.inr (Or.inr ?_)
      cases operator <;> simp [spellings] at h
      obtain ⟨rfl, rfl⟩ := h
      exact ⟨rfl, position, atSecond, rfl⟩
  | _ :: _ :: _ :: _ => cases operator <;> simp [spellings] at h

theorem Level.link?_operator {token : Token} {operator : BinaryOperator}
    (htoken : token.operator? = some operator) (level : Level) (position : Nat)
    (rest : List Lexeme) : level.link? (⟨token, position⟩ :: rest) =
      if operator.level = level then some (.binary operator, position, rest) else none := by
  have hlogical : ∀ word : Keyword, word = .is ∨ word = .and ∨ word = .or →
      token ≠ .keyword word := by
    rintro word (rfl | rfl | rfl) rfl <;> simp [Token.operator?] at htoken
  unfold link?
  split
  · next heq => exact absurd (congrArg Lexeme.token (List.cons.inj heq).1) (hlogical _ (by simp))
  · next heq => exact absurd (congrArg Lexeme.token (List.cons.inj heq).1) (hlogical _ (by simp))
  · next heq => exact absurd (congrArg Lexeme.token (List.cons.inj heq).1) (hlogical _ (by simp))
  · next heq => exact absurd (congrArg Lexeme.token (List.cons.inj heq).1) (hlogical _ (by simp))
  · next heq => exact absurd (congrArg Lexeme.token (List.cons.inj heq).1) (hlogical _ (by simp))
  · next heq =>
      obtain ⟨hfirst, rfl⟩ := List.cons.inj heq
      obtain ⟨rfl, rfl⟩ := Lexeme.mk.inj hfirst
      simp only [htoken]
  · next heq => simp at heq

/-- The tokens of an operator, on its own level. -/
theorem Level.link?_spelled {operator : BinaryOperator} {sign : Lexeme} {more rest : List Lexeme}
    (hspelled : (sign :: more).map (·.token) ∈ operator.spellings)
    (hlone : LoneIs (sign :: more) rest) :
    operator.level.link? (sign :: more ++ rest) = some (.binary operator, sign.position, rest) := by
  rcases BinaryOperator.spelled_cases hspelled with
    ⟨token, position, heq, htoken⟩ | ⟨rfl, position, heq⟩ | ⟨rfl, position, atNot, heq⟩
  · obtain ⟨rfl, rfl⟩ := List.cons.inj heq
    exact (link?_operator htoken _ _ _).trans (if_pos rfl)
  · -- an `is` by itself, behind which no `not` turns it into the other operator
    obtain ⟨rfl, rfl⟩ := List.cons.inj heq
    have hnext := hlone rfl
    cases rest with
    | nil => rfl
    | cons next rest =>
        obtain ⟨token, atNext⟩ := next
        have hnot : token ≠ .keyword .not := (hnext _ rfl).1
        simp only [BinaryOperator.level, List.cons_append, List.nil_append, link?]
        split
        · simp_all
        · simp_all
        all_goals simp_all
  · obtain ⟨rfl, rfl⟩ := List.cons.inj heq
    rfl

theorem Level.ne_of_within_operand {inner outer : Level} (h : inner.Within outer.operand)
    (houter : outer ≠ .unary) : outer ≠ inner := by
  rintro rfl
  revert h houter
  cases outer <;> decide

/-- On a level other than its own an `is` links nothing, unless it opens a range. -/
theorem Level.link?_is {level : Level} {position : Nat} {rest : List Lexeme}
    (hlevel : level ≠ .equality)
    (hbetween : ∀ next ∈ rest.head?, next.token ≠ .name "between") :
    level.link? (⟨.keyword .is, position⟩ :: rest) = none := by
  unfold link?
  split
  · next heq => simp at heq
  · next heq => simp at heq
  · exact absurd rfl hlevel
  · exact absurd rfl hlevel
  · next heq =>
      obtain ⟨-, rfl⟩ := List.cons.inj heq
      exact absurd rfl (hbetween _ rfl)
  · next heq =>
      obtain ⟨hfirst, -⟩ := List.cons.inj heq
      obtain ⟨rfl, -⟩ := Lexeme.mk.inj hfirst
      rfl
  · rfl

/-- The tokens of an operator are no link on a tighter level. -/
theorem Unlinked.spelled {operator : BinaryOperator} {sign : Lexeme} {more rest : List Lexeme}
    (hspelled : (sign :: more).map (·.token) ∈ operator.spellings)
    (hlone : LoneIs (sign :: more) rest) :
    Unlinked operator.level.operand (sign :: more ++ rest) := by
  intro inner hwithin
  have hother : operator.level ≠ inner :=
    Level.ne_of_within_operand hwithin operator.level_ne_unary
  rcases BinaryOperator.spelled_cases hspelled with
    ⟨token, position, heq, htoken⟩ | ⟨rfl, position, heq⟩ | ⟨rfl, position, atNot, heq⟩
  · obtain ⟨rfl, rfl⟩ := List.cons.inj heq
    exact (Level.link?_operator htoken _ _ _).trans (if_neg hother)
  · obtain ⟨rfl, rfl⟩ := List.cons.inj heq
    exact Level.link?_is (Ne.symm hother) fun next hnext => (hlone rfl next hnext).2
  · obtain ⟨rfl, rfl⟩ := List.cons.inj heq
    refine Level.link?_is (Ne.symm hother) fun next hnext => ?_
    obtain rfl : ⟨.keyword .not, atNot⟩ = next := by simpa using hnext
    simp

/-- `is between` is no link on the additive level or a tighter one. -/
theorem unlinked_isBetween (position atBetween : Nat) (rest : List Lexeme) :
    Unlinked .additive (⟨.keyword .is, position⟩ :: ⟨.name "between", atBetween⟩ :: rest) := by
  intro inner hwithin
  cases inner <;> first
    | rfl
    | exact absurd hwithin (by decide)

/-- `and` is a link on its own level only. -/
theorem unlinked_and (position : Nat) (rest : List Lexeme) :
    Unlinked .equality (⟨.keyword .and, position⟩ :: rest) := by
  intro inner hwithin
  cases inner <;> first
    | rfl
    | exact absurd hwithin (by decide)

/-- `or` is a link on its own level only. -/
theorem unlinked_or (position : Nat) (rest : List Lexeme) :
    Unlinked .and (⟨.keyword .or, position⟩ :: rest) := by
  intro inner hwithin
  cases inner <;> first
    | rfl
    | exact absurd hwithin (by decide)

end SurveyLogic
