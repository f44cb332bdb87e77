import SurveyLogic.Proofs.Grammar.Bindings

/-!
# Assignments read as equations

A condition may start with a member chain and a `=`, like an assignment; there the sign means
equality and the chain is the first operand of it.  The two readings associate differently, but they
cover the same token lists: what stands behind the sign is a condition if and only if the whole is
(`sentence_equation_iff`).

One direction puts the equation in front of the leftmost operand that the tokens have on the level
of equality (`Derives.equation`).  The other one takes it off again (`Derives.of_equation`), for
which the sign has to stand on that level: no phrase of a tighter one goes on behind a member chain
with a `=`, since reading that phrase would end in front of the sign
(`Derives.not_derives_append`).
-/

namespace SurveyLogic

/-! ## A phrase that has ended -/

/-- No phrase goes on behind what ends it. -/
theorem Derives.not_derives_append {level : Level} {before rest : List Lexeme} {tree tree' : Expr}
    (h : Derives level before tree) (hended : Ended level rest) (hrest : rest ≠ []) :
    ¬ Derives level (before ++ rest) tree' := by
  intro hwhole
  obtain ⟨_, hread⟩ := h.readBack.full _ (Nat.le_max_left tree.roomNeeded tree'.roomNeeded) _ rest
    rfl hended
  obtain ⟨_, hread'⟩ := hwhole.read_eq (Nat.le_max_right tree.roomNeeded tree'.roomNeeded)
  rw [hread] at hread'
  simp [hrest] at hread'

/-! ## Member chains and the sign behind them -/

/-- A member chain is made of names and dots. -/
theorem DerivesMember.token_cases {tokens : List Lexeme} {tree : Expr}
    (h : DerivesMember tokens tree) {lexeme : Lexeme} (hmem : lexeme ∈ tokens) :
    (∃ word, lexeme.token = .name word) ∨ lexeme.token = .symbol .dot := by
  induction h with
  | name word position =>
      obtain rfl := List.mem_singleton.mp hmem
      exact Or.inl ⟨word, rfl⟩
  | property property position after _ ih =>
      rcases List.mem_append.mp hmem with hobject | hlast
      · exact ih hobject
      · simp only [List.mem_cons, List.not_mem_nil, or_false] at hlast
        rcases hlast with rfl | rfl
        · exact Or.inr rfl
        · exact Or.inl ⟨property, rfl⟩

/-- The first token of an operator is neither a name nor a dot. -/
theorem BinaryOperator.not_path_token {operator : BinaryOperator} {sign : Lexeme}
    {more : List Lexeme} (h : (sign :: more).map (·.token) ∈ operator.spellings) :
    (∀ word, sign.token ≠ .name word) ∧ sign.token ≠ .symbol .dot := by
  rcases BinaryOperator.spelled_cases h with
    ⟨token, position, heq, htoken⟩ | ⟨rfl, position, heq⟩ | ⟨rfl, position, atNot, heq⟩
  · obtain ⟨rfl, -⟩ := List.cons.inj heq
    constructor
    · rintro word rfl
      simp [Token.operator?] at htoken
    · rintro rfl
      simp [Token.operator?] at htoken
  · obtain ⟨rfl, -⟩ := List.cons.inj heq
    simp
  · obtain ⟨rfl, -⟩ := List.cons.inj heq
    simp

/-- A `=` is one spelling of equality. -/
theorem assign_spelled (position : Nat) :
    ([⟨.symbol .assign, position⟩] : List Lexeme).map (·.token) ∈
      BinaryOperator.equal.spellings := by
  simp [BinaryOperator.spellings]

theorem loneIs_assign (position : Nat) (operand : List Lexeme) :
    LoneIs [⟨.symbol .assign, position⟩] operand := by
  simp [LoneIs]

section Equation

variable {chain : List Lexeme} {target : Expr} (hchain : DerivesMember chain target)
  (position : Nat)

include hchain

/-- An operator behind some tokens that also start with a member chain and a `=`: it is that sign,
or it stands further on. -/
theorem DerivesMember.split_sign {before after rest : List Lexeme} {sign : Lexeme}
    (hsign : (∀ word, sign.token ≠ .name word) ∧ sign.token ≠ .symbol .dot)
    (h : before ++ sign :: after = chain ++ ⟨.symbol .assign, position⟩ :: rest) :
    (sign = ⟨.symbol .assign, position⟩ ∧ after = rest) ∨
    ∃ between, before = chain ++ ⟨.symbol .assign, position⟩ :: between ∧
      rest = between ++ sign :: after := by
  rcases List.append_eq_append_iff.mp h with ⟨inside, hinside, hafter⟩ | ⟨behind, hbehind, hrest⟩
  · cases inside with
    | nil =>
        obtain ⟨rfl, rfl⟩ := List.cons.inj hafter
        exact Or.inl ⟨rfl, rfl⟩
    | cons first inside =>
        -- the operator would be a part of the chain
        obtain ⟨rfl, -⟩ := List.cons.inj hafter
        have hmem : sign ∈ chain := by simp [hinside]
        rcases hchain.token_cases hmem with ⟨word, hword⟩ | hdot
        · exact absurd hword (hsign.1 word)
        · exact absurd hdot hsign.2
  · cases behind with
    | nil =>
        obtain ⟨rfl, rfl⟩ := List.cons.inj hrest
        exact Or.inl ⟨rfl, rfl⟩
    | cons first behind =>
        obtain ⟨rfl, rfl⟩ := List.cons.inj hrest
        exact Or.inr ⟨behind, hbehind, rfl⟩

/-- A `=` behind a member chain ends it on the levels below equality. -/
theorem DerivesMember.not_relational (rest : List Lexeme) (tree : Expr) :
    ¬ Derives .relational (chain ++ ⟨.symbol .assign, position⟩ :: rest) tree := by
  have hended : Ended .relational (⟨.symbol .assign, position⟩ :: rest) :=
    ended_spelled (assign_spelled position) (loneIs_assign position rest)
  have hmember : Derives .relational chain target := (Derives.member hchain).of_within (by decide)
  exact hmember.not_derives_append hended (List.cons_ne_nil _ _)

/-- A member chain and a `=` may stand in front of a phrase of equality or a looser level. -/
theorem Derives.equation {level : Level} {tokens : List Lexeme} {tree : Expr} :
    Derives level tokens tree → Level.equality.Within level →
      ∃ tree', Derives level (chain ++ ⟨.symbol .assign, position⟩ :: tokens) tree'
  | .number .., hlevel | .text .., hlevel | .truth .., hlevel | .member _, hlevel
  | .group .., hlevel | .emptyArray .., hlevel | .array .., hlevel | .unary .., hlevel
  | .power .., hlevel | .between .., hlevel => absurd hlevel (by decide)
  | @Derives.binary _ _ operator sign _ _ _ _ right hoperator htighter hspelled hlone hleft hright,
      hlevel => by
    obtain ⟨left', hleft'⟩ := hleft.equation hlevel
    have hlonger := Derives.binary hoperator htighter hspelled hlone hleft' hright
    exact ⟨.binary operator left' right sign.position, by simpa using hlonger⟩
  | @Derives.and _ _ _ right atAnd hleft hright, _ => by
    obtain ⟨left', hleft'⟩ := hleft.equation (by decide)
    have hlonger := Derives.and atAnd hleft' hright
    exact ⟨.logical .and left' right atAnd, by simpa using hlonger⟩
  | @Derives.or _ _ _ right atOr hleft hright, _ => by
    obtain ⟨left', hleft'⟩ := hleft.equation (by decide)
    have hlonger := Derives.or atOr hleft' hright
    exact ⟨.logical .or left' right atOr, by simpa using hlonger⟩
  | @Derives.operand level _ _ tree htighter h, hlevel => by
    have ih := h.equation
    obtain ⟨-, rfl⟩ := Level.tighter?_eq_some_iff.mp htighter
    rcases hlevel.eq_or_operand with heq | hoperand
    · -- here the tokens become the right operand
      subst heq
      have hmember : Derives .equality chain target :=
        (Derives.member hchain).of_within (by decide)
      exact ⟨.binary .equal target tree position,
        hmember.binary_of_token .equal ⟨.symbol .assign, position⟩ (by decide) rfl
          (assign_spelled position) (by simp) h⟩
    · obtain ⟨tree', htree'⟩ := ih hoperand
      exact ⟨tree', .of_operand htree'⟩

/-- A member chain and a `=` may be taken off a phrase of equality or a looser level. -/
theorem Derives.of_equation {level : Level} {tokens : List Lexeme} {tree : Expr} :
    Derives level tokens tree → Level.equality.Within level →
      ∀ rest, tokens = chain ++ ⟨.symbol .assign, position⟩ :: rest →
        ∃ tree', Derives level rest tree'
  | .number .., hlevel | .text .., hlevel | .truth .., hlevel | .member _, hlevel
  | .group .., hlevel | .emptyArray .., hlevel | .array .., hlevel | .unary .., hlevel
  | .power .., hlevel | .between .., hlevel => absurd hlevel (by decide)
  | @Derives.binary _ _ operator sign more before after _ right hoperator htighter hspelled hlone
      hleft hright, hlevel => by
    have ih := hleft.of_equation hlevel
    intro rest hrest
    have hsplit : before ++ sign :: (more ++ after) =
        chain ++ ⟨.symbol .assign, position⟩ :: rest := by simpa using hrest
    rcases hchain.split_sign position (BinaryOperator.not_path_token hspelled) hsplit with
      ⟨rfl, rfl⟩ | ⟨between, rfl, rfl⟩
    · -- the sign is a token of its own, so all behind it is the right operand
      obtain rfl : more = [] := by
        rcases BinaryOperator.spelled_cases hspelled with
          ⟨_, _, heq, -⟩ | ⟨-, _, heq⟩ | ⟨-, _, _, heq⟩ <;> simp_all
      exact ⟨_, .operand htighter hright⟩
    · obtain ⟨left', hleft'⟩ := ih between rfl
      have hshorter := Derives.binary hoperator htighter hspelled hlone hleft' hright
      exact ⟨.binary operator left' right sign.position, by simpa using hshorter⟩
  | .and atAnd hleft hright, _ => by
    have ih := hleft.of_equation (by decide)
    intro rest hrest
    rcases hchain.split_sign position (by simp) hrest with ⟨heq, -⟩ | ⟨between, rfl, rfl⟩
    · simp at heq
    · obtain ⟨left', hleft'⟩ := ih between rfl
      exact ⟨_, .and atAnd hleft' hright⟩
  | .or atOr hleft hright, _ => by
    have ih := hleft.of_equation (by decide)
    intro rest hrest
    rcases hchain.split_sign position (by simp) hrest with ⟨heq, -⟩ | ⟨between, rfl, rfl⟩
    · simp at heq
    · obtain ⟨left', hleft'⟩ := ih between rfl
      exact ⟨_, .or atOr hleft' hright⟩
  | @Derives.operand level _ _ _ htighter h, hlevel => by
    have ih := h.of_equation
    obtain ⟨-, rfl⟩ := Level.tighter?_eq_some_iff.mp htighter
    intro rest hrest
    rcases hlevel.eq_or_operand with heq | hoperand
    · -- the sign would stand in a phrase of a tighter level
      subst heq hrest
      exact absurd h (hchain.not_relational position rest _)
    · obtain ⟨tree', htree'⟩ := ih hoperand rest hrest
      exact ⟨tree', .of_operand htree'⟩

/-- **What stands behind a member chain and a `=` is a condition if and only if the whole is.** -/
theorem sentence_equation_iff {rest : List Lexeme} :
    (∃ tree, Sentence (chain ++ ⟨.symbol .assign, position⟩ :: rest) tree) ↔
      ∃ value, Sentence rest value := by
  constructor
  · rintro ⟨tree, h⟩
    exact Derives.of_equation hchain position h (by decide) rest rfl
  · rintro ⟨value, h⟩
    exact Derives.equation hchain position h (by decide)

end Equation

end SurveyLogic
