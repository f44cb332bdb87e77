import SurveyLogic.Proofs.Errors.Guards
import SurveyLogic.Proofs.Grammar.Positions
import SurveyLogic.Proofs.Printing.Written

/-!
# Errors point at tokens

Every node of a derived tree carries the position of its own token: the sign of an operation, the
dot of a member access, the `is` of a range test (`Expr.MarkedIn`, `Expr.marked_of_derives`).  An
error of an evaluation has the position of the node that raises it, and so that of the token to
blame.  An error of a parser has the position of some token (`Expr.position_of_parse_error`), and an
error of scanning that of a quote.
-/

namespace SurveyLogic

namespace Expr

/-! ## Nodes and their tokens -/

/-- The node's own token stands among the tokens, at the node's position. -/
def MarkedIn (tokens : List Lexeme) : Expr → Prop
  | number value position => ⟨.number value, position⟩ ∈ tokens
  | text value position => ⟨.text value, position⟩ ∈ tokens
  | truth value position => ⟨.truth value, position⟩ ∈ tokens
  | name word position => ⟨.name word, position⟩ ∈ tokens
  | member _ property position =>
    ∃ after, [⟨.symbol .dot, position⟩, ⟨.name property, after⟩] <:+: tokens
  | array _ position => ⟨.symbol .openBracket, position⟩ ∈ tokens
  | unary operator _ position => ∃ token ∈ operator.spellings, ⟨token, position⟩ ∈ tokens
  | binary operator _ _ position => ∃ token more,
    (⟨token, position⟩ :: more : List Lexeme).map (·.token) ∈ operator.spellings ∧
      ⟨token, position⟩ :: more <:+: tokens
  | logical operator _ _ position => ⟨operator.token, position⟩ ∈ tokens
  | group _ position => ⟨.symbol .openParen, position⟩ ∈ tokens
  | assign _ _ position => ⟨.symbol .assign, position⟩ ∈ tokens
  | between _ _ _ position =>
    ∃ after, [⟨.keyword .is, position⟩, ⟨.name "between", after⟩] <:+: tokens

variable {tokens few : List Lexeme} {tree : Expr}

theorem MarkedIn.mono (h : tree.MarkedIn few) (hwithin : few <:+: tokens) :
    tree.MarkedIn tokens := by
  have hmem : ∀ {lexeme}, lexeme ∈ few → lexeme ∈ tokens := fun hlexeme => hwithin.subset hlexeme
  cases tree with
  | number | text | truth | name | array | logical | group | assign => exact hmem h
  -- signs of two tokens have to stay next to each other
  | member | between =>
      obtain ⟨after, hsign⟩ := h
      exact ⟨after, hsign.trans hwithin⟩
  | unary =>
      obtain ⟨token, hspelled, hsign⟩ := h
      exact ⟨token, hspelled, hmem hsign⟩
  | binary =>
      obtain ⟨token, more, hspelled, hsign⟩ := h
      exact ⟨token, more, hspelled, hsign.trans hwithin⟩

/-- Every node of the tree stands at its own token. -/
def Marked (tokens : List Lexeme) (tree : Expr) : Prop :=
  ∀ node, PartOf node tree → node.MarkedIn tokens

theorem Marked.mono (h : tree.Marked few) (hwithin : few <:+: tokens) : tree.Marked tokens :=
  fun node hnode => (h node hnode).mono hwithin

theorem Marked.of_parts (hroot : tree.MarkedIn tokens)
    (hparts : ∀ part ∈ tree.parts, part.Marked tokens) : tree.Marked tokens := by
  intro node hnode
  cases hnode with
  | self => exact hroot
  | inside hmem hpart => exact hparts _ hmem node hpart

theorem marked_leaf (hparts : tree.parts = []) (hroot : tree.MarkedIn tokens) :
    tree.Marked tokens := by
  refine .of_parts hroot fun part hpart => ?_
  rw [hparts] at hpart
  contradiction

theorem marked_single {part : Expr} (hparts : tree.parts = [part])
    (hroot : tree.MarkedIn tokens) (hpart : part.Marked few) (hwithin : few <:+: tokens) :
    tree.Marked tokens := by
  refine .of_parts hroot ?_
  rw [hparts]
  exact List.forall_mem_singleton.mpr (hpart.mono hwithin)

theorem marked_pair {left right : Expr} {before after : List Lexeme}
    (hparts : tree.parts = [left, right]) (hroot : tree.MarkedIn tokens)
    (hleft : left.Marked before) (hbefore : before <:+: tokens)
    (hright : right.Marked after) (hafter : after <:+: tokens) : tree.Marked tokens := by
  refine .of_parts hroot ?_
  rw [hparts]
  exact List.forall_mem_cons.mpr
    ⟨hleft.mono hbefore, List.forall_mem_singleton.mpr (hright.mono hafter)⟩

/-! ## Derived trees -/

/-- What stands behind a sign stands in the whole. -/
theorem infix_behind {front rest : List Lexeme} {sign : Lexeme} : rest <:+: front ++ sign :: rest :=
  (List.infix_cons List.infix_rfl).trans List.infix_append_right

theorem marked_of_derivesMember (h : DerivesMember tokens tree) : tree.Marked tokens := by
  induction h with
  | name word position => exact marked_leaf rfl (List.mem_singleton_self _)
  | @property front object property position after _ ih =>
      exact marked_single rfl ⟨after, List.infix_append_right⟩ ih List.infix_append_left

mutual

/-- **Every node of a derived tree stands at its own token.** -/
theorem marked_of_derives {level : Level} {tokens : List Lexeme} {tree : Expr} :
    Derives level tokens tree → tree.Marked tokens
  | .number .. | .text .. | .truth .. => marked_leaf rfl (List.mem_singleton_self _)
  | .emptyArray .. => marked_leaf rfl List.mem_cons_self
  | .member h => marked_of_derivesMember h
  | .group _ close h =>
    marked_single rfl List.mem_cons_self (marked_of_derives h) ⟨[_], [_], rfl⟩
  | .array _ close h =>
    .of_parts List.mem_cons_self fun part hpart =>
      (marked_of_derivesAll h part hpart).mono ⟨[_], [_], rfl⟩
  | .unary hsign h =>
    marked_single rfl ⟨_, hsign, List.mem_cons_self⟩ (marked_of_derives h)
      (List.infix_cons List.infix_rfl)
  | @Derives.power before after base exponent position hleft hright =>
    marked_pair rfl ⟨.symbol .caret, [], by simp [BinaryOperator.spellings], before, after, by simp⟩
      (marked_of_derives hleft) List.infix_append_left
      (marked_of_derives hright) infix_behind
  | @Derives.binary level inner operator sign more before after left right _ _ hspelled _ hleft
      hright =>
    marked_pair rfl ⟨sign.token, more, hspelled, before, after, rfl⟩
      (marked_of_derives hleft) ⟨[], sign :: more ++ after, by simp⟩
      (marked_of_derives hright) List.infix_append_right
  | @Derives.between before first second subject lower upper position atBetween atAnd hsubject
      hlower hupper => by
    refine .of_parts ⟨atBetween, before, first ++ ⟨.keyword .and, atAnd⟩ :: second, by simp⟩ ?_
    -- subject and lower bound stand in front of the `and`, the upper bound behind it
    have hfront : before ++ ⟨.keyword .is, position⟩ :: ⟨.name "between", atBetween⟩ :: first <:+:
        before ++ ⟨.keyword .is, position⟩ :: ⟨.name "between", atBetween⟩ :: first ++
          ⟨.keyword .and, atAnd⟩ :: second := List.infix_append_left
    refine List.forall_mem_cons.mpr ⟨?_, List.forall_mem_cons.mpr ⟨?_,
      List.forall_mem_singleton.mpr ?_⟩⟩
    · exact (marked_of_derives hsubject).mono (List.infix_append_left.trans hfront)
    · have hfirst : first <:+: before ++ ⟨.keyword .is, position⟩ ::
          ⟨.name "between", atBetween⟩ :: first :=
        (List.infix_cons List.infix_rfl).trans infix_behind
      exact (marked_of_derives hlower).mono (hfirst.trans hfront)
    · exact (marked_of_derives hupper).mono infix_behind
  | @Derives.and before after left right position hleft hright =>
    marked_pair rfl (by simp [MarkedIn, LogicalOperator.token])
      (marked_of_derives hleft) List.infix_append_left
      (marked_of_derives hright) infix_behind
  | @Derives.or before after left right position hleft hright =>
    marked_pair rfl (by simp [MarkedIn, LogicalOperator.token])
      (marked_of_derives hleft) List.infix_append_left
      (marked_of_derives hright) infix_behind
  | .operand _ h => marked_of_derives h

theorem marked_of_derivesAll {tokens : List Lexeme} {trees : List Expr} :
    DerivesAll tokens trees → ∀ tree ∈ trees, tree.Marked tokens
  | .one h => List.forall_mem_singleton.mpr (marked_of_derives h)
  | @DerivesAll.more first others tree trees position h hothers =>
    List.forall_mem_cons.mpr ⟨(marked_of_derives h).mono List.infix_append_left,
      fun other hother => (marked_of_derivesAll hothers other hother).mono infix_behind⟩

end

theorem BindingSentence.marked (h : BindingSentence tokens tree) : tree.Marked tokens := by
  cases h with
  | assign position htarget hvalue =>
      exact marked_pair rfl (by simp [MarkedIn]) (marked_of_derivesMember htarget)
        List.infix_append_left (marked_of_derives hvalue) infix_behind
  | condition _ hsentence => exact marked_of_derives hsentence

end Expr

/-! ## Tokens of a source -/

/-- A scan of the source finds the token at the byte offset, and there the source spells it. -/
structure TokenAt (source : String) (token : Token) (position : Nat) : Prop where
  scanned : ∃ lexemes, Lexeme.scan source = .ok lexemes ∧ ⟨token, position⟩ ∈ lexemes
  spelled : ∃ spelling, token.Spelled spelling ∧ SliceAt source.toList position spelling

theorem tokenAt_of_mem {source : String} {lexemes : List Lexeme} {token : Token} {position : Nat}
    (hscan : Lexeme.scan source = .ok lexemes) (hmem : ⟨token, position⟩ ∈ lexemes) :
    TokenAt source token position := by
  refine ⟨⟨lexemes, hscan, hmem⟩, ?_⟩
  obtain ⟨hcut, rfl⟩ := Lexeme.cut_of_scan hscan
  rw [← Slice.map_lexeme_ofPieces] at hmem
  obtain ⟨slice, hslice, hlexeme⟩ := List.mem_map.mp hmem
  have hmunched := Slice.munched hcut
  have hspelled := hmunched.spelled slice hslice
  have hsliced := hmunched.sliced slice hslice
  rw [hlexeme] at hspelled hsliced
  exact ⟨slice.chars, hspelled, hsliced⟩

/-- The `is` of a range test, right in front of its `between`. -/
structure RangeAt (source : String) (position : Nat) : Prop where
  word : TokenAt source (.keyword .is) position
  between : ∃ lexemes after, Lexeme.scan source = .ok lexemes ∧
    [⟨.keyword .is, position⟩, ⟨.name "between", after⟩] <:+: lexemes

/-! ## Errors of evaluation -/

/-- The error has the position of a token in the source, and of one that is to blame for it. -/
def RuntimeError.PointsInto (source : String) : RuntimeError → Prop
  | undefinedVariable word position => TokenAt source (.name word) position
  | divisionByZero position => TokenAt source (.symbol .slash) position
  | kindMismatch (.arithmetic operator _ _) position =>
    ∃ sign ∈ [Symbol.plus, .minus, .star, .slash, .caret], sign.spelling = operator.spelling ∧
      TokenAt source (.symbol sign) position
  | kindMismatch (.notANumber _) position => TokenAt source (.symbol .minus) position
  | kindMismatch (.ordering _ _) position =>
    (∃ sign ∈ [Symbol.less, .lessEqual, .greater, .greaterEqual],
      TokenAt source (.symbol sign) position) ∨ RangeAt source position
  | unsupportedOperator _ _ | unsupportedTarget _ => False

namespace BinaryOperator

/-- An arithmetic operator is written in one way. -/
theorem exists_sign_of_arithmetic : ∀ operator ∈ arithmetic,
    ∃ sign ∈ [Symbol.plus, .minus, .star, .slash, .caret], sign.spelling = operator.spelling ∧
      operator.spellings = [[.symbol sign]] := by
  decide

theorem exists_sign_of_orderings : ∀ operator ∈ orderings,
    ∃ sign ∈ [Symbol.less, .lessEqual, .greater, .greaterEqual],
      operator.spellings = [[.symbol sign]] := by
  decide

end BinaryOperator

namespace Expr

theorem mem_of_markedIn_binary {operator : BinaryOperator} {left right : Expr} {position : Nat}
    {tokens : List Lexeme} {sign : Symbol} (hspellings : operator.spellings = [[.symbol sign]])
    (h : (binary operator left right position).MarkedIn tokens) :
    ⟨.symbol sign, position⟩ ∈ tokens := by
  obtain ⟨token, more, hspelled, hwithin⟩ := h
  rw [hspellings, List.mem_singleton] at hspelled
  obtain ⟨rfl, -⟩ := List.cons.inj hspelled
  exact hwithin.subset List.mem_cons_self

/-- What a node raises points at the token at which the node stands. -/
theorem Raises.pointsInto {source : String} {lexemes : List Lexeme} {node : Expr}
    {error : RuntimeError} (hscan : Lexeme.scan source = .ok lexemes)
    (hmarked : node.MarkedIn lexemes) (h : node.Raises error) (hguard : ¬ error.Guard) :
    error.PointsInto source := by
  cases h with
  | undefined word position => exact tokenAt_of_mem hscan hmarked
  | division left right position =>
      exact tokenAt_of_mem hscan (mem_of_markedIn_binary rfl hmarked)
  | negation operand position found =>
      obtain ⟨token, hspelled, hmem⟩ := hmarked
      obtain rfl := List.mem_singleton.mp hspelled
      exact tokenAt_of_mem hscan hmem
  | arithmetic left right position first second hoperator =>
      obtain ⟨sign, hsign, hspelling, hspellings⟩ :=
        BinaryOperator.exists_sign_of_arithmetic _ hoperator
      exact ⟨sign, hsign, hspelling,
        tokenAt_of_mem hscan (mem_of_markedIn_binary hspellings hmarked)⟩
  | ordering left right position first second hoperator =>
      obtain ⟨sign, hsign, hspellings⟩ := BinaryOperator.exists_sign_of_orderings _ hoperator
      exact Or.inl ⟨sign, hsign, tokenAt_of_mem hscan (mem_of_markedIn_binary hspellings hmarked)⟩
  | range subject lower upper position first second =>
      obtain ⟨after, hwithin⟩ := hmarked
      exact Or.inr ⟨tokenAt_of_mem hscan (hwithin.subset List.mem_cons_self),
        lexemes, after, hscan, hwithin⟩
  | target value position hpath => exact absurd trivial hguard

end Expr

namespace Compiled

variable {source : String}

theorem marked_of_accepted {compiled : Compiled}
    (h : condition source = .ok compiled ∨ binding source = .ok compiled) :
    ∃ lexemes, Lexeme.scan source = .ok lexemes ∧ compiled.tree.Marked lexemes := by
  rcases h with hcondition | hbinding
  · obtain ⟨lexemes, hscan, hparse⟩ := parse_of_condition hcondition
    exact ⟨lexemes, hscan, Expr.marked_of_derives (Expr.sentence_of_parse hparse).1⟩
  · obtain ⟨lexemes, hscan, hparse⟩ := parseBinding_of_binding hbinding
    exact ⟨lexemes, hscan, (Expr.bindingSentence_of_parseBinding hparse).1.marked⟩

theorem pointsInto_of_evaluate {compiled : Compiled} {env : Environment} {error : RuntimeError}
    (h : condition source = .ok compiled ∨ binding source = .ok compiled)
    (herror : (compiled.evaluate env).1 = .error error) : error.PointsInto source := by
  obtain ⟨lexemes, hscan, hmarked⟩ := marked_of_accepted h
  obtain ⟨node, hnode, hraises⟩ := Expr.failsOnly_eval compiled.tree env error herror
  have hguard : ¬ error.Guard :=
    Expr.not_guard_of_targetsNamed (assignsAtRoot_of_accepted h).targetsNamed herror
  exact hraises.pointsInto hscan (hmarked node hnode) hguard

end Compiled

/-! ## Errors of scanning and parsing -/

/-- The error has the position of a token in the source, or that of a quote without a partner. -/
def SyntaxError.PointsInto (source : String) : SyntaxError → Prop
  | unterminatedString position => ∃ before quote after,
    source.toList = before ++ quote :: after ∧ Unmatched quote after ∧ position = byteSize before
  | error => ∀ position ∈ error.position?, ∃ token, TokenAt source token position

theorem Compiled.pointsInto_of_rejected {source : String} {error : SyntaxError}
    (h : condition source = .error error ∨ binding source = .error error) :
    error.PointsInto source := by
  rcases scan_or_parse_of_rejected h with hscan | ⟨lexemes, hscan, hparse⟩
  · obtain ⟨before, quote, after, hsource, hunmatched, -, rfl⟩ :=
      (Lexeme.scan_eq_error_iff _ _).mp hscan
    exact ⟨before, quote, after, hsource, hunmatched, rfl⟩
  · have hposition : ∀ position ∈ error.position?, ∃ lexeme ∈ lexemes,
        lexeme.position = position := by
      rcases hparse with hparse | hparse
      · exact Expr.position_of_parse_error hparse
      · exact Expr.position_of_parseBinding_error hparse
    have htoken : ∀ position ∈ error.position?, ∃ token, TokenAt source token position := by
      intro position herror
      obtain ⟨lexeme, hmem, rfl⟩ := hposition position herror
      exact ⟨lexeme.token, tokenAt_of_mem hscan hmem⟩
    have hblamed := blamed_of_rejected hparse
    cases error with
    | unterminatedString => contradiction
    | _ => exact htoken

/-- **Errors point at tokens.**  When a source is rejected, in either mode, the position of the
error is the offset of a token of the source, or of the quote without a partner.  When a source that
is accepted fails in some environment, the position is the offset of the token to blame: the name
that is undefined, the `/` of a division by zero, the sign of an operation on values of the wrong
kind, or the `is` of a range test. -/
theorem errors_point_into_source :
    (∀ source error,
      Compiled.condition source = .error error ∨ Compiled.binding source = .error error →
      error.PointsInto source) ∧
    (∀ source compiled,
      Compiled.condition source = .ok compiled ∨ Compiled.binding source = .ok compiled →
      ∀ env error, (compiled.evaluate env).1 = .error error → error.PointsInto source) :=
  ⟨fun _ _ h => Compiled.pointsInto_of_rejected h,
    fun _ _ h _ _ herror => Compiled.pointsInto_of_evaluate h herror⟩

/-- A quote without a partner, a name too many, a division by zero, and a range test of a truth
value. -/
theorem errors_point_into_source_range :
    Compiled.condition "x 'y" = .error (.unterminatedString 2) ∧
    (SyntaxError.unterminatedString 2).PointsInto "x 'y" ∧
    Compiled.binding "a = 1 b" = .error (.trailingTokens (.name "b") 6) ∧
    (∃ token, TokenAt "a = 1 b" token 6) ∧
    (∃ compiled, Compiled.binding "a = 4 / 0" = .ok compiled ∧
      (compiled.evaluate .empty).1 = .error (.divisionByZero 6) ∧
      TokenAt "a = 4 / 0" (.symbol .slash) 6) ∧
    ∃ compiled, Compiled.condition "not true is between 1 and 2" = .ok compiled ∧
      (compiled.evaluate .empty).1 = .error (.kindMismatch (.ordering .number .truth) 9) ∧
      (RuntimeError.kindMismatch (.ordering .number .truth) 9).PointsInto
        "not true is between 1 and 2" := by
  obtain ⟨hrejected, haccepted⟩ := errors_point_into_source
  have hquote : Compiled.condition "x 'y" = .error (.unterminatedString 2) :=
    eq_error_of_seen (by decide +kernel)
  have htrailing : Compiled.binding "a = 1 b" = .error (.trailingTokens (.name "b") 6) :=
    eq_error_of_seen (by decide +kernel)
  have hdivision : (Compiled.binding "a = 4 / 0").toOption.map
      (fun compiled => error? (compiled.evaluate .empty).1) = some (some (.divisionByZero 6)) := by
    decide +kernel
  have hrange : (Compiled.condition "not true is between 1 and 2").toOption.map
      (fun compiled => error? (compiled.evaluate .empty).1) =
        some (some (.kindMismatch (.ordering .number .truth) 9)) := by
    decide +kernel
  refine ⟨hquote, hrejected _ _ (Or.inl hquote), htrailing,
    hrejected _ _ (Or.inr htrailing) 6 rfl, ?_, ?_⟩
  · obtain ⟨compiled, hcompiled, hseen⟩ := exists_of_toOption_map hdivision
    have herror := eq_error_of_seen hseen
    exact ⟨compiled, hcompiled, herror, haccepted _ _ (Or.inr hcompiled) _ _ herror⟩
  · obtain ⟨compiled, hcompiled, hseen⟩ := exists_of_toOption_map hrange
    have herror := eq_error_of_seen hseen
    exact ⟨compiled, hcompiled, herror, haccepted _ _ (Or.inl hcompiled) _ _ herror⟩

end SurveyLogic
