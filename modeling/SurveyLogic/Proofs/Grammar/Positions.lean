import SurveyLogic.Proofs.Grammar.Bindings
import SurveyLogic.Proofs.Printing.Normal
import SurveyLogic.Proofs.Scanning.Seam

/-!
# Positions pass through the parser

A parser puts the positions of its tokens into trees and errors and does nothing else with them.
So it does not matter whether positions are changed before or after reading: the outcome for tokens
at other positions is the outcome for the tokens, with its own positions changed in the same way.
`Reader.Natural` says this of a reader, each way of building one keeps it, and `Expr.parse_moved`
and `Expr.parseBinding_moved` say it of the two parsers.

Two things follow from the same equation, by the choice of the change.  Setting all positions to
zero shows that the outcome depends on the tokens alone, up to positions: `Expr.parse_congr`.  A
change that leaves the positions of the tokens as they are leaves the error as it is, so that its
position is one of these: `Expr.position_of_parse_error`.  Both hold of `Expr.parseBinding` too.
-/

namespace SurveyLogic

variable {α β γ δ : Type} {place : Nat → Nat}

/-! ## Outcomes with other positions -/

/-- The same outcome with other positions: `change` does it to what was read. -/
def outcomeMoved (place : Nat → Nat) (change : α → β) :
    Except SyntaxError α → Except SyntaxError β
  | .ok a => .ok (change a)
  | .error error => .error (error.moved place)

/-- Positions may be changed at each of two steps. -/
theorem outcomeMoved_bind {first : Except SyntaxError α} {next : α → Except SyntaxError β}
    {change : α → γ} {change' : β → δ} {next' : γ → Except SyntaxError δ}
    (h : ∀ a, next' (change a) = outcomeMoved place change' (next a)) :
    (outcomeMoved place change first >>= next') =
      outcomeMoved place change' (first >>= next) := by
  cases first with
  | error error => rfl
  | ok a => exact h a

/-- The same tree with its nodes at other positions. -/
abbrev Expr.moved (place : Nat → Nat) : Expr → Expr := relabel number place

theorem Expr.height_moved (tree : Expr) : (tree.moved place).height = tree.height :=
  height_relabel (fun _ _ => rfl) tree

theorem Expr.path?_moved : ∀ tree : Expr, (tree.moved place).path? = tree.path?
  | member object property _ => by
    simp only [moved, relabel, path?]
    rw [path?_moved object]
  | number _ _ | text _ _ | truth _ _ | name _ _ | array _ _ | unary _ _ _ | binary _ _ _ _
  | logical _ _ _ _ | group _ _ | assign _ _ _ | between _ _ _ _ => rfl

/-- What was read from the front of tokens at other positions. -/
def Reading.moved (place : Nat → Nat) (change : α → β) {tokens : List Lexeme}
    (reading : Reading α tokens) : Reading β (tokens.map (Lexeme.moved place)) :=
  ⟨change reading.result, reading.rest.map (Lexeme.moved place), by
    simpa using reading.shorter⟩

/-- What an `is` links does not depend on positions. -/
theorem Level.link?_is_moved (level : Level) (position : Nat) (tokens : List Lexeme) :
    level.link? ((⟨.keyword .is, position⟩ :: tokens : List Lexeme).map (Lexeme.moved place)) =
      (level.link? (⟨.keyword .is, position⟩ :: tokens)).map fun found =>
        (found.1, place found.2.1, found.2.2.map (Lexeme.moved place)) := by
  match tokens with
  | [] => cases level <;> rfl
  | ⟨next, atNext⟩ :: tokens =>
      rw [List.map_cons, List.map_cons]
      by_cases hlevel : level = .equality
      · subst hlevel
        by_cases hnot : next = .keyword .not
        · subst hnot
          rfl
        · simp [link?, Lexeme.moved, hnot]
      · by_cases hbetween : next = .name "between"
        · subst hbetween
          cases level <;> rfl
        · have hnone : ∀ position atNext tokens,
              level.link? (⟨.keyword .is, position⟩ :: ⟨next, atNext⟩ :: tokens) = none :=
            fun position atNext tokens => link?_is hlevel (by simpa using hbetween)
          simp only [Lexeme.moved, hnone, Option.map_none]

/-- Links and their positions, in front of tokens at other positions. -/
theorem Level.link?_moved (place : Nat → Nat) (level : Level) (tokens : List Lexeme) :
    level.link? (tokens.map (Lexeme.moved place)) =
      (level.link? tokens).map fun found =>
        (found.1, place found.2.1, found.2.2.map (Lexeme.moved place)) := by
  match tokens with
  | [] => cases level <;> rfl
  | ⟨token, position⟩ :: tokens =>
      rw [List.map_cons]
      cases hoperator : token.operator? with
      | some operator =>
          have hmoved : (Lexeme.moved place ⟨token, position⟩) = ⟨token, place position⟩ := rfl
          rw [hmoved, link?_operator hoperator, link?_operator hoperator]
          split <;> rfl
      | none =>
          cases token with
          | number | text | truth | name => cases level <;> rfl
          | symbol sign =>
              cases sign <;> first
                | contradiction
                | (cases level <;> rfl)
          | keyword word =>
              cases word with
              | and | or | not => cases level <;> rfl
              | contains | within => contradiction
              | is => exact link?_is_moved level position tokens

namespace Reader

variable {room : Nat} {deeper : Option (Level → Reader Expr)}

/-- It does not matter whether positions are changed before or after reading. -/
def Natural (place : Nat → Nat) (change : α → α) (read : Reader α) : Prop :=
  ∀ tokens, read (tokens.map (Lexeme.moved place)) =
    outcomeMoved place (Reading.moved place change) (read tokens)

/-- The readers with less room treat positions as they come. -/
def NaturalBelow (place : Nat → Nat) (deeper : Option (Level → Reader Expr)) : Prop :=
  ∀ read, deeper = some read → ∀ level, Natural place (Expr.moved place) (read level)

/-! ## Names, arrays and groups -/

theorem natural_expect (expected : Token) : Natural place id (expect expected) := by
  intro tokens
  match tokens with
  | [] => rfl
  | ⟨token, position⟩ :: rest =>
      have hexpect : ∀ (position : Nat) (rest : List Lexeme),
          expect expected (⟨token, position⟩ :: rest) =
            if token = expected then .ok (.first () _ rest)
            else .error (.unexpectedToken token (.token expected) position) := fun _ _ => rfl
      refine (hexpect (place position) (rest.map (Lexeme.moved place))).trans ?_
      rw [hexpect]
      split <;> rfl

theorem fit_moved (tree : Expr) (position : Nat) :
    fit room (tree.moved place) (place position) =
      outcomeMoved place (Expr.moved place) (fit room tree position) := by
  unfold fit
  rw [Expr.height_moved]
  split <;> rfl

theorem natural_descend (hbelow : NaturalBelow place deeper) (level : Level) (position : Nat)
    (tokens : List Lexeme) :
    descend deeper level (place position) (tokens.map (Lexeme.moved place)) =
      outcomeMoved place (Reading.moved place (Expr.moved place))
        (descend deeper level position tokens) := by
  cases hdeeper : deeper with
  | none => rfl
  | some read => exact hbelow read hdeeper level tokens

theorem property?_moved (place : Nat → Nat) (tokens : List Lexeme) :
    property? (tokens.map (Lexeme.moved place)) =
      outcomeMoved place (Option.map fun found =>
        (found.1, place found.2.1, found.2.2.map (Lexeme.moved place))) (property? tokens) := by
  match tokens with
  | [] => rfl
  | ⟨token, position⟩ :: rest =>
      by_cases hdot : token = .symbol .dot
      · subst hdot
        match rest with
        | [] => rfl
        | ⟨next, atNext⟩ :: rest => cases next <;> rfl
      · rw [List.map_cons, property?_of_undotted (by simpa [Lexeme.moved] using hdot),
          property?_of_undotted (by simpa using hdot)]
        rfl

theorem members_moved {whole : List Lexeme} (object : Reading Expr whole) :
    members room (object.moved place (Expr.moved place)) =
      outcomeMoved place (Reading.moved place (Expr.moved place)) (members room object) := by
  induction hlength : object.rest.length using Nat.strongRecOn generalizing object with
  | ind length ih =>
      have hmoved := property?_moved place object.rest
      cases hproperty : property? object.rest with
      | error error =>
          rw [hproperty] at hmoved
          rw [members_of_error hproperty, members_of_error hmoved]
          rfl
      | ok found =>
          rw [hproperty] at hmoved
          cases found with
          | none =>
              rw [members_of_none hproperty, members_of_none hmoved]
              rfl
          | some found =>
              obtain ⟨property, position, rest⟩ := found
              have hshorter := length_lt_of_property? hproperty
              rw [members_of_some hproperty, members_of_some hmoved]
              change (fit room (Expr.moved place (.member object.result property position))
                (place position) >>= _) = _
              rw [fit_moved]
              refine outcomeMoved_bind fun node => ?_
              exact ih rest.length (hlength ▸ hshorter) ⟨node, rest, _⟩ rfl

theorem natural_elements {read : Reader Expr} (h : Natural place (Expr.moved place) read) :
    Natural place (Expr.relabelAll .number place) (elements read) := by
  intro tokens
  induction hlength : tokens.length using Nat.strongRecOn generalizing tokens with
  | ind length ih =>
      rw [elements, elements, h tokens]
      refine outcomeMoved_bind fun first => ?_
      obtain ⟨result, rest, shorter⟩ := first
      match rest with
      | [] => rfl
      | ⟨token, position⟩ :: rest =>
          -- only behind a comma is anything read, and that from fewer tokens
          by_cases hcomma : token = .symbol .comma
          · subst hcomma
            rw [List.length_cons] at shorter
            change (elements read (rest.map (Lexeme.moved place)) >>= _) = _
            rw [ih rest.length (by omega) rest rfl]
            exact outcomeMoved_bind fun others => rfl
          · cases token with
            | number | text | truth | name | keyword => rfl
            | symbol sign => cases sign <;> first
                | contradiction
                | rfl

theorem primary_array_moved (hbelow : NaturalBelow place deeper) (position : Nat)
    (tokens : List Lexeme) :
    primary room deeper ((⟨.symbol .openBracket, position⟩ :: tokens).map (Lexeme.moved place)) =
      outcomeMoved place (Reading.moved place (Expr.moved place))
        (primary room deeper (⟨.symbol .openBracket, position⟩ :: tokens)) := by
  cases hdeeper : deeper with
  | none => rfl
  | some read =>
      by_cases hclose : ∃ close rest, tokens = ⟨.symbol .closeBracket, close⟩ :: rest
      · obtain ⟨close, rest, rfl⟩ := hclose
        rfl
      · have hopen : ∀ close rest, tokens ≠ ⟨.symbol .closeBracket, close⟩ :: rest :=
          fun close rest heq => hclose ⟨close, rest, heq⟩
        have hopen' : ∀ close rest, tokens.map (Lexeme.moved place) ≠
            ⟨.symbol .closeBracket, close⟩ :: rest := by
          intro close rest heq
          obtain ⟨⟨token, atToken⟩, more, rfl, hfirst, -⟩ := List.map_eq_cons_iff.mp heq
          obtain ⟨rfl, -⟩ := Lexeme.mk.inj hfirst
          exact hopen atToken more rfl
        rw [primary_array rfl hopen]
        refine (primary_array rfl hopen').trans ?_
        rw [natural_elements (hbelow read hdeeper .or)]
        exact outcomeMoved_bind fun inner => rfl

theorem natural_primary (hbelow : NaturalBelow place deeper) :
    Natural place (Expr.moved place) (primary room deeper) := by
  intro tokens
  match tokens with
  | [] => rfl
  | ⟨token, position⟩ :: tokens =>
      cases token with
      | number | text | truth | keyword => rfl
      | name word =>
          exact members_moved (.first (.name word position) ⟨.name word, position⟩ tokens)
      | symbol sign =>
          cases sign with
          | openParen =>
              rw [primary_group]
              refine (primary_group (place position) (tokens.map (Lexeme.moved place))).trans ?_
              rw [natural_descend hbelow]
              refine outcomeMoved_bind fun inner => ?_
              change (expect _ (inner.rest.map (Lexeme.moved place)) >>= _) = _
              rw [natural_expect]
              exact outcomeMoved_bind fun close => rfl
          | openBracket => exact primary_array_moved hbelow position tokens
          | dot | plus | minus | star | slash | caret | closeParen | closeBracket | comma | assign
          | equal | notEqual | lessEqual | greaterEqual | less | greater | bang => rfl

/-! ## Prefix operators and powers -/

theorem natural_unary (hbelow : NaturalBelow place deeper) :
    Natural place (Expr.moved place) (unary room deeper) := by
  intro tokens
  match tokens with
  | [] => rfl
  | sign :: tokens =>
      cases hsign : unaryOperator? sign.token with
      | some operator =>
          have hsign' : unaryOperator? (sign.moved place).token = some operator := hsign
          rw [unary_of_some hsign]
          refine (unary_of_some hsign' _).trans ?_
          change (descend deeper .unary (place sign.position) _ >>= _) = _
          rw [natural_descend hbelow]
          exact outcomeMoved_bind fun operand => rfl
      | none =>
          have hsign' : unaryOperator? (sign.moved place).token = none := hsign
          rw [unary_of_none hsign]
          refine (unary_of_none hsign' _).trans ?_
          exact natural_primary hbelow (sign :: tokens)

theorem natural_power (hbelow : NaturalBelow place deeper) :
    Natural place (Expr.moved place) (power room deeper) := by
  intro tokens
  unfold power
  dsimp only
  rw [natural_unary hbelow]
  refine outcomeMoved_bind fun base => ?_
  obtain ⟨result, rest, shorter⟩ := base
  match rest with
  | [] => rfl
  | ⟨token, position⟩ :: rest =>
      by_cases hcaret : token = .symbol .caret
      · subst hcaret
        change (descend deeper .power (place position) (rest.map (Lexeme.moved place)) >>= _) = _
        rw [natural_descend hbelow]
        refine outcomeMoved_bind fun exponent => ?_
        change (fit room (Expr.moved place (.binary .power result exponent.result position))
          (place position) >>= _) = _
        rw [fit_moved]
        exact outcomeMoved_bind fun node => rfl
      · cases token with
        | number | text | truth | name | keyword => rfl
        | symbol sign => cases sign <;> first
            | contradiction
            | rfl

/-! ## Chains -/

theorem linked_moved {operand operand' : Reader Expr}
    (h : ∀ tokens, operand' (tokens.map (Lexeme.moved place)) =
      outcomeMoved place (Reading.moved place (Expr.moved place)) (operand tokens))
    (link : Link) (left : Expr) (position : Nat) (tokens : List Lexeme) :
    linked link operand' (left.moved place) (place position) (tokens.map (Lexeme.moved place)) =
      outcomeMoved place (Reading.moved place (Expr.moved place))
        (linked link operand left position tokens) := by
  unfold linked
  rw [h]
  refine outcomeMoved_bind fun first => ?_
  cases link with
  | logical operator => rfl
  | binary operator => rfl
  | range =>
      change (expect _ (first.rest.map (Lexeme.moved place)) >>= _) = _
      rw [natural_expect]
      refine outcomeMoved_bind fun and => ?_
      change (operand' (and.rest.map (Lexeme.moved place)) >>= _) = _
      rw [h]
      exact outcomeMoved_bind fun upper => rfl

theorem links_moved (hbelow : NaturalBelow place deeper) (level : Level) {whole : List Lexeme}
    (left : Reading Expr whole) :
    links level room deeper (left.moved place (Expr.moved place)) =
      outcomeMoved place (Reading.moved place (Expr.moved place))
        (links level room deeper left) := by
  induction hlength : left.rest.length using Nat.strongRecOn generalizing left with
  | ind length ih =>
      have hmoved : level.link? (left.moved place (Expr.moved place)).rest = _ :=
        Level.link?_moved place level left.rest
      cases hlink : level.link? left.rest with
      | none =>
          rw [hlink] at hmoved
          rw [links_of_none hlink]
          exact links_of_none hmoved
      | some found =>
          -- the same link is found at its new place, and its turn of the loop is three steps
          obtain ⟨link, position, tokens⟩ := found
          have hshorter := Level.length_lt_of_link? hlink
          rw [hlink] at hmoved
          rw [links_of_some hlink]
          refine (links_of_some hmoved).trans ?_
          have hlinked := linked_moved (natural_descend hbelow level.operand position) link
            left.result position tokens
          refine (congrArg (· >>= _) hlinked).trans (outcomeMoved_bind fun joined => ?_)
          change (fit room (joined.result.moved place) (place position) >>= _) = _
          rw [fit_moved]
          refine outcomeMoved_bind fun node => ?_
          have hjoined := joined.shorter
          exact ih joined.rest.length (by omega) (joined.within node _) rfl

theorem natural_chain (hbelow : NaturalBelow place deeper) (level : Level)
    {operand : Reader Expr} (hoperand : Natural place (Expr.moved place) operand) :
    Natural place (Expr.moved place) (chain level room deeper operand) := by
  intro tokens
  unfold chain
  rw [hoperand]
  exact outcomeMoved_bind fun left => links_moved hbelow level left

/-! ## All levels -/

theorem natural_ofLevel (hbelow : NaturalBelow place deeper) (level : Level) :
    Natural place (Expr.moved place) (ofLevel room deeper level) := by
  induction level using Level.chain_induction with
  | hunary =>
      rw [ofLevel_unary]
      exact natural_unary hbelow
  | hpower =>
      rw [ofLevel_power]
      exact natural_power hbelow
  | hchain level hunary hpower ih =>
      rw [ofLevel_chain hunary hpower]
      exact natural_chain hbelow level ih

/-- **Every reader treats positions as they come.** -/
theorem natural_withRoom (room : Nat) (level : Level) :
    Natural place (Expr.moved place) (withRoom room level) := by
  induction room using Nat.strongRecOn generalizing level with
  | ind room ih =>
      rw [withRoom_eq]
      refine natural_ofLevel ?_ level
      intro read hread
      by_cases hroom : 2 ≤ room
      · rw [below_of_le hroom] at hread
        obtain rfl := Option.some.inj hread
        exact ih (room - 1) (by omega)
      · rw [below_of_lt hroom] at hread
        contradiction

end Reader

/-! ## The two parsers -/

namespace Expr

theorem finish_moved {tokens : List Lexeme} (reading : Reading Expr tokens) :
    finish (reading.moved place (Expr.moved place)) =
      outcomeMoved place (Expr.moved place) (finish reading) := by
  obtain ⟨result, rest, shorter⟩ := reading
  cases rest <;> rfl

theorem parse_moved (place : Nat → Nat) (tokens : List Lexeme) :
    parse (tokens.map (Lexeme.moved place)) =
      outcomeMoved place (Expr.moved place) (parse tokens) := by
  unfold parse
  rw [Reader.natural_withRoom]
  exact outcomeMoved_bind finish_moved

theorem assignSign?_moved (place : Nat → Nat) (tokens : List Lexeme) :
    assignSign? (tokens.map (Lexeme.moved place)) =
      (assignSign? tokens).map fun found =>
        (place found.1, found.2.map (Lexeme.moved place)) := by
  fun_induction assignSign? tokens with
  | case1 atDot property atName tokens ih => exact ih
  | case2 position tokens => rfl
  -- neither a property nor the sign, which the first two tokens show
  | case3 tokens hdot hassign =>
      cases tokens with
      | nil => rfl
      | cons first rest =>
          obtain ⟨token, position⟩ := first
          cases token with
          | number | text | truth | name | keyword => rfl
          | symbol sign =>
              cases sign with
              | assign => exact absurd rfl (hassign position rest)
              | dot =>
                  cases rest with
                  | nil => rfl
                  | cons second rest =>
                      obtain ⟨next, atNext⟩ := second
                      cases next with
                      | name property => exact absurd rfl (hdot position property atNext rest)
                      | number | text | truth | keyword | symbol => rfl
              | plus | minus | star | slash | caret | openParen | closeParen | openBracket
              | closeBracket | comma | equal | notEqual | lessEqual | greaterEqual | less
              | greater | bang => rfl

theorem position_moved (tree : Expr) : (tree.moved place).position = place tree.position := by
  cases tree <;> rfl

theorem assignment_moved (target value : Expr) (position : Nat) :
    assignment (target.moved place) (value.moved place) (place position) =
      outcomeMoved place (Expr.moved place) (assignment target value position) := by
  unfold assignment
  rw [path?_moved, position_moved]
  split <;> rfl

section Name

variable {word : String} {start : Nat} {tokens : List Lexeme}

theorem parseBinding_of_none (h : assignSign? tokens = none) :
    parseBinding (⟨.name word, start⟩ :: tokens) = parse (⟨.name word, start⟩ :: tokens) := by
  unfold parseBinding
  dsimp only
  rw [h]

theorem parseBinding_of_some {position : Nat} {rest : List Lexeme}
    (h : assignSign? tokens = some (position, rest)) :
    parseBinding (⟨.name word, start⟩ :: tokens) =
      Reader.members (maxHeight - 1) (.first (.name word start) ⟨.name word, start⟩ tokens) >>=
        fun target => Reader.withRoom (maxHeight - 1) .or rest >>= fun value =>
          assignment target.result value.result position >>= fun tree =>
            finish (value.within tree (Nat.le_refl _)) := by
  unfold parseBinding
  dsimp only
  rw [h]

end Name

/-- **Positions may be changed before or after reading a binding.** -/
theorem parseBinding_moved (place : Nat → Nat) (tokens : List Lexeme) :
    parseBinding (tokens.map (Lexeme.moved place)) =
      outcomeMoved place (Expr.moved place) (parseBinding tokens) := by
  have hparse := parse_moved place tokens
  match tokens with
  | [] => exact hparse
  | ⟨token, start⟩ :: tokens =>
      cases token with
      | number | text | truth | keyword | symbol => exact hparse
      | name word =>
          have hmoved := assignSign?_moved place tokens
          cases hsign : assignSign? tokens with
          | none =>
              rw [hsign] at hmoved
              rw [parseBinding_of_none hsign, ← hparse]
              exact parseBinding_of_none hmoved
          | some found =>
              obtain ⟨position, rest⟩ := found
              rw [hsign] at hmoved
              -- target, value and node come one after the other, each at its new place
              rw [parseBinding_of_some hsign]
              refine (parseBinding_of_some hmoved).trans ?_
              have htarget : Reader.members (maxHeight - 1)
                  (.first (.name word (place start)) ⟨.name word, place start⟩
                    (tokens.map (Lexeme.moved place))) = _ :=
                Reader.members_moved (.first (.name word start) ⟨.name word, start⟩ tokens)
              rw [htarget]
              refine outcomeMoved_bind fun target => ?_
              rw [Reader.natural_withRoom]
              refine outcomeMoved_bind fun value => ?_
              have hassignment : assignment (target.result.moved place)
                  (value.result.moved place) (place position) = _ :=
                assignment_moved target.result value.result position
              refine (congrArg (· >>= _) hassignment).trans (outcomeMoved_bind fun tree => ?_)
              exact finish_moved (value.within tree (Nat.le_refl _))

end Expr

/-! ## The tokens alone -/

/-- Two outcomes that differ at most in positions: trees equal up to them, or the same error. -/
def SameOutcome : Except SyntaxError Expr → Except SyntaxError Expr → Prop
  | .ok a, .ok b => a.sameStructure b = true
  | .error error, .error error' =>
    error.moved (fun _ => 0) = error'.moved fun _ => 0
  | _, _ => False

theorem sameOutcome_of_moved_eq {a b : Except SyntaxError Expr}
    (h : outcomeMoved (fun _ => 0) Expr.bare a = outcomeMoved (fun _ => 0) Expr.bare b) :
    SameOutcome a b := by
  cases a <;> cases b
  · exact Except.error.inj h
  · contradiction
  · contradiction
  · exact (Expr.sameStructure_iff _ _).mpr (Except.ok.inj h)

theorem Lexeme.map_moved_zero {as bs : List Lexeme} (h : as.map (·.token) = bs.map (·.token)) :
    as.map (Lexeme.moved fun _ => 0) = bs.map (Lexeme.moved fun _ => 0) := by
  have hzero : ∀ lexemes : List Lexeme, lexemes.map (Lexeme.moved fun _ => 0) =
      (lexemes.map (·.token)).map (⟨·, 0⟩) := fun lexemes => by
    rw [List.map_map]
    rfl
  rw [hzero, hzero, h]

/-- A parser that treats positions as they come answers the same for the same tokens. -/
theorem sameOutcome_of_natural {parser : List Lexeme → Except SyntaxError Expr}
    (hmoved : ∀ tokens, parser (tokens.map (Lexeme.moved fun _ => 0)) =
      outcomeMoved (fun _ => 0) Expr.bare (parser tokens))
    {as bs : List Lexeme} (h : as.map (·.token) = bs.map (·.token)) :
    SameOutcome (parser as) (parser bs) := by
  refine sameOutcome_of_moved_eq ?_
  rw [← hmoved, ← hmoved, Lexeme.map_moved_zero h]

theorem Expr.parse_congr {as bs : List Lexeme} (h : as.map (·.token) = bs.map (·.token)) :
    SameOutcome (parse as) (parse bs) :=
  sameOutcome_of_natural (parse_moved _) h

theorem Expr.parseBinding_congr {as bs : List Lexeme}
    (h : as.map (·.token) = bs.map (·.token)) :
    SameOutcome (parseBinding as) (parseBinding bs) :=
  sameOutcome_of_natural (parseBinding_moved _) h

/-! ## Positions of errors -/

theorem SyntaxError.position?_moved (place : Nat → Nat) (error : SyntaxError) :
    (error.moved place).position? = error.position?.map place := by
  cases error <;> rfl

/-- A parser that treats positions as they come blames the position of a token. -/
theorem position_of_natural {parser : List Lexeme → Except SyntaxError Expr}
    (hmoved : ∀ place tokens, parser (tokens.map (Lexeme.moved place)) =
      outcomeMoved place (Expr.moved place) (parser tokens))
    {tokens : List Lexeme} {error : SyntaxError} (h : parser tokens = .error error) :
    ∀ position ∈ error.position?, ∃ lexeme ∈ tokens, lexeme.position = position := by
  intro position hposition
  refine Classical.byContradiction fun hnone => ?_
  -- a change that nothing but the error could notice
  let place : Nat → Nat := fun p => if p = position then p + 1 else p
  have hsame : tokens.map (Lexeme.moved place) = tokens := by
    refine (List.map_congr_left fun lexeme hlexeme => ?_).trans (List.map_id tokens)
    have hother : lexeme.position ≠ position := fun heq => hnone ⟨lexeme, hlexeme, heq⟩
    simp [Lexeme.moved, place, hother]
  have hkept := hmoved place tokens
  rw [hsame, h] at hkept
  have herror : error.position? = (error.moved place).position? :=
    congrArg SyntaxError.position? (Except.error.inj hkept)
  rw [SyntaxError.position?_moved, hposition] at herror
  have hplace : place position = position + 1 := if_pos rfl
  rw [Option.map_some, hplace] at herror
  exact absurd (Option.some.inj herror) (by omega)

theorem Expr.position_of_parse_error {tokens : List Lexeme} {error : SyntaxError}
    (h : parse tokens = .error error) :
    ∀ position ∈ error.position?, ∃ lexeme ∈ tokens, lexeme.position = position :=
  position_of_natural parse_moved h

theorem Expr.position_of_parseBinding_error {tokens : List Lexeme} {error : SyntaxError}
    (h : parseBinding tokens = .error error) :
    ∀ position ∈ error.position?, ∃ lexeme ∈ tokens, lexeme.position = position :=
  position_of_natural parseBinding_moved h

end SurveyLogic
