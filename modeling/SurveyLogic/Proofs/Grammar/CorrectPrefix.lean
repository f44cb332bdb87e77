import SurveyLogic.Proofs.Grammar.Faults
import SurveyLogic.Proofs.Grammar.Modes

/-!
# Syntax errors are reported where the tokens stop making sense

A parser has the correct-prefix property when the token of its error is the first one with which no
sentence starts: the tokens in front of it can still be made a sentence.  `Expr.Blamed` says this of
an error and a language, and `Expr.error_blamed` of both parsers.

One half comes from where readers fail: what they have read has begun a phrase (`Reader.Faulty`).
The other half comes from completeness.  The error stays the same whatever is put behind its token,
and on a sentence the parser answers with a tree or gives up because of the nesting.
-/

namespace SurveyLogic

namespace Expr

/-! ## Languages and errors -/

def IsCondition (tokens : List Lexeme) : Prop := ∃ tree, Sentence tokens tree

/-- A condition, or a member chain and a condition with a `=` between them. -/
def IsBinding (tokens : List Lexeme) : Prop :=
  IsCondition tokens ∨ ∃ before target position after, DerivesMember before target ∧
    tokens = before ++ ⟨.symbol .assign, position⟩ :: after ∧ IsCondition after

/-- What an error of a parser says about the tokens and the language.  A lack of room says nothing,
and of the other errors a parser has none. -/
def Blamed (Language : List Lexeme → Prop) (tokens : List Lexeme) : SyntaxError → Prop
  | .unexpectedEnd _ => (∃ more, more ≠ [] ∧ Language (tokens ++ more)) ∧ ¬ Language tokens
  | .unexpectedToken found _ position =>
    ∃ before after, tokens = before ++ ⟨found, position⟩ :: after ∧
      (∃ more, Language (before ++ more)) ∧
      ∀ more, ¬ Language (before ++ ⟨found, position⟩ :: more)
  | .trailingTokens found position =>
    ∃ before after, tokens = before ++ ⟨found, position⟩ :: after ∧ Language before ∧
      ∀ more, ¬ Language (before ++ ⟨found, position⟩ :: more)
  | .nestingTooDeep _ => True
  | .unterminatedString _ | .invalidAssignmentTarget _ => False

/-- An error behind some tokens that neither make a member of the language nor unmake one. -/
theorem Blamed.behind {Language : List Lexeme → Prop} {tokens : List Lexeme} {error : SyntaxError}
    (h : Blamed Language tokens error) {front : List Lexeme}
    (hfront : ∀ tokens, Language (front ++ tokens) ↔ Language tokens) :
    Blamed Language (front ++ tokens) error := by
  cases error with
  | unexpectedEnd =>
      obtain ⟨⟨more, hmore, hlonger⟩, hnot⟩ := h
      refine ⟨⟨more, hmore, ?_⟩, by rwa [hfront]⟩
      rwa [List.append_assoc, hfront]
  | unexpectedToken found expected position =>
      obtain ⟨before, after, rfl, ⟨more, hlonger⟩, hnone⟩ := h
      refine ⟨front ++ before, after, by simp, ⟨more, ?_⟩, fun more' => ?_⟩
      · rwa [List.append_assoc, hfront]
      · rw [List.append_assoc, hfront]
        exact hnone more'
  | trailingTokens found position =>
      obtain ⟨before, after, rfl, hbefore, hnone⟩ := h
      refine ⟨front ++ before, after, by simp, by rwa [hfront], fun more => ?_⟩
      rw [List.append_assoc, hfront]
      exact hnone more
  | nestingTooDeep => trivial
  | unterminatedString | invalidAssignmentTarget => exact h

/-- The two languages have the same token lists. -/
theorem isBinding_iff (tokens : List Lexeme) : IsBinding tokens ↔ IsCondition tokens := by
  constructor
  · rintro (hcondition | ⟨before, target, position, after, htarget, rfl, hafter⟩)
    · exact hcondition
    · exact (sentence_equation_iff htarget position).mpr hafter
  · exact Or.inl

/-! ## The parser of conditions -/

section Within

variable {room : Nat} {tokens : List Lexeme} {error : SyntaxError}

/-- Where the parser fails, and not because of the nesting, there is no condition. -/
theorem not_isCondition_of_error (hroom : 1 ≤ room) (h : parseWithin room tokens = .error error)
    (hdeep : ∀ position, error ≠ .nestingTooDeep position) : ¬ IsCondition tokens := by
  rintro ⟨tree, hsentence⟩
  rcases Nat.lt_or_ge room tree.roomNeeded with hlt | hle
  · obtain ⟨position, hread⟩ := parseWithin_of_lt hsentence hroom hlt
    rw [hread] at h
    exact hdeep position (Except.error.inj h).symm
  · rw [parseWithin_of_le hsentence hle] at h
    contradiction

theorem parseWithin_of_error (h : Reader.withRoom room .or tokens = .error error) :
    parseWithin room tokens = .error error := by
  unfold parseWithin
  rw [h, error_bind]

theorem blamed_of_reader (hroom : 1 ≤ room)
    (h : Reader.withRoom room .or tokens = .error error) : Blamed IsCondition tokens error := by
  have hfaults := Reader.faulty_withRoom room hroom .or tokens error h
  cases error with
  | unexpectedEnd expected =>
      obtain ⟨more, tree, hderives⟩ := hfaults
      have hnot : ¬ IsCondition tokens :=
        not_isCondition_of_error hroom (parseWithin_of_error h) (by simp)
      refine ⟨⟨more, ?_, tree, hderives⟩, hnot⟩
      rintro rfl
      rw [List.append_nil] at hderives
      exact hnot ⟨tree, hderives⟩
  | unexpectedToken found expected position =>
      obtain ⟨before, after, heq, ⟨more, tree, hderives⟩, hagain⟩ := hfaults
      refine ⟨before, after, heq, ⟨more, tree, hderives⟩, fun more' => ?_⟩
      exact not_isCondition_of_error hroom (parseWithin_of_error (hagain more')) (by simp)
  | nestingTooDeep => trivial
  | trailingTokens | unterminatedString | invalidAssignmentTarget => exact hfaults.elim

/-- What is left behind a condition ends it, whatever comes then. -/
theorem blamed_of_finish (hroom : 1 ≤ room) {reading : Reading Expr tokens}
    (hread : Reader.withRoom room .or tokens = .ok reading) (h : finish reading = .error error) :
    Blamed IsCondition tokens error := by
  obtain ⟨consumed, htokens, hderives, hunlinked, hlocal⟩ :=
    Reader.exact_withRoom hroom .or tokens reading hread
  unfold finish at h
  split at h
  · contradiction
  · next token position after hrest =>
      obtain rfl := Except.error.inj h
      rw [hrest] at htokens hunlinked hlocal
      refine ⟨consumed, after, htokens, ⟨_, hderives⟩, fun more => ?_⟩
      obtain ⟨_, hagain⟩ := hlocal (⟨token, position⟩ :: more)
        (stopsAlike_cons (Reader.ne_is_of_unlinked hunlinked) .or position after more)
      have hfails : parseWithin room (consumed ++ ⟨token, position⟩ :: more) =
          .error (.trailingTokens token position) := by
        unfold parseWithin
        rw [hagain, ok_bind]
        rfl
      exact not_isCondition_of_error hroom hfails (by simp)

theorem blamed_of_parseWithin (hroom : 1 ≤ room) (h : parseWithin room tokens = .error error) :
    Blamed IsCondition tokens error := by
  rcases error_of_bind_eq_error h with hreader | ⟨reading, hread, hfinish⟩
  · exact blamed_of_reader hroom hreader
  · exact blamed_of_finish hroom hread hfinish

end Within

/-! ## Both parsers -/

theorem blamed_of_parseBinding {tokens : List Lexeme} {error : SyntaxError}
    (h : parseBinding tokens = .error error) : Blamed IsCondition tokens error := by
  by_cases hstarts : StartsAssignment tokens
  · obtain ⟨before, target, position, after, htarget, rfl⟩ := hstarts
    rcases Nat.lt_or_ge (maxHeight - 1) target.height with hlt | hle
    · obtain ⟨place, hdeep⟩ := parseBinding_of_target_tooHigh htarget position after hlt
      obtain rfl := Except.error.inj (hdeep.symm.trans h)
      trivial
    · rw [parseBinding_of_target htarget position after hle] at h
      cases hvalue : parseWithin (maxHeight - 1) after with
      | ok value =>
          rw [hvalue] at h
          contradiction
      | error other =>
          rw [hvalue] at h
          obtain rfl := Except.error.inj h
          -- the target and its sign neither make a condition nor unmake one
          have hfront : ∀ tokens,
              IsCondition ((before ++ [⟨.symbol .assign, position⟩]) ++ tokens) ↔
                IsCondition tokens := by
            intro tokens
            rw [← List.append_cons]
            exact sentence_equation_iff htarget position
          have hblamed := (blamed_of_parseWithin (by decide) hvalue).behind hfront
          rwa [← List.append_cons] at hblamed
  · rw [parseBinding_of_not_startsAssignment hstarts] at h
    exact blamed_of_parseWithin (by decide) h

/-- **Syntax errors have the correct-prefix property.** -/
theorem error_blamed (tokens : List Lexeme) (error : SyntaxError) :
    (parse tokens = .error error → Blamed IsCondition tokens error) ∧
    (parseBinding tokens = .error error → Blamed IsBinding tokens error) := by
  constructor
  · intro h
    exact blamed_of_parseWithin (by decide) h
  · intro h
    have hsame : IsBinding = IsCondition := funext fun tokens => propext (isBinding_iff tokens)
    rw [hsame]
    exact blamed_of_parseBinding h

/-- The tokens of `a is between 1 or`, where an `and` is called for in place of the `or`. -/
def openRangeTokens : List Lexeme :=
  [⟨.name "a", 0⟩, ⟨.keyword .is, 2⟩, ⟨.name "between", 5⟩, ⟨.number .one, 13⟩, ⟨.keyword .or, 15⟩]

/-- In `a is between 1 or` the `or` is wrong, and `trip.stay =` is not finished. -/
theorem error_blamed_open_range :
    parse openRangeTokens =
      .error (.unexpectedToken (.keyword .or) (.token (.keyword .and)) 15) ∧
    Blamed IsCondition openRangeTokens
      (.unexpectedToken (.keyword .or) (.token (.keyword .and)) 15) ∧
    parseBinding (stayTokens.take 4) = .error (.unexpectedEnd .expression) ∧
    Blamed IsBinding (stayTokens.take 4) (.unexpectedEnd .expression) := by
  have hrange : parse openRangeTokens =
      .error (.unexpectedToken (.keyword .or) (.token (.keyword .and)) 15) :=
    eq_error_of_seen (by decide +kernel)
  have hend : parseBinding (stayTokens.take 4) = .error (.unexpectedEnd .expression) :=
    eq_error_of_seen (by decide +kernel)
  exact ⟨hrange, (error_blamed _ _).1 hrange, hend, (error_blamed _ _).2 hend⟩

end Expr

end SurveyLogic
