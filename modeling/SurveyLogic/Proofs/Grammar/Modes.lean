import SurveyLogic.Proofs.Grammar.Equations

/-!
# Conditions and bindings side by side

The parser of bindings differs from that of conditions by a leading assignment alone.  Without one
the two answer the same.  With one, a binding is an assignment of the condition behind the sign, and
this is accepted where the two sides fit one level below the assignment.  The two parsers accept the
same token lists, unless one of them gives up because of the nesting, since what they accept differs
by the reading of the first `=` only (`sentence_equation_iff`).  All this is
`Expr.parseBinding_beside_parse`.
-/

namespace SurveyLogic

namespace Expr

/-- A member chain has as many levels as segments. -/
theorem length_of_path? {tokens : List Lexeme} {target : Expr} (h : DerivesMember tokens target)
    {segments : List String} (hpath : target.path? = some segments) :
    segments.length = target.height := by
  induction h generalizing segments with
  | name word position =>
      obtain rfl := Option.some.inj hpath
      rfl
  | property property position after _ ih =>
      obtain ⟨inner, hinner, rfl⟩ := Option.map_eq_some_iff.mp hpath
      rw [List.length_append, ih hinner]
      rfl

/-- What is read as a condition with less room is read so with more. -/
theorem parseWithin_of_parseWithin {room room' : Nat} {tokens : List Lexeme} {tree : Expr}
    (hroom : 1 ≤ room) (hle : room ≤ room') (h : parseWithin room tokens = .ok tree) :
    parseWithin room' tokens = .ok tree := by
  obtain ⟨hsentence, hfits⟩ := sentence_of_parseWithin hroom h
  exact parseWithin_of_le hsentence (Nat.le_trans hfits hle)

/-! ## What the parsers accept -/

section Accepted

variable {tokens : List Lexeme}

/-- Where it does not give up because of the nesting, the parser of conditions accepts the
sentences. -/
theorem exists_parse_iff (hroom : ∀ position, parse tokens ≠ .error (.nestingTooDeep position)) :
    (∃ tree, parse tokens = .ok tree) ↔ ∃ tree, Sentence tokens tree := by
  constructor
  · rintro ⟨tree, h⟩
    exact ⟨tree, (sentence_of_parse h).1⟩
  · rintro ⟨tree, h⟩
    exact ⟨tree, parse_of_sentence_of_not_tooDeep h hroom⟩

/-- Where it does not give up because of the nesting, the parser of bindings accepts the
sentences of bindings. -/
theorem exists_parseBinding_iff
    (hroom : ∀ position, parseBinding tokens ≠ .error (.nestingTooDeep position)) :
    (∃ tree, parseBinding tokens = .ok tree) ↔ ∃ tree, BindingSentence tokens tree := by
  constructor
  · rintro ⟨tree, h⟩
    exact ⟨tree, (bindingSentence_of_parseBinding h).1⟩
  · rintro ⟨tree, h⟩
    rcases Nat.lt_or_ge maxHeight tree.roomNeeded with hlt | hle
    · obtain ⟨position, hdeep⟩ := h.parseBinding_of_lt hlt
      exact absurd hdeep (hroom position)
    · exact ⟨tree, h.parseBinding_of_le hle⟩

/-- The two grammars have the same token lists. -/
theorem exists_bindingSentence_iff :
    (∃ tree, BindingSentence tokens tree) ↔ ∃ tree, Sentence tokens tree := by
  constructor
  · -- an assignment becomes an equation, and any other binding is a condition as it is
    rintro ⟨tree, h⟩
    cases h with
    | assign position htarget hvalue =>
        exact (sentence_equation_iff htarget position).mpr ⟨_, hvalue⟩
    | condition _ hsentence => exact ⟨_, hsentence⟩
  · intro hsentence
    by_cases hstarts : StartsAssignment tokens
    · -- the value of the assignment is what the equation leaves behind its sign
      obtain ⟨before, target, position, after, htarget, rfl⟩ := hstarts
      obtain ⟨value, hvalue⟩ := (sentence_equation_iff htarget position).mp hsentence
      exact ⟨_, .assign position htarget hvalue⟩
    · obtain ⟨tree, htree⟩ := hsentence
      exact ⟨tree, .condition hstarts htree⟩

end Accepted

/-! ## Assignments -/

section Assignment

variable {before : List Lexeme} {target : Expr} (htarget : DerivesMember before target)
  (position : Nat) (after : List Lexeme)

include htarget

/-- Behind an assignment sign a binding goes on as a condition does. -/
theorem assign_of_parseBinding {tree : Expr}
    (h : parseBinding (before ++ ⟨.symbol .assign, position⟩ :: after) = .ok tree) :
    ∃ value, tree = .assign target value position ∧ parse after = .ok value := by
  rcases Nat.lt_or_ge (maxHeight - 1) target.height with hlt | hle
  · -- a target that is too high is refused
    obtain ⟨place, hdeep⟩ := parseBinding_of_target_tooHigh htarget position after hlt
    rw [hdeep] at h
    contradiction
  · rw [parseBinding_of_target htarget position after hle] at h
    cases hvalue : parseWithin (maxHeight - 1) after with
    | error error =>
        rw [hvalue] at h
        contradiction
    | ok value =>
        rw [hvalue] at h
        obtain rfl := Except.ok.inj h
        exact ⟨value, rfl, parseWithin_of_parseWithin (by decide) (Nat.sub_le _ _) hvalue⟩

/-- A condition makes the value of an assignment if it leaves two levels free. -/
theorem parseBinding_of_parse {value : Expr} {segments : List String}
    (hvalue : parse after = .ok value) (hheight : value.height + 2 ≤ maxHeight)
    (hpath : target.path? = some segments) (hlength : segments.length + 1 ≤ maxHeight) :
    parseBinding (before ++ ⟨.symbol .assign, position⟩ :: after) =
      .ok (.assign target value position) := by
  rw [length_of_path? htarget hpath] at hlength
  have hneeded := value.roomNeeded_le
  have hread : parseWithin (maxHeight - 1) after = .ok value :=
    parseWithin_of_le (sentence_of_parse hvalue).1 (by omega)
  rw [parseBinding_of_target htarget position after (by omega), hread]
  rfl

end Assignment

/-- **Bindings are conditions but for a leading assignment.** -/
theorem parseBinding_beside_parse (tokens : List Lexeme) :
    (¬ StartsAssignment tokens → parseBinding tokens = parse tokens) ∧
    (∀ before target position after, DerivesMember before target →
      tokens = before ++ ⟨.symbol .assign, position⟩ :: after →
      (∀ tree, parseBinding tokens = .ok tree →
        ∃ value, tree = .assign target value position ∧ parse after = .ok value) ∧
      (∀ value segments, parse after = .ok value → value.height + 2 ≤ maxHeight →
        target.path? = some segments → segments.length + 1 ≤ maxHeight →
        parseBinding tokens = .ok (.assign target value position))) ∧
    ((∀ place, parse tokens ≠ .error (.nestingTooDeep place)) →
      (∀ place, parseBinding tokens ≠ .error (.nestingTooDeep place)) →
      ((∃ tree, parse tokens = .ok tree) ↔ ∃ tree, parseBinding tokens = .ok tree)) := by
  refine ⟨parseBinding_of_not_startsAssignment, ?_, ?_⟩
  · rintro before target position after htarget rfl
    refine ⟨fun tree h => assign_of_parseBinding htarget position after h, ?_⟩
    intro value segments hvalue hheight hpath hlength
    exact parseBinding_of_parse htarget position after hvalue hheight hpath hlength
  · intro hcondition hbinding
    rw [exists_parse_iff hcondition, exists_parseBinding_iff hbinding, exists_bindingSentence_iff]

/-- The tokens of `trip.stay = size = 1 or size`: a chain of two equations, or an assignment. -/
def stayTokens : List Lexeme :=
  [⟨.name "trip", 0⟩, ⟨.symbol .dot, 4⟩, ⟨.name "stay", 5⟩, ⟨.symbol .assign, 10⟩,
    ⟨.name "size", 12⟩, ⟨.symbol .assign, 17⟩, ⟨.number .one, 19⟩, ⟨.keyword .or, 21⟩,
    ⟨.name "size", 24⟩]

theorem parseBinding_beside_parse_stay :
    ¬ StartsAssignment (stayTokens.drop 5) ∧
    parseBinding (stayTokens.drop 5) = parse (stayTokens.drop 5) ∧
    (∃ value, parse (stayTokens.drop 4) = .ok value ∧ value.height = 3 ∧
      parseBinding stayTokens =
        .ok (.assign (.member (.name "trip" 0) "stay" 4) value 10)) ∧
    ((∃ tree, parse stayTokens = .ok tree) ↔ ∃ tree, parseBinding stayTokens = .ok tree) := by
  have hstarts : ¬ StartsAssignment (stayTokens.drop 5) := by
    rintro ⟨before, target, position, after, htarget, heq⟩
    obtain ⟨word, start, more, rfl⟩ := htarget.exists_cons
    simp [stayTokens] at heq
  have htarget : DerivesMember (stayTokens.take 3) (.member (.name "trip" 0) "stay" 4) :=
    (DerivesMember.name "trip" 0).property "stay" 4 5
  have hvalue : (parse (stayTokens.drop 4)).toOption.map (·.height) = some 3 := by
    decide +kernel
  have hcondition : ((parse stayTokens).toOption.map fun _ => ()) = some () := by decide +kernel
  have hbinding : ((parseBinding stayTokens).toOption.map fun _ => ()) = some () := by
    decide +kernel
  obtain ⟨value, hparse, hheight⟩ := exists_of_toOption_map hvalue
  obtain ⟨tree, htree, -⟩ := exists_of_toOption_map hcondition
  obtain ⟨tree', htree', -⟩ := exists_of_toOption_map hbinding
  refine ⟨hstarts, (parseBinding_beside_parse _).1 hstarts, ⟨value, hparse, hheight, ?_⟩, ?_⟩
  · have hassign := ((parseBinding_beside_parse stayTokens).2.1 _ _ 10 _ htarget rfl).2
    exact hassign value ["trip", "stay"] hparse (by rw [hheight]; decide) rfl (by decide)
  · refine (parseBinding_beside_parse stayTokens).2.2 ?_ ?_
    · simp [htree]
    · simp [htree']

end Expr

end SurveyLogic
