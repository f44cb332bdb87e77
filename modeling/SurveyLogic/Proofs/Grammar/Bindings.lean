import SurveyLogic.Proofs.Grammar.Exact

/-!
# The grammar of bindings

```text
binding := member "=" or | or
```

A leading member chain with a single `=` behind it always makes an assignment, although the same
tokens may be a condition, where `=` is equality; the rule for conditions leaves these tokens to the
other one.  Target and value are read one level below the assignment.  The parser of bindings
accepts the sentences of this grammar whose trees fit, and gives up on the others because of the
nesting: `Expr.bindingSentence_of_parseBinding`, `Expr.BindingSentence.parseBinding_of_le` and
`Expr.BindingSentence.parseBinding_of_lt`.
-/

namespace SurveyLogic

namespace Expr

/-! ## Sentences -/

/-- The tokens start with a member chain and the sign of an assignment. -/
def StartsAssignment (tokens : List Lexeme) : Prop :=
  ∃ before target position after, DerivesMember before target ∧
    tokens = before ++ ⟨.symbol .assign, position⟩ :: after

/-- A token list is a binding with the given tree. -/
inductive BindingSentence : List Lexeme → Expr → Prop
  | assign {before after : List Lexeme} {target value : Expr} (position : Nat) :
    DerivesMember before target → Sentence after value →
    BindingSentence (before ++ ⟨.symbol .assign, position⟩ :: after) (.assign target value position)
  | condition {tokens : List Lexeme} {tree : Expr} :
    ¬ StartsAssignment tokens → Sentence tokens tree → BindingSentence tokens tree

/-! ## Looking ahead for the sign -/

/-- The look-ahead for the sign of an assignment passes over a member chain. -/
theorem assignSign?_append {consumed : List Lexeme} {target : Expr}
    (h : DerivesMember consumed target) : ∃ word position more,
      consumed = ⟨.name word, position⟩ :: more ∧
      ∀ rest, assignSign? (more ++ rest) = assignSign? rest := by
  induction h with
  | name word position => exact ⟨word, position, [], rfl, fun _ => rfl⟩
  | property property position after _ ih =>
      obtain ⟨word, start, more, rfl, hmore⟩ := ih
      refine ⟨word, start, _, rfl, fun rest => ?_⟩
      rw [List.append_eq, List.append_assoc, hmore]
      rfl

/-- What the look-ahead has passed over goes on with a member chain. -/
theorem startsAssignment_of_assignSign? {consumed tokens rest : List Lexeme} {object : Expr}
    {position : Nat} (hobject : DerivesMember consumed object)
    (h : assignSign? tokens = some (position, rest)) : StartsAssignment (consumed ++ tokens) := by
  fun_induction assignSign? tokens generalizing consumed object with
  | case1 atDot property atName tokens ih =>
      have hlonger := ih (hobject.property property atDot atName) h
      rwa [List.append_assoc] at hlonger
  | case2 position after => exact ⟨consumed, object, position, after, hobject, rfl⟩
  | case3 => contradiction

theorem parseBinding_of_not_startsAssignment {tokens : List Lexeme}
    (h : ¬ StartsAssignment tokens) : parseBinding tokens = parse tokens := by
  unfold parseBinding
  split
  · next word start tokens =>
      split
      · next position rest hsign =>
          exact absurd (startsAssignment_of_assignSign? (.name word start) hsign) h
      · rfl
  · rfl

/-! ## Reading an assignment -/

theorem path?_of_derivesMember {consumed : List Lexeme} {target : Expr}
    (h : DerivesMember consumed target) : target.path?.isSome = true := by
  induction h with
  | name word position => rfl
  | property _ _ _ _ ih => simpa [path?] using ih

section Target

variable {before : List Lexeme} {target : Expr} (htarget : DerivesMember before target)
  (position : Nat) (after : List Lexeme)

include htarget

/-- With room for the target, the loop over the property names stops in front of the sign. -/
theorem members_of_target : ∃ word start more, before = ⟨.name word, start⟩ :: more ∧
    ∀ room, target.height ≤ room → ∃ shorter,
      Reader.members room (.first (.name word start) ⟨.name word, start⟩
        (more ++ ⟨.symbol .assign, position⟩ :: after)) =
      .ok ⟨target, ⟨.symbol .assign, position⟩ :: after, shorter⟩ := by
  obtain ⟨word, start, more, rfl, hmembers⟩ := Reader.members_grow htarget
  refine ⟨word, start, more, rfl, fun room hroom => ?_⟩
  obtain ⟨shorter, hgrown⟩ := hmembers room hroom _ (⟨.symbol .assign, position⟩ :: after)
    (.first (.name word start) _ _) rfl rfl
  exact ⟨shorter, hgrown.trans (Reader.members_of_none rfl)⟩

/-- With room for the target, the value is what is left to read. -/
theorem parseBinding_of_target (hheight : target.height ≤ maxHeight - 1) :
    parseBinding (before ++ ⟨.symbol .assign, position⟩ :: after) =
      (parseWithin (maxHeight - 1) after).map fun value => .assign target value position := by
  obtain ⟨word, start, more, rfl, hmembers⟩ := members_of_target htarget position after
  obtain ⟨_, _, _, heq, hsign⟩ := assignSign?_append htarget
  obtain ⟨-, rfl⟩ := List.cons.inj heq
  obtain ⟨shorter, hread⟩ := hmembers (maxHeight - 1) hheight
  rw [List.cons_append]
  unfold parseBinding parseWithin
  dsimp only
  rw [hsign, assignSign?]
  dsimp only
  rw [hread, ok_bind]
  cases Reader.withRoom (maxHeight - 1) .or after with
  | error error => rfl
  | ok value =>
      simp only [ok_bind, assignment, path?_of_derivesMember htarget, if_true, finish,
        Reading.within]
      cases value.rest <;> rfl

/-- Without room for the target, its last names are too much. -/
theorem parseBinding_of_target_tooHigh (hheight : maxHeight - 1 < target.height) :
    ∃ place, parseBinding (before ++ ⟨.symbol .assign, position⟩ :: after) =
      .error (.nestingTooDeep place) := by
  obtain ⟨word, start, more, rfl, hmembers⟩ := members_of_target htarget position after
  obtain ⟨_, _, _, heq, hsign⟩ := assignSign?_append htarget
  obtain ⟨-, rfl⟩ := List.cons.inj heq
  obtain ⟨shorter, hread⟩ := hmembers target.height (Nat.le_refl _)
  rcases Reader.upTo_members (Nat.le_of_lt hheight) (.first (.name word start)
      ⟨.name word, start⟩ (more ++ ⟨.symbol .assign, position⟩ :: after))
    with ⟨place, hdeep⟩ | hsame
  · refine ⟨place, ?_⟩
    rw [List.cons_append]
    unfold parseBinding
    dsimp only
    rw [hsign, assignSign?]
    dsimp only
    rw [hdeep]
    rfl
  · -- what is read as a member chain is not higher than the room
    have hleaf : (Expr.name word start).height ≤ maxHeight - 1 := by
      simp only [height, maxHeight]
      omega
    obtain ⟨_, -, -, hfits⟩ :=
      Reader.members_spec (hsame.trans hread) rfl (.name word start) hleaf
    exact absurd hfits (Nat.not_le.mpr hheight)

end Target

/-! ## The parser of bindings -/

/-- What is accepted as a binding is one, and its tree fits into the room there is. -/
theorem bindingSentence_of_parseBinding {tokens : List Lexeme} {tree : Expr}
    (h : parseBinding tokens = .ok tree) :
    BindingSentence tokens tree ∧ tree.roomNeeded ≤ maxHeight := by
  by_cases hstarts : StartsAssignment tokens
  · obtain ⟨before, target, position, after, htarget, rfl⟩ := hstarts
    rcases Nat.lt_or_ge (maxHeight - 1) target.height with hlt | hle
    · obtain ⟨place, hdeep⟩ := parseBinding_of_target_tooHigh htarget position after hlt
      rw [hdeep] at h
      contradiction
    · rw [parseBinding_of_target htarget position after hle] at h
      cases hvalue : parseWithin (maxHeight - 1) after with
      | error error =>
          rw [hvalue] at h
          contradiction
      | ok value =>
          rw [hvalue] at h
          obtain rfl := Except.ok.inj h
          -- the value was read one level below the assignment, and so was the target
          obtain ⟨hsentence, hfits⟩ := sentence_of_parseWithin (by decide) hvalue
          refine ⟨.assign position htarget hsentence, ?_⟩
          rw [roomNeeded, Reader.roomNeeded_of_derivesMember htarget]
          have hpos : 1 ≤ maxHeight := by decide
          omega
  · rw [parseBinding_of_not_startsAssignment hstarts] at h
    obtain ⟨hsentence, hfits⟩ := sentence_of_parse h
    exact ⟨.condition hstarts hsentence, hfits⟩

namespace BindingSentence

variable {tokens : List Lexeme} {tree : Expr}

/-- A binding whose tree fits is accepted. -/
theorem parseBinding_of_le (h : BindingSentence tokens tree)
    (hroom : tree.roomNeeded ≤ maxHeight) : parseBinding tokens = .ok tree := by
  cases h with
  | assign position htarget hvalue =>
      rw [roomNeeded, Reader.roomNeeded_of_derivesMember htarget] at hroom
      rw [parseBinding_of_target htarget position _ (by omega),
        parseWithin_of_le hvalue (by omega)]
      rfl
  | condition hstarts hsentence =>
      rw [parseBinding_of_not_startsAssignment hstarts]
      exact parse_of_sentence hsentence hroom

/-- On a binding whose tree does not fit, the parser gives up because of the nesting, be it of the
target or of the value. -/
theorem parseBinding_of_lt (h : BindingSentence tokens tree)
    (hroom : maxHeight < tree.roomNeeded) :
    ∃ position, parseBinding tokens = .error (.nestingTooDeep position) := by
  cases h with
  | @assign before after target value position htarget hvalue =>
      rw [roomNeeded, Reader.roomNeeded_of_derivesMember htarget] at hroom
      -- if the target fits, it is the value that does not
      rcases Nat.lt_or_ge (maxHeight - 1) target.height with hlt | hle
      · exact parseBinding_of_target_tooHigh htarget position after hlt
      · have hpos : 1 ≤ maxHeight := by decide
        have hdeeper : maxHeight - 1 < value.roomNeeded := by omega
        obtain ⟨place, hdeep⟩ := parseWithin_of_lt hvalue (by decide) hdeeper
        refine ⟨place, ?_⟩
        rw [parseBinding_of_target htarget position after hle, hdeep]
        rfl
  | condition hstarts hsentence =>
      rw [parseBinding_of_not_startsAssignment hstarts]
      exact parseWithin_of_lt hsentence (by decide) hroom

end BindingSentence

end Expr

end SurveyLogic
