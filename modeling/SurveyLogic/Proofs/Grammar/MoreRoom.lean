import SurveyLogic.Proofs.Grammar.Link
import SurveyLogic.Proofs.Grammar.Steps

/-!
# More room

A reader with more room answers the same, trees and errors, unless the reader with less room gave up
because of the nesting.  `UpToRoom` says this of two results; every way of building a reader keeps
it, which leads to `Reader.upTo_withRoom`.
-/

namespace SurveyLogic

variable {α β : Type}

/-- The second result is that of a reader with more room. -/
def UpToRoom (less more : Except SyntaxError α) : Prop :=
  (∃ position, less = .error (.nestingTooDeep position)) ∨ less = more

theorem UpToRoom.refl (result : Except SyntaxError α) : UpToRoom result result := Or.inr rfl

/-- Steps one after the other may each have more room. -/
theorem UpToRoom.bind {less more : Except SyntaxError α} {next next' : α → Except SyntaxError β}
    (h : UpToRoom less more) (hnext : ∀ a, UpToRoom (next a) (next' a)) :
    UpToRoom (less >>= next) (more >>= next') := by
  rcases h with ⟨position, rfl⟩ | rfl
  · -- a first step that lacks room ends the whole
    exact Or.inl ⟨position, rfl⟩
  · cases less with
    | error error => exact .refl _
    | ok a => exact hnext a

namespace Reader

/-- The second reader answers what the first one answers, unless that lacks room. -/
def UpTo (less more : Reader α) : Prop := ∀ tokens, UpToRoom (less tokens) (more tokens)

variable {room room' : Nat} {deeper deeper' : Option (Level → Reader Expr)}

/-- Where the first has readers for less room, so has the second, and these agree. -/
def UpToBelow (deeper deeper' : Option (Level → Reader Expr)) : Prop :=
  ∀ read, deeper = some read →
    ∃ read', deeper' = some read' ∧ ∀ level, UpTo (read level) (read' level)

/-! ## Names, arrays and groups -/

theorem upTo_fit (h : room ≤ room') (tree : Expr) (position : Nat) :
    UpToRoom (fit room tree position) (fit room' tree position) := by
  unfold fit
  by_cases hfits : tree.height ≤ room
  · rw [if_pos hfits, if_pos (Nat.le_trans hfits h)]
    exact .refl _
  · rw [if_neg hfits]
    exact Or.inl ⟨position, rfl⟩

theorem upTo_descend (h : UpToBelow deeper deeper') (level : Level) (position : Nat) :
    UpTo (descend deeper level position) (descend deeper' level position) := by
  intro tokens
  cases hdeeper : deeper with
  | none => exact Or.inl ⟨position, rfl⟩
  | some read =>
      obtain ⟨read', rfl, hread⟩ := h read hdeeper
      exact hread level tokens

theorem upTo_members (h : room ≤ room') {whole : List Lexeme} (object : Reading Expr whole) :
    UpToRoom (members room object) (members room' object) := by
  induction hlength : object.rest.length using Nat.strongRecOn generalizing object with
  | ind length ih =>
      cases hproperty : property? object.rest with
      | error error =>
          rw [members_of_error hproperty, members_of_error hproperty]
          exact .refl _
      | ok found =>
          cases found with
          | none =>
              rw [members_of_none hproperty, members_of_none hproperty]
              exact .refl _
          | some found =>
              obtain ⟨property, position, rest⟩ := found
              rw [members_of_some hproperty, members_of_some hproperty]
              refine (upTo_fit h _ _).bind fun node => ?_
              exact ih rest.length (hlength ▸ length_lt_of_property? hproperty) _ rfl

theorem upTo_elements {read read' : Reader Expr} (h : UpTo read read') :
    UpTo (elements read) (elements read') := by
  intro tokens
  induction hlength : tokens.length using Nat.strongRecOn generalizing tokens with
  | ind length ih =>
      unfold elements
      refine (h tokens).bind fun first => ?_
      have hshorter := first.shorter
      split
      · exact .refl _
      · exact .refl _
      · next position rest hrest =>
          rw [hrest, List.length_cons] at hshorter
          exact (ih rest.length (by omega) rest rfl).bind fun others => .refl _
      · exact .refl _

theorem upTo_array (h : UpToBelow deeper deeper') (position : Nat) (rest : List Lexeme) :
    UpToRoom (primary room deeper (⟨.symbol .openBracket, position⟩ :: rest))
      (primary room' deeper' (⟨.symbol .openBracket, position⟩ :: rest)) := by
  cases hdeeper : deeper with
  -- not even an empty array fits below the bracket
  | none => exact Or.inl ⟨position, rfl⟩
  | some read =>
      obtain ⟨read', rfl, hread⟩ := h read hdeeper
      by_cases hclose : ∃ close after, rest = ⟨.symbol .closeBracket, close⟩ :: after
      · obtain ⟨close, after, rfl⟩ := hclose
        exact .refl _
      · have hopen : ∀ close after, rest ≠ ⟨.symbol .closeBracket, close⟩ :: after :=
          fun close after heq => hclose ⟨close, after, heq⟩
        rw [primary_array rfl hopen, primary_array rfl hopen]
        exact (upTo_elements (hread .or) rest).bind fun inner => .refl _

theorem upTo_primary (hroom : room ≤ room') (h : UpToBelow deeper deeper') :
    UpTo (primary room deeper) (primary room' deeper') := by
  intro tokens
  unfold primary
  split
  · exact .refl _
  · exact .refl _
  · exact .refl _
  · exact .refl _
  · exact upTo_members hroom _
  · exact (upTo_descend h .or _ _).bind fun inner => .refl _
  · next position rest =>
      exact @upTo_array room room' deeper deeper' h position rest
  · exact .refl _

/-! ## Prefix operators and powers -/

theorem upTo_unary (hroom : room ≤ room') (h : UpToBelow deeper deeper') :
    UpTo (unary room deeper) (unary room' deeper') := by
  intro tokens
  unfold unary
  split
  · exact upTo_primary hroom h []
  · split
    · exact (upTo_descend h .unary _ _).bind fun operand => .refl _
    · exact upTo_primary hroom h _

theorem upTo_power (hroom : room ≤ room') (h : UpToBelow deeper deeper') :
    UpTo (power room deeper) (power room' deeper') := by
  intro tokens
  unfold power
  refine (upTo_unary hroom h tokens).bind fun base => ?_
  split
  · refine (upTo_descend h .power _ _).bind fun exponent => ?_
    exact (upTo_fit hroom _ _).bind fun node => .refl _
  · exact .refl _

/-! ## Chains -/

theorem upTo_linked {operand operand' : Reader Expr} (h : UpTo operand operand') (link : Link)
    (left : Expr) (position : Nat) :
    UpTo (linked link operand left position) (linked link operand' left position) := by
  intro tokens
  unfold linked
  refine (h tokens).bind fun first => ?_
  split
  · exact .refl _
  · exact .refl _
  · refine (UpToRoom.refl _).bind fun and => ?_
    exact (h and.rest).bind fun upper => .refl _

theorem upTo_links (level : Level) (hroom : room ≤ room') (h : UpToBelow deeper deeper')
    {whole : List Lexeme} (left : Reading Expr whole) :
    UpToRoom (links level room deeper left) (links level room' deeper' left) := by
  induction hlength : left.rest.length using Nat.strongRecOn generalizing left with
  | ind length ih =>
      cases hlink : level.link? left.rest with
      | none =>
          rw [links_of_none hlink, links_of_none hlink]
          exact .refl _
      | some found =>
          obtain ⟨link, position, tokens⟩ := found
          have hshorter := Level.length_lt_of_link? hlink
          rw [links_of_some hlink, links_of_some hlink]
          refine (upTo_linked (upTo_descend h _ _) link _ _ tokens).bind fun joined => ?_
          refine (upTo_fit hroom _ _).bind fun node => ?_
          have hjoined := joined.shorter
          exact ih joined.rest.length (by omega) _ rfl

theorem upTo_chain (level : Level) (hroom : room ≤ room') (h : UpToBelow deeper deeper')
    {operand operand' : Reader Expr} (hoperand : UpTo operand operand') :
    UpTo (chain level room deeper operand) (chain level room' deeper' operand') := by
  intro tokens
  exact (hoperand tokens).bind fun left => upTo_links level hroom h left

/-! ## All levels -/

theorem upTo_ofLevel (hroom : room ≤ room') (h : UpToBelow deeper deeper') (level : Level) :
    UpTo (ofLevel room deeper level) (ofLevel room' deeper' level) := by
  induction level using Level.chain_induction with
  | hunary =>
      rw [ofLevel_unary, ofLevel_unary]
      exact upTo_unary hroom h
  | hpower =>
      rw [ofLevel_power, ofLevel_power]
      exact upTo_power hroom h
  | hchain level hunary hpower ih =>
      rw [ofLevel_chain hunary hpower, ofLevel_chain hunary hpower]
      exact upTo_chain level hroom h ih

/-- **More room changes only what lacks room.** -/
theorem upTo_withRoom {room room' : Nat} (h : room ≤ room') (level : Level) :
    UpTo (withRoom room level) (withRoom room' level) := by
  induction room using Nat.strongRecOn generalizing room' level with
  | ind room ih =>
      rw [withRoom_eq, withRoom_eq]
      refine upTo_ofLevel h ?_ level
      intro read hread
      -- wherever the first has readers for less room, so has the second
      by_cases hroom : 2 ≤ room
      · rw [below, if_pos hroom] at hread
        obtain rfl := Option.some.inj hread
        have hroom' : 2 ≤ room' := Nat.le_trans hroom h
        refine ⟨withRoom (room' - 1), if_pos hroom', fun level => ?_⟩
        exact ih (room - 1) (by omega) (by omega) level
      · rw [below, if_neg hroom] at hread
        contradiction

end Reader

end SurveyLogic
