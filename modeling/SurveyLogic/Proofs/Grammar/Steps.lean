import SurveyLogic.Expr.Parse

/-!
# Steps of the readers

How one step of each loop goes on, by what stands in front of the rest, and which reader each level
has in a given room.  Later modules follow the readers through these equations.
-/

namespace SurveyLogic

namespace Reader

variable {room : Nat} {deeper : Option (Level → Reader Expr)}

/-! ## The loop over property names -/

section Members

variable {whole : List Lexeme} {object : Reading Expr whole}

theorem members_of_error {error : SyntaxError} (h : property? object.rest = .error error) :
    members room object = .error error := by
  rw [members]
  split
  · next hother => rw [h] at hother; rw [Except.error.inj hother]
  · next hother => rw [h] at hother; simp at hother
  · next hother => rw [h] at hother; simp at hother

theorem members_of_none (h : property? object.rest = .ok none) :
    members room object = .ok object := by
  rw [members]
  split
  · next hother => rw [h] at hother; simp at hother
  · rfl
  · next hother => rw [h] at hother; simp at hother

theorem members_of_some {property : String} {position : Nat} {rest : List Lexeme}
    (h : property? object.rest = .ok (some (property, position, rest))) :
    members room object =
      fit room (.member object.result property position) position >>= fun node =>
        members room ⟨node, rest, Nat.lt_trans (length_lt_of_property? h) object.shorter⟩ := by
  rw [members]
  split
  · next hother => rw [h] at hother; simp at hother
  · next hother => rw [h] at hother; simp at hother
  · next hother =>
      obtain ⟨rfl, rfl, rfl⟩ : _ ∧ _ ∧ _ := by simpa [h] using hother
      rfl

end Members

/-! ## The loop over links -/

section Links

variable {level : Level} {whole : List Lexeme} {left : Reading Expr whole}

theorem links_of_none (h : level.link? left.rest = none) :
    links level room deeper left = .ok left := by
  rw [links]
  split
  · rfl
  · next hother => rw [h] at hother; simp at hother

theorem links_of_some {link : Link} {position : Nat} {tokens : List Lexeme}
    (h : level.link? left.rest = some (link, position, tokens)) :
    links level room deeper left =
      linked link (descend deeper level.operand position) left.result position tokens >>=
        fun joined => fit room joined.result position >>= fun node =>
          links level room deeper (joined.within node
            (Nat.le_of_lt (Nat.lt_trans (Level.length_lt_of_link? h) left.shorter))) := by
  rw [links]
  split
  · next hother => rw [h] at hother; simp at hother
  · next hother =>
      obtain ⟨rfl, rfl, rfl⟩ : _ ∧ _ ∧ _ := by simpa [h] using hother
      rfl

end Links

/-! ## Groups, and arrays with elements -/

theorem primary_group (position : Nat) (tokens : List Lexeme) :
    primary room deeper (⟨.symbol .openParen, position⟩ :: tokens) =
      descend deeper .or position tokens >>= fun inner =>
        expect (.symbol .closeParen) inner.rest >>= fun close =>
          .ok ⟨.group inner.result position, close.rest,
            Nat.lt_succ_of_lt (Nat.lt_trans close.shorter inner.shorter)⟩ := rfl

theorem primary_array {read : Level → Reader Expr} (hdeeper : deeper = some read)
    {position : Nat} {tokens : List Lexeme}
    (h : ∀ close rest, tokens ≠ ⟨.symbol .closeBracket, close⟩ :: rest) :
    primary room deeper (⟨.symbol .openBracket, position⟩ :: tokens) =
      elements (read .or) tokens >>= fun inner =>
        .ok (inner.within (.array inner.result position) (Nat.le_succ _)) := by
  unfold primary
  dsimp only
  split
  · contradiction
  · exact absurd rfl (h _ _)
  · obtain rfl := Option.some.inj hdeeper
    rfl

/-! ## Prefix operators -/

theorem unary_of_none {sign : Lexeme} (h : unaryOperator? sign.token = none)
    (tokens : List Lexeme) :
    unary room deeper (sign :: tokens) = primary room deeper (sign :: tokens) := by
  unfold unary
  dsimp only
  rw [h]

theorem unary_of_some {sign : Lexeme} {operator : UnaryOperator}
    (h : unaryOperator? sign.token = some operator) (tokens : List Lexeme) :
    unary room deeper (sign :: tokens) =
      descend deeper .unary sign.position tokens >>= fun operand =>
        .ok (operand.within (.unary operator operand.result sign.position) (Nat.le_succ _)) := by
  unfold unary
  dsimp only
  rw [h]

/-! ## The readers of the levels -/

theorem ofLevel_unary : ofLevel room deeper .unary = unary room deeper := by
  rw [ofLevel]

theorem ofLevel_power : ofLevel room deeper .power = power room deeper := by
  rw [ofLevel]

theorem ofLevel_chain {level : Level} (hunary : level ≠ .unary) (hpower : level ≠ .power) :
    ofLevel room deeper level = chain level room deeper (ofLevel room deeper level.operand) := by
  cases level <;> first
    | contradiction
    | (rw [ofLevel]; rfl)

/-- The readers with less room than the given one, if it leaves any. -/
def below (room : Nat) : Option (Level → Reader Expr) :=
  if 2 ≤ room then some (withRoom (room - 1)) else none

theorem below_of_le (h : 2 ≤ room) : below room = some (withRoom (room - 1)) := if_pos h

/-- Below the last level there is nothing. -/
theorem below_of_lt (h : ¬ 2 ≤ room) : below room = none := if_neg h

theorem withRoom_eq (room : Nat) : withRoom room = ofLevel room (below room) := by
  match room with
  | 0 => rfl
  | 1 => rfl
  | room + 2 =>
      have hbelow : below (room + 2) = some (withRoom (room + 1)) := if_pos (Nat.le_add_left 2 room)
      rw [hbelow]
      rfl

theorem descend_below (h : 2 ≤ room) (level : Level) (position : Nat) :
    descend (below room) level position = withRoom (room - 1) level := by
  funext tokens
  rw [below, if_pos h]
  rfl

end Reader

end SurveyLogic
