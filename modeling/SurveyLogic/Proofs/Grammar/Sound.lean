import SurveyLogic.Proofs.Grammar.Link
import SurveyLogic.Proofs.Grammar.Room
import SurveyLogic.Proofs.Grammar.Steps

/-!
# What is read is a phrase

Every reader that succeeds has taken a phrase of the grammar off the front of its tokens, with the
tree of that phrase; it stops where no link of its level or a tighter one goes on; and the tree
fits into its room.  `Reader.Sound` says this of one reader, and each way of building a reader keeps
it, up to `Reader.sound_withRoom`.

The loops need a little less than that of what they have read so far: between two links of a chain
only the tighter levels are known to have no link, so `Reader.Taken` has a level of its own for
where the phrase ends.
-/

namespace SurveyLogic

namespace Reader

/-- From the front of the tokens a phrase of the level was taken, and `rest` was left, where no link
up to the level `ended` goes on. -/
structure Taken (level ended : Level) (room : Nat) (tokens : List Lexeme) (tree : Expr)
    (rest : List Lexeme) : Prop where
  derives : ∃ consumed, tokens = consumed ++ rest ∧ Derives level consumed tree
  unlinked : Unlinked ended rest
  fits : tree.roomNeeded ≤ room

/-- Whatever the reader answers was taken as a phrase of the level. -/
def Sound (level : Level) (room : Nat) (read : Reader Expr) : Prop :=
  ∀ tokens reading, read tokens = .ok reading →
    Taken level level room tokens reading.result reading.rest

/-- The readers for less room are sound, and there is room for them. -/
def SoundBelow (room : Nat) (deeper : Option (Level → Reader Expr)) : Prop :=
  ∀ read, deeper = some read → 2 ≤ room ∧ ∀ level, Sound level (room - 1) (read level)

variable {room : Nat} {deeper : Option (Level → Reader Expr)}

/-! ## Steps of a reader -/

theorem eq_cons_of_expect {expected : Token} {tokens : List Lexeme} {reading : Reading Unit tokens}
    (h : expect expected tokens = .ok reading) :
    ∃ position, tokens = ⟨expected, position⟩ :: reading.rest := by
  unfold expect at h
  split at h
  · simp at h
  · split at h
    · next heq =>
        obtain rfl := Except.ok.inj h
        exact ⟨_, by rw [heq]; rfl⟩
    · simp at h

theorem eq_of_fit {tree fitted : Expr} {position : Nat} (h : fit room tree position = .ok fitted) :
    fitted = tree ∧ tree.height ≤ room := by
  unfold fit at h
  split at h
  · next hfits => exact ⟨(Except.ok.inj h).symm, hfits⟩
  · simp at h

theorem sound_descend (hbelow : SoundBelow room deeper) (level : Level) (position : Nat) :
    Sound level (room - 1) (descend deeper level position) := by
  intro tokens reading h
  unfold descend at h
  split at h
  · simp at h
  · next read => exact (hbelow read rfl).2 level tokens reading h

/-- Nothing is read below an operator unless there is room for it. -/
theorem room_of_descend (hbelow : SoundBelow room deeper) {level : Level} {position : Nat}
    {tokens : List Lexeme} {reading : Reading Expr tokens}
    (h : descend deeper level position tokens = .ok reading) : 2 ≤ room := by
  unfold descend at h
  split at h
  · simp at h
  · next read => exact (hbelow read rfl).1

/-! ## Member chains -/

theorem roomNeeded_of_derivesMember {tokens : List Lexeme} {tree : Expr}
    (h : DerivesMember tokens tree) : tree.roomNeeded = tree.height := by
  induction h with
  | name word position => rfl
  | property property position after _ ih =>
      simp only [Expr.roomNeeded, Expr.height, ih]
      omega

theorem property?_spec {tokens rest : List Lexeme} {property : String} {position : Nat}
    (h : property? tokens = .ok (some (property, position, rest))) :
    ∃ after, tokens = ⟨.symbol .dot, position⟩ :: ⟨.name property, after⟩ :: rest := by
  unfold property? at h
  split at h
  · obtain ⟨rfl, rfl, rfl⟩ := by simpa using h
    exact ⟨_, rfl⟩
  · simp at h
  · simp at h
  · simp at h

theorem members_spec {whole : List Lexeme} {object reading : Reading Expr whole}
    (h : members room object = .ok reading) {consumed : List Lexeme}
    (hwhole : whole = consumed ++ object.rest) (hderives : DerivesMember consumed object.result)
    (hfits : object.result.height ≤ room) :
    ∃ consumed, whole = consumed ++ reading.rest ∧ DerivesMember consumed reading.result ∧
      reading.result.height ≤ room := by
  -- the induction is on what is left: each turn of the loop takes a dot and a name off it
  induction hlength : object.rest.length using Nat.strongRecOn generalizing object consumed with
  | ind length ih =>
      unfold members at h
      split at h
      · simp at h
      · obtain rfl := Except.ok.inj h
        exact ⟨consumed, hwhole, hderives, hfits⟩
      · next property position rest hproperty =>
          obtain ⟨node, hnode, hmore⟩ := exists_of_bind_eq_ok h
          obtain ⟨rfl, hheight⟩ := eq_of_fit hnode
          obtain ⟨after, hrest⟩ := property?_spec hproperty
          have hshorter := length_lt_of_property? hproperty
          have hwhole' : whole = (consumed ++
              [⟨.symbol .dot, position⟩, ⟨.name property, after⟩]) ++ rest := by
            rw [List.append_assoc]
            exact hwhole.trans (congrArg _ hrest)
          exact ih rest.length (hlength ▸ hshorter) hmore hwhole'
            (hderives.property property position after) hheight rfl

/-! ## Literals, groups and arrays -/

/-- A phrase of one token. -/
theorem taken_single {token : Token} {position : Nat} {tree : Expr} {rest : List Lexeme}
    (hroom : 1 ≤ room) (hderives : Derives .unary [⟨token, position⟩] tree)
    (hleaf : tree.roomNeeded = 1) :
    Taken .unary .unary room (⟨token, position⟩ :: rest) tree rest :=
  ⟨⟨_, rfl, hderives⟩, unlinked_unary _, Nat.le_trans (Nat.le_of_eq hleaf) hroom⟩

theorem taken_members {word : String} {position : Nat} {rest : List Lexeme}
    (hroom : 1 ≤ room) {reading : Reading Expr (⟨.name word, position⟩ :: rest)}
    (h : members room (.first (.name word position) _ rest) = .ok reading) :
    Taken .unary .unary room (⟨.name word, position⟩ :: rest) reading.result reading.rest := by
  obtain ⟨consumed, htokens, hderives, hheight⟩ :=
    members_spec h rfl (.name word position) hroom
  exact ⟨⟨consumed, htokens, .member hderives⟩, unlinked_unary _,
    Nat.le_trans (Nat.le_of_eq (roomNeeded_of_derivesMember hderives)) hheight⟩

theorem taken_group (hbelow : SoundBelow room deeper) {position : Nat} {tokens : List Lexeme}
    {inner : Reading Expr tokens} (hinner : descend deeper .or position tokens = .ok inner)
    {close : Reading Unit inner.rest}
    (hclose : expect (.symbol .closeParen) inner.rest = .ok close) :
    Taken .unary .unary room (⟨.symbol .openParen, position⟩ :: tokens)
      (.group inner.result position) close.rest := by
  obtain ⟨⟨consumed, htokens, hderives⟩, -, hfits⟩ := sound_descend hbelow _ _ _ _ hinner
  have hroom := room_of_descend hbelow hinner
  obtain ⟨atClose, hrest⟩ := eq_cons_of_expect hclose
  have hwhole : tokens = consumed ++ ⟨.symbol .closeParen, atClose⟩ :: close.rest :=
    htokens.trans (congrArg _ hrest)
  refine ⟨⟨_, ?_, .group position atClose hderives⟩, unlinked_unary _, ?_⟩
  · simpa using hwhole
  · simp only [Expr.roomNeeded]
    omega

theorem elements_spec {read : Reader Expr} (hread : Sound .or room read) {tokens : List Lexeme}
    {reading : Reading (List Expr) tokens} (h : elements read tokens = .ok reading) :
    ∃ consumed close, tokens = consumed ++ ⟨.symbol .closeBracket, close⟩ :: reading.rest ∧
      DerivesAll consumed reading.result ∧ Expr.roomNeededByAll reading.result ≤ room := by
  induction hlength : tokens.length using Nat.strongRecOn generalizing tokens with
  | ind length ih =>
      unfold elements at h
      obtain ⟨first, hfirst, hmore⟩ := exists_of_bind_eq_ok h
      obtain ⟨⟨consumed, htokens, hderives⟩, -, hfits⟩ := hread tokens first hfirst
      have hshorter := first.shorter
      split at hmore
      · simp at hmore
      · -- the last element, behind which the bracket closes
        next close rest hrest =>
          obtain rfl := Except.ok.inj hmore
          refine ⟨consumed, close, htokens.trans (congrArg _ hrest), .one hderives, ?_⟩
          simpa [Expr.roomNeededByAll] using hfits
      · -- a comma: the elements behind it are read from a shorter list
        next position rest hrest =>
          obtain ⟨others, hothers, hok⟩ := exists_of_bind_eq_ok hmore
          obtain rfl := Except.ok.inj hok
          have hlt : rest.length < length := by
            rw [hrest, List.length_cons] at hshorter
            omega
          obtain ⟨consumed', close, htokens', hderives', hfits'⟩ := ih _ hlt hothers rfl
          have hwhole : tokens = consumed ++ ⟨.symbol .comma, position⟩ ::
              (consumed' ++ ⟨.symbol .closeBracket, close⟩ :: others.rest) := by
            rw [← htokens']
            exact htokens.trans (congrArg _ hrest)
          refine ⟨consumed ++ ⟨.symbol .comma, position⟩ :: consumed', close, ?_,
            .more position hderives hderives', ?_⟩
          · rw [List.append_assoc]
            exact hwhole
          · simp only [Reading.within, Expr.roomNeededByAll]
            omega
      · simp at hmore

theorem taken_array {read : Level → Reader Expr} (hbelow : SoundBelow room (some read))
    {position : Nat} {tokens : List Lexeme} {inner : Reading (List Expr) tokens}
    (hinner : elements (read .or) tokens = .ok inner) :
    Taken .unary .unary room (⟨.symbol .openBracket, position⟩ :: tokens)
      (.array inner.result position) inner.rest := by
  obtain ⟨hroom, hread⟩ := hbelow read rfl
  obtain ⟨consumed, close, htokens, hderives, hfits⟩ := elements_spec (hread .or) hinner
  refine ⟨⟨_, ?_, .array position close hderives⟩, unlinked_unary _, ?_⟩
  · simpa using htokens
  · simp only [Expr.roomNeeded]
    omega

theorem sound_primary (hroom : 1 ≤ room) (hbelow : SoundBelow room deeper) :
    Sound .unary room (primary room deeper) := by
  intro tokens reading h
  unfold primary at h
  split at h
  · simp at h
  · next value position rest =>
      obtain rfl := Except.ok.inj h
      exact taken_single hroom (.number value position) rfl
  · next value position rest =>
      obtain rfl := Except.ok.inj h
      exact taken_single hroom (.text value position) rfl
  · next value position rest =>
      obtain rfl := Except.ok.inj h
      exact taken_single hroom (.truth value position) rfl
  · exact taken_members hroom h
  · obtain ⟨inner, hinner, hmore⟩ := exists_of_bind_eq_ok h
    obtain ⟨close, hclose, hok⟩ := exists_of_bind_eq_ok hmore
    obtain rfl := Except.ok.inj hok
    exact taken_group hbelow hinner hclose
  · -- an array needs room below its bracket, even the empty one
    split at h
    · simp at h
    · next position read close rest =>
        obtain rfl := Except.ok.inj h
        refine ⟨⟨_, rfl, .emptyArray _ close⟩, unlinked_unary _, ?_⟩
        simp only [Expr.roomNeeded, Expr.roomNeededByAll]
        exact (hbelow read rfl).1
    · obtain ⟨inner, hinner, hok⟩ := exists_of_bind_eq_ok h
      obtain rfl := Except.ok.inj hok
      exact taken_array hbelow hinner
  · simp at h

/-! ## Prefix operators and powers -/

theorem mem_spellings_of_unaryOperator? {token : Token} {operator : UnaryOperator}
    (h : unaryOperator? token = some operator) : token ∈ operator.spellings := by
  unfold unaryOperator? at h
  split at h
  · obtain rfl := Option.some.inj h
    decide
  · obtain rfl := Option.some.inj h
    decide
  · obtain rfl := Option.some.inj h
    decide
  · simp at h

theorem sound_unary (hroom : 1 ≤ room) (hbelow : SoundBelow room deeper) :
    Sound .unary room (unary room deeper) := by
  intro tokens reading h
  unfold unary at h
  split at h
  · exact sound_primary hroom hbelow _ _ h
  · next token position tokens =>
      split at h
      · next operator hoperator =>
          obtain ⟨operand, hoperand, hok⟩ := exists_of_bind_eq_ok h
          obtain rfl := Except.ok.inj hok
          obtain ⟨⟨consumed, htokens, hderives⟩, -, hfits⟩ := sound_descend hbelow _ _ _ _ hoperand
          have hroom' := room_of_descend hbelow hoperand
          have hsign := mem_spellings_of_unaryOperator? hoperator
          refine ⟨⟨⟨token, position⟩ :: consumed, congrArg _ htokens, .unary hsign hderives⟩,
            unlinked_unary _, ?_⟩
          simp only [Reading.within, Expr.roomNeeded]
          omega
      · exact sound_primary hroom hbelow _ _ h

/-- On the level of powers only `^` is a link. -/
theorem link?_power_eq_none {tokens : List Lexeme}
    (h : ∀ position rest, tokens ≠ ⟨.symbol .caret, position⟩ :: rest) :
    Level.power.link? tokens = none := by
  cases tokens with
  | nil => rfl
  | cons first rest =>
      obtain ⟨token, position⟩ := first
      cases hoperator : token.operator? with
      | none => simp only [Level.link?, hoperator]
      | some operator =>
          rw [Level.link?_operator hoperator, if_neg]
          intro hlevel
          obtain rfl : operator = .power := by
            revert hlevel
            cases operator <;> decide
          obtain rfl : token = .symbol .caret := by
            simpa [BinaryOperator.spellings] using Token.spelled_of_operator? hoperator
          exact h position rest rfl

theorem sound_power (hroom : 1 ≤ room) (hbelow : SoundBelow room deeper) :
    Sound .power room (power room deeper) := by
  intro tokens reading h
  unfold power at h
  obtain ⟨base, hbase, hmore⟩ := exists_of_bind_eq_ok h
  obtain ⟨⟨consumed, htokens, hderives⟩, -, hfits⟩ := sound_unary hroom hbelow _ _ hbase
  split at hmore
  · -- with an exponent, which ends where the power ends; the base had the whole room, so only the
    -- check of the node bounds its height
    next position rest hrest =>
      obtain ⟨exponent, hexponent, hnext⟩ := exists_of_bind_eq_ok hmore
      obtain ⟨node, hnode, hok⟩ := exists_of_bind_eq_ok hnext
      obtain rfl := Except.ok.inj hok
      obtain ⟨rfl, hheight⟩ := eq_of_fit hnode
      obtain ⟨⟨consumed', htokens', hderives'⟩, hunlinked, hfits'⟩ :=
        sound_descend hbelow _ _ _ _ hexponent
      have hroom' := room_of_descend hbelow hexponent
      have hwhole : tokens = consumed ++ ⟨.symbol .caret, position⟩ ::
          (consumed' ++ exponent.rest) := by
        rw [← htokens']
        exact htokens.trans (congrArg _ hrest)
      refine ⟨⟨_, ?_, .power position hderives hderives'⟩, hunlinked, ?_⟩
      · rw [List.append_assoc]
        exact hwhole
      · simp only [Expr.height] at hheight
        simp only [Reading.within, Expr.roomNeeded]
        omega
  · -- without one, and then no link of this level follows either
    next hcaret =>
      obtain rfl := Except.ok.inj hmore
      have hnone : Level.power.link? base.rest = none := link?_power_eq_none hcaret
      exact ⟨⟨consumed, htokens, .of_operand hderives⟩,
        Unlinked.of_operand (unlinked_unary _) hnone, hfits⟩

/-! ## Chains -/

theorem LoneIs.of_append {sign operand rest : List Lexeme}
    (h : LoneIs sign (operand ++ rest)) : LoneIs sign operand := by
  intro hsign next hnext
  refine h hsign next ?_
  rw [List.head?_append, hnext]
  rfl

section Linked

variable {level : Level} {position : Nat} {before tokens consumed consumed₁ : List Lexeme}
  {left right : Expr}

/-- The phrase that `and` or `or` makes longer. -/
theorem derives_logical {operator : LogicalOperator}
    (hlink : (Link.logical operator).Written level position before tokens)
    (hleft : Derives level consumed left) (hright : Derives level.operand consumed₁ right) :
    ∃ sign, before = sign :: tokens ∧
      Derives level (consumed ++ sign :: consumed₁) (.logical operator left right position) := by
  cases operator with
  | and =>
      obtain ⟨rfl, rfl⟩ := hlink
      exact ⟨_, rfl, .and position hleft hright⟩
  | or =>
      obtain ⟨rfl, rfl⟩ := hlink
      exact ⟨_, rfl, .or position hleft hright⟩

/-- The phrase that a binary operator makes longer. -/
theorem derives_binary {operator : BinaryOperator} {rest : List Lexeme} (hlevel : level ≠ .power)
    (hlink : (Link.binary operator).Written level position before tokens)
    (htokens : tokens = consumed₁ ++ rest) (hleft : Derives level consumed left)
    (hright : Derives level.operand consumed₁ right) :
    ∃ sign, before = sign ++ tokens ∧
      Derives level (consumed ++ sign ++ consumed₁) (.binary operator left right position) := by
  obtain ⟨rfl, sign, more, rfl, rfl, hspelled, hlone⟩ := hlink
  have hpower : operator ≠ .power := by
    rintro rfl
    exact hlevel rfl
  rw [htokens] at hlone
  have hlone' : LoneIs (sign :: more) consumed₁ := LoneIs.of_append hlone
  exact ⟨sign :: more, rfl, .joined hpower hspelled hlone' hleft hright⟩

/-- One more link makes the phrase of a chain longer. -/
theorem taken_linked (hlevel : level ≠ .power) {operand : Reader Expr}
    (hoperand : Sound level.operand (room - 1) operand) (hroom : 2 ≤ room)
    {whole : List Lexeme} {link : Link}
    (hleft : Taken level level.operand room whole left before)
    (hlink : link.Written level position before tokens) {joined : Reading Expr tokens}
    (h : linked link operand left position tokens = .ok joined)
    (hheight : joined.result.height ≤ room) :
    Taken level level.operand room whole joined.result joined.rest := by
  obtain ⟨⟨consumed, hwhole, hderives⟩, -, hfits⟩ := hleft
  unfold linked at h
  obtain ⟨first, hfirst, hmore⟩ := exists_of_bind_eq_ok h
  obtain ⟨⟨consumed₁, htokens, hderives₁⟩, hunlinked, hfits₁⟩ := hoperand _ _ hfirst
  split at hmore
  · -- `and` or `or`
    next operator =>
      obtain rfl := Except.ok.inj hmore
      obtain ⟨sign, hbefore, hlonger⟩ := derives_logical hlink hderives hderives₁
      have hsplit : whole = (consumed ++ sign :: consumed₁) ++ first.rest :=
        calc whole = consumed ++ sign :: tokens := by rw [hwhole, hbefore]
          _ = consumed ++ sign :: (consumed₁ ++ first.rest) := congrArg _ (congrArg _ htokens)
          _ = (consumed ++ sign :: consumed₁) ++ first.rest := by simp
      refine ⟨⟨_, hsplit, hlonger⟩, hunlinked, ?_⟩
      simp only [Reading.within, Expr.height] at hheight
      simp only [Reading.within, Expr.roomNeeded]
      omega
  · -- an operator of one or two tokens
    next operator =>
      obtain rfl := Except.ok.inj hmore
      obtain ⟨sign, hbefore, hlonger⟩ := derives_binary hlevel hlink htokens hderives hderives₁
      have hsplit : whole = (consumed ++ sign ++ consumed₁) ++ first.rest :=
        calc whole = consumed ++ sign ++ tokens := by rw [hwhole, hbefore, List.append_assoc]
          _ = consumed ++ sign ++ (consumed₁ ++ first.rest) := congrArg _ htokens
          _ = (consumed ++ sign ++ consumed₁) ++ first.rest := (List.append_assoc ..).symm
      refine ⟨⟨_, hsplit, hlonger⟩, hunlinked, ?_⟩
      simp only [Reading.within, Expr.height] at hheight
      simp only [Reading.within, Expr.roomNeeded]
      omega
  · -- a range, whose two bounds have an `and` between them
    obtain ⟨and, hand, hnext⟩ := exists_of_bind_eq_ok hmore
    obtain ⟨upper, hupper, hok⟩ := exists_of_bind_eq_ok hnext
    obtain rfl := Except.ok.inj hok
    obtain ⟨rfl, atBetween, rfl⟩ := hlink
    obtain ⟨atAnd, hrest⟩ := eq_cons_of_expect hand
    obtain ⟨⟨consumed₂, htokens₂, hderives₂⟩, hunlinked₂, hfits₂⟩ := hoperand _ _ hupper
    rw [hrest, htokens₂] at htokens
    have hsplit : whole =
        (consumed ++ ⟨.keyword .is, position⟩ :: ⟨.name "between", atBetween⟩ :: consumed₁ ++
          ⟨.keyword .and, atAnd⟩ :: consumed₂) ++ upper.rest := by
      simpa [htokens] using hwhole
    refine ⟨⟨_, hsplit, .between position atBetween atAnd hderives hderives₁ hderives₂⟩,
      hunlinked₂, ?_⟩
    simp only [Reading.within, Expr.height] at hheight
    simp only [Reading.within, Expr.roomNeeded]
    omega

end Linked

/-- The links of a chain, after what was read of it. -/
theorem taken_links {level : Level} (hlevel : level ≠ .power) (hbelow : SoundBelow room deeper)
    {whole : List Lexeme} {left reading : Reading Expr whole}
    (h : links level room deeper left = .ok reading)
    (hleft : Taken level level.operand room whole left.result left.rest) :
    Taken level level room whole reading.result reading.rest := by
  induction hlength : left.rest.length using Nat.strongRecOn generalizing left with
  | ind length ih =>
      unfold links at h
      split at h
      · -- no link is left: the phrase has ended on its own level, too
        next hnone =>
          obtain rfl := Except.ok.inj h
          exact ⟨hleft.derives, hleft.unlinked.of_operand hnone, hleft.fits⟩
      · -- one turn of the loop; what it has then read is known to end on the tighter levels only
        next link position tokens hlink =>
          obtain ⟨joined, hjoined, hmore⟩ := exists_of_bind_eq_ok h
          obtain ⟨node, hnode, hrest⟩ := exists_of_bind_eq_ok hmore
          obtain ⟨rfl, hheight⟩ := eq_of_fit hnode
          have hshorter := Level.length_lt_of_link? hlink
          have hjoined_shorter := joined.shorter
          have hroom : 2 ≤ room := by
            unfold linked at hjoined
            obtain ⟨first, hfirst, -⟩ := exists_of_bind_eq_ok hjoined
            exact room_of_descend hbelow hfirst
          have hwritten := Level.link?_spec hleft.unlinked hlink
          have hnext := taken_linked hlevel (sound_descend hbelow level.operand position) hroom
            hleft hwritten hjoined hheight
          exact ih joined.rest.length (by omega) hrest hnext rfl

theorem sound_chain {level : Level} (hlevel : level ≠ .power) (hbelow : SoundBelow room deeper)
    {operand : Reader Expr} (hoperand : Sound level.operand room operand) :
    Sound level room (chain level room deeper operand) := by
  intro tokens reading h
  unfold chain at h
  obtain ⟨left, hleft, hlinks⟩ := exists_of_bind_eq_ok h
  obtain ⟨⟨consumed, htokens, hderives⟩, hunlinked, hfits⟩ := hoperand _ _ hleft
  exact taken_links hlevel hbelow hlinks
    ⟨⟨consumed, htokens, .of_operand hderives⟩, hunlinked, hfits⟩

/-! ## All levels -/

theorem sound_ofLevel (hroom : 1 ≤ room) (hbelow : SoundBelow room deeper) (level : Level) :
    Sound level room (ofLevel room deeper level) := by
  induction level using Level.chain_induction with
  | hunary =>
      rw [ofLevel_unary]
      exact sound_unary hroom hbelow
  | hpower =>
      rw [ofLevel_power]
      exact sound_power hroom hbelow
  | hchain level hunary hpower ih =>
      rw [ofLevel_chain hunary hpower]
      exact sound_chain hpower hbelow ih

/-- **Readers are sound.**  Whatever is read with some room is a phrase of its level, and its tree
fits into the room. -/
theorem sound_withRoom (room : Nat) (hroom : 1 ≤ room) (level : Level) :
    Sound level room (withRoom room level) := by
  induction room using Nat.strongRecOn generalizing level with
  | ind room ih =>
      rw [withRoom_eq]
      refine sound_ofLevel hroom ?_ level
      intro read hread
      -- below this room there is either one level less of it, or nothing is read at all
      by_cases hmore : 2 ≤ room
      · rw [below, if_pos hmore] at hread
        obtain rfl := Option.some.inj hread
        exact ⟨hmore, fun level => ih (room - 1) (by omega) (by omega) level⟩
      · rw [below, if_neg hmore] at hread
        contradiction

end Reader

end SurveyLogic
