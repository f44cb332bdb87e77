import SurveyLogic.Proofs.Grammar.Local

/-!
# Where a reader fails

When a reader fails, and not because of the nesting, it has come as far as the grammar goes: what is
in front of the token it fails at, or all of the tokens if it has come to their end, can be made a
phrase of its level.  And it has not looked further, so it fails in the same way whatever comes
behind that token.  `Reader.Faults` says both of an error, `Reader.Faulty` of a reader, and each way
of building a reader keeps it, up to `Reader.faulty_withRoom`.

To make a phrase of what was read, the operand, bracket or name that was called for is put behind
it.  An operand is always a number then, which fits behind every operator.
-/

namespace SurveyLogic

/-! ## Beginnings of phrases -/

/-- The tokens can be made a phrase of the level by others behind them. -/
def Begins (level : Level) (tokens : List Lexeme) : Prop :=
  ∃ more tree, Derives level (tokens ++ more) tree

/-- A number is a phrase of every level. -/
theorem derives_one (level : Level) :
    Derives level [⟨.number .one, 0⟩] (.number .one 0) :=
  (Derives.number .one 0).of_within (by cases level <;> decide)

theorem begins_nil (level : Level) : Begins level [] := ⟨_, _, derives_one level⟩

theorem Derives.begins {level : Level} {tokens : List Lexeme} {tree : Expr}
    (h : Derives level tokens tree) : Begins level tokens :=
  ⟨[], tree, by simpa using h⟩

theorem Begins.of_within {inner outer : Level} {tokens : List Lexeme} (h : Begins inner tokens)
    (hwithin : inner.Within outer) : Begins outer tokens := by
  obtain ⟨more, tree, hderives⟩ := h
  exact ⟨more, tree, hderives.of_within hwithin⟩

theorem Begins.group {tokens : List Lexeme} (h : Begins .or tokens) (position : Nat) :
    Begins .unary (⟨.symbol .openParen, position⟩ :: tokens) := by
  obtain ⟨more, tree, hderives⟩ := h
  exact ⟨more ++ [⟨.symbol .closeParen, 0⟩], _, by simpa using hderives.group position 0⟩

theorem Begins.unary {tokens : List Lexeme} (h : Begins .unary tokens) {operator : UnaryOperator}
    {sign : Lexeme} (hsign : sign.token ∈ operator.spellings) : Begins .unary (sign :: tokens) := by
  obtain ⟨more, tree, hderives⟩ := h
  exact ⟨more, _, .unary hsign hderives⟩

theorem Begins.power {before after : List Lexeme} {base : Expr} (hbase : Derives .unary before base)
    (h : Begins .power after) (position : Nat) :
    Begins .power (before ++ ⟨.symbol .caret, position⟩ :: after) := by
  obtain ⟨more, tree, hderives⟩ := h
  exact ⟨more, _, by simpa using hbase.power position hderives⟩

/-- An operand that an operator goes with can be finished so that the operator still does. -/
theorem Begins.exists_lone {level : Level} {before tokens sign : List Lexeme}
    (h : Begins level before) (hfront : before <+: tokens) (hlone : LoneIs sign tokens) :
    ∃ more tree, Derives level (before ++ more) tree ∧ LoneIs sign (before ++ more) := by
  cases before with
  | nil => exact ⟨_, _, derives_one level, by simp [LoneIs]⟩
  | cons first before =>
      obtain ⟨more, tree, hderives⟩ := h
      obtain ⟨rest, rfl⟩ := hfront
      exact ⟨more, tree, hderives, (Reader.LoneIs.of_append hlone).append (by simp) more⟩

section Link

variable {level : Level} {link : Link} {consumed sign tokens : List Lexeme} {left : Expr}
  {position : Nat}

/-- A phrase of a chain with a link behind it, and the beginning of what the link asks for. -/
theorem Link.Written.begins (hlink : link.Written level position (sign ++ tokens) tokens)
    (hlevel : level ≠ .power) (hleft : Derives level consumed left) {before : List Lexeme}
    (hfront : before <+: tokens) (h : Begins level.operand before) :
    Begins level (consumed ++ (sign ++ before)) := by
  cases link with
  | logical operator =>
      obtain ⟨more, tree, hderives⟩ := h
      obtain ⟨only, hsign, hlonger⟩ := Reader.derives_logical hlink hleft hderives
      obtain rfl : sign = [only] := List.append_cancel_right (hsign.trans (by simp))
      exact ⟨more, _, by simpa using hlonger⟩
  -- the operator may be an `is`, and then not every operand will do
  | binary operator =>
      obtain ⟨rfl, first, others, hsign, rfl, hspelled, hlone⟩ := hlink
      obtain rfl : sign = first :: others := List.append_cancel_right hsign
      obtain ⟨more, tree, hderives, hlone'⟩ := h.exists_lone hfront hlone
      have hpower : operator ≠ .power := by
        rintro rfl
        exact hlevel rfl
      exact ⟨more, _, by simpa using hleft.joined hpower hspelled hlone' hderives⟩
  | range =>
      obtain ⟨rfl, atBetween, hsign⟩ := hlink
      obtain ⟨more, tree, hderives⟩ := h
      obtain rfl : sign = [⟨.keyword .is, position⟩, ⟨.name "between", atBetween⟩] :=
        List.append_cancel_right (hsign.trans (by simp))
      -- a range is finished with an upper bound
      have hrange := Derives.between position atBetween 0 hleft hderives (derives_one .additive)
      exact ⟨more ++ [⟨.keyword .and, 0⟩, ⟨.number .one, 0⟩], _, by simpa using hrange⟩

/-- A range test up to its lower bound, and behind the `and`. -/
theorem Link.Written.begins_upper
    (hlink : Link.range.Written level position (sign ++ tokens) tokens)
    (hleft : Derives level consumed left) {first : List Lexeme} {lower : Expr}
    (hlower : Derives level.operand first lower) :
    Begins level (consumed ++ (sign ++ first)) ∧
    ∀ before atAnd, Begins level.operand before →
      Begins level (consumed ++ (sign ++ (first ++ ⟨.keyword .and, atAnd⟩ :: before))) := by
  obtain ⟨rfl, atBetween, hsign⟩ := hlink
  obtain rfl : sign = [⟨.keyword .is, position⟩, ⟨.name "between", atBetween⟩] :=
    List.append_cancel_right (hsign.trans (by simp))
  constructor
  · have hrange := Derives.between position atBetween 0 hleft hlower (derives_one .additive)
    exact ⟨[⟨.keyword .and, 0⟩, ⟨.number .one, 0⟩], _, by simpa using hrange⟩
  · rintro before atAnd ⟨more, upper, hupper⟩
    have hrange := Derives.between position atBetween atAnd hleft hlower hupper
    exact ⟨more, _, by simpa using hrange⟩

end Link

/-- The tokens can be made elements of an array. -/
def BeginsElements (tokens : List Lexeme) : Prop :=
  ∃ more trees, DerivesAll (tokens ++ more) trees

theorem Begins.elements {tokens : List Lexeme} (h : Begins .or tokens) : BeginsElements tokens := by
  obtain ⟨more, tree, hderives⟩ := h
  exact ⟨more, [tree], .one hderives⟩

theorem BeginsElements.more {first others : List Lexeme} {tree : Expr} (h : BeginsElements others)
    (hfirst : Derives .or first tree) (position : Nat) :
    BeginsElements (first ++ ⟨.symbol .comma, position⟩ :: others) := by
  obtain ⟨more, trees, hderives⟩ := h
  exact ⟨more, _, by simpa using hderives.more position hfirst⟩

theorem BeginsElements.array {tokens : List Lexeme} (h : BeginsElements tokens) (position : Nat) :
    Begins .unary (⟨.symbol .openBracket, position⟩ :: tokens) := by
  obtain ⟨more, trees, hderives⟩ := h
  exact ⟨more ++ [⟨.symbol .closeBracket, 0⟩], _, by
    simpa using Derives.array position 0 hderives⟩

/-! ## Errors -/

namespace Reader

/-- An error at the end of the tokens, or at one of them: what is in front of it has begun
something, and the error is the same whatever is behind it.  A lack of room may show anywhere. -/
def Faults (Begun : List Lexeme → Prop) (Fails : List Lexeme → SyntaxError → Prop)
    (tokens : List Lexeme) : SyntaxError → Prop
  | .unexpectedEnd _ => Begun tokens
  | .unexpectedToken found expected position =>
    ∃ before after, tokens = before ++ ⟨found, position⟩ :: after ∧ Begun before ∧
      ∀ after', Fails (before ++ ⟨found, position⟩ :: after')
        (.unexpectedToken found expected position)
  | .nestingTooDeep _ => True
  | _ => False

/-- An error behind some tokens, seen from in front of them. -/
theorem Faults.after {Begun Begun' : List Lexeme → Prop}
    {Fails Fails' : List Lexeme → SyntaxError → Prop} {tokens : List Lexeme} {error : SyntaxError}
    (h : Faults Begun Fails tokens error) (front : List Lexeme)
    (hbegun : ∀ before, before <+: tokens → Begun before → Begun' (front ++ before))
    (hfails : ∀ before found after after', tokens = before ++ found :: after → Begun before →
      Fails (before ++ found :: after') error →
      Fails' (front ++ (before ++ found :: after')) error) :
    Faults Begun' Fails' (front ++ tokens) error := by
  cases error with
  | unexpectedEnd => exact hbegun tokens (List.prefix_refl _) h
  | unexpectedToken found expected position =>
      obtain ⟨before, after, rfl, hbefore, hagain⟩ := h
      refine ⟨front ++ before, after, by simp, hbegun before (List.prefix_append _ _) hbefore, ?_⟩
      intro after'
      rw [List.append_assoc]
      exact hfails before _ after after' rfl hbefore (hagain after')
  | nestingTooDeep => trivial
  | unterminatedString | trailingTokens | invalidAssignmentTarget => exact h

theorem Faults.imp {Begun Begun' : List Lexeme → Prop}
    {Fails Fails' : List Lexeme → SyntaxError → Prop} {tokens : List Lexeme} {error : SyntaxError}
    (h : Faults Begun Fails tokens error) (hbegun : ∀ before, Begun before → Begun' before)
    (hfails : ∀ tokens, Fails tokens error → Fails' tokens error) :
    Faults Begun' Fails' tokens error :=
  h.after [] (fun before _ => hbegun before) fun _ _ _ _ _ _ hagain => hfails _ hagain

/-- The errors of the reader lie where phrases of the level end. -/
def Faulty (level : Level) (read : Reader Expr) : Prop :=
  ∀ tokens error, read tokens = .error error →
    Faults (Begins level) (fun tokens' error => read tokens' = .error error) tokens error

/-- What the reader answers is a phrase that has ended, and it answers this wherever the phrase ends
alike. -/
def Exact (level : Level) (read : Reader Expr) : Prop :=
  ∀ tokens reading, read tokens = .ok reading →
    ∃ consumed, tokens = consumed ++ reading.rest ∧ Derives level consumed reading.result ∧
      Unlinked level reading.rest ∧ ∀ rest', StopsAlike level reading.rest rest' →
        Answers (read (consumed ++ rest')) reading.result rest'

variable {room : Nat}

theorem exact_withRoom (hroom : 1 ≤ room) (level : Level) : Exact level (withRoom room level) := by
  intro tokens reading h
  obtain ⟨⟨consumed, htokens, hderives⟩, hunlinked, -⟩ := sound_withRoom room hroom level _ _ h
  obtain ⟨consumed', htokens', hlocal⟩ := local_withRoom room level _ _ h
  obtain rfl : consumed = consumed' := List.append_cancel_right (htokens.symm.trans htokens')
  exact ⟨consumed, htokens, hderives, hunlinked, hlocal⟩

theorem exact_descend (level : Level) (position : Nat) :
    Exact level (descend (below room) level position) := by
  by_cases hroom : 2 ≤ room
  · rw [descend_below hroom]
    exact exact_withRoom (by omega) level
  · intro tokens reading h
    rw [below_of_lt hroom] at h
    contradiction

theorem localBelow (room : Nat) : LocalBelow room :=
  fun level _ => local_withRoom (room - 1) level

theorem soundBelow (room : Nat) : SoundBelow room (below room) := by
  intro read hread
  by_cases hroom : 2 ≤ room
  · rw [below_of_le hroom] at hread
    obtain rfl := Option.some.inj hread
    exact ⟨hroom, sound_withRoom (room - 1) (by omega)⟩
  · rw [below_of_lt hroom] at hread
    contradiction

/-- The readers for less room fail where phrases end. -/
def FaultyBelow (room : Nat) : Prop :=
  ∀ level, 2 ≤ room → Faulty level (withRoom (room - 1) level)

theorem faulty_descend (hbelow : FaultyBelow room) (level : Level) (position : Nat) :
    Faulty level (descend (below room) level position) := by
  by_cases hroom : 2 ≤ room
  · rw [descend_below hroom]
    exact hbelow level hroom
  · intro tokens error h
    rw [below_of_lt hroom] at h
    obtain rfl := Except.error.inj h
    trivial

/-- A rest that is left on the loosest level does not start with an `is`, which would be a link. -/
theorem ne_is_of_unlinked {lexeme : Lexeme} {rest : List Lexeme}
    (h : Unlinked .or (lexeme :: rest)) : lexeme.token ≠ .keyword .is := by
  obtain ⟨token, position⟩ := lexeme
  rintro rfl
  have hnone := h .equality (by decide)
  unfold Level.link? at hnone
  split at hnone <;> simp_all

/-! ## Single tokens -/

theorem faults_expect {expected : Token} {tokens : List Lexeme} {error : SyntaxError}
    (h : expect expected tokens = .error error) :
    Faults (· = []) (fun tokens' error => expect expected tokens' = .error error) tokens error := by
  unfold expect at h
  split at h
  · obtain rfl := Except.error.inj h
    rfl
  · next token position rest =>
      split at h
      · contradiction
      · next hne =>
          obtain rfl := Except.error.inj h
          exact ⟨[], rest, rfl, rfl, fun after' => if_neg hne⟩

theorem faults_fit {tree : Expr} {position : Nat} {error : SyntaxError}
    (h : fit room tree position = .error error) (Begun : List Lexeme → Prop)
    (Fails : List Lexeme → SyntaxError → Prop) (tokens : List Lexeme) :
    Faults Begun Fails tokens error := by
  unfold fit at h
  split at h
  · contradiction
  · obtain rfl := Except.error.inj h
    trivial

/-! ## Names, arrays and groups -/

/-- A dot without a name behind it. -/
theorem faults_property {tokens : List Lexeme} {error : SyntaxError}
    (h : property? tokens = .error error) :
    Faults (∃ position, · = [⟨.symbol .dot, position⟩])
      (fun tokens' error => property? tokens' = .error error) tokens error := by
  unfold property? at h
  split at h
  · contradiction
  · next atDot token position rest hname =>
      obtain rfl := Except.error.inj h
      refine ⟨[⟨.symbol .dot, atDot⟩], rest, rfl, ⟨atDot, rfl⟩, fun after' => ?_⟩
      cases token with
      | name word => exact absurd rfl (hname word)
      | number | text | truth | keyword | symbol => rfl
  · next atDot =>
      obtain rfl := Except.error.inj h
      exact ⟨atDot, rfl⟩
  · contradiction

theorem faults_members {whole : List Lexeme} {object : Reading Expr whole} {error : SyntaxError}
    (h : members room object = .error error) {consumed : List Lexeme}
    (hderives : DerivesMember consumed object.result) :
    Faults (fun before => ∃ more tree, DerivesMember (consumed ++ before ++ more) tree)
      (fun tokens' error => ∀ (whole' : List Lexeme) (object' : Reading Expr whole'),
        object'.result = object.result → object'.rest = tokens' →
        members room object' = .error error) object.rest error := by
  induction hlength : object.rest.length using Nat.strongRecOn generalizing object consumed with
  | ind length ih =>
      cases hproperty : property? object.rest with
      | error other =>
          rw [members_of_error hproperty] at h
          obtain rfl := Except.error.inj h
          refine (faults_property hproperty).imp ?_ ?_
          · -- a name finishes what the dot has begun
            rintro before ⟨position, rfl⟩
            exact ⟨[⟨.name "name", 0⟩], _, by simpa using hderives.property "name" position 0⟩
          · rintro tokens' hagain whole' object' hresult rfl
            exact members_of_error hagain
      | ok found =>
          cases found with
          | none =>
              rw [members_of_none hproperty] at h
              contradiction
          | some found =>
              obtain ⟨property, position, rest⟩ := found
              rw [members_of_some hproperty] at h
              rcases error_of_bind_eq_error h with hfull | ⟨node, hnode, hmore⟩
              · exact faults_fit hfull _ _ _
              obtain ⟨rfl, -⟩ := eq_of_fit hnode
              obtain ⟨after, hrest⟩ := property?_spec hproperty
              have hlonger := hderives.property property position after
              rw [hrest]
              have hshorter := length_lt_of_property? hproperty
              -- behind a whole property it is the loop over a longer chain that fails
              refine (ih rest.length (hlength ▸ hshorter) hmore hlonger rfl).after
                [⟨.symbol .dot, position⟩, ⟨.name property, after⟩] ?_ ?_
              · rintro before - ⟨more, tree, htree⟩
                exact ⟨more, tree, by simpa using htree⟩
              · intro before found behind behind' _ _ hagain whole' object' hresult hrest'
                have hproperty' : property? object'.rest =
                    .ok (some (property, position, before ++ found :: behind')) := by
                  rw [hrest']
                  rfl
                rw [members_of_some hproperty', hresult, hnode, ok_bind]
                exact hagain whole' _ rfl rfl

theorem elements_of_error {read : Reader Expr} {tokens : List Lexeme} {error : SyntaxError}
    (h : read tokens = .error error) : elements read tokens = .error error := by
  unfold elements
  rw [h]
  rfl

theorem elements_of_comma_error {read : Reader Expr} {tokens others : List Lexeme} {tree : Expr}
    {position : Nat} {error : SyntaxError}
    (h : Answers (read tokens) tree (⟨.symbol .comma, position⟩ :: others))
    (hothers : elements read others = .error error) : elements read tokens = .error error := by
  obtain ⟨shorter, hread⟩ := h
  unfold elements
  rw [hread, ok_bind]
  dsimp only
  rw [hothers]
  rfl

theorem elements_of_other {read : Reader Expr} {tokens rest : List Lexeme} {tree : Expr}
    {token : Token} {position : Nat}
    (h : Answers (read tokens) tree (⟨token, position⟩ :: rest))
    (hclose : token ≠ .symbol .closeBracket) (hcomma : token ≠ .symbol .comma) :
    elements read tokens = .error (.unexpectedToken token .elementEnd position) := by
  obtain ⟨shorter, hread⟩ := h
  unfold elements
  rw [hread, ok_bind]
  dsimp only
  split
  · next heq => simp at heq
  · next heq => exact absurd (congrArg Lexeme.token (List.cons.inj heq).1) hclose
  · next heq => exact absurd (congrArg Lexeme.token (List.cons.inj heq).1) hcomma
  · next heq =>
      obtain ⟨rfl, rfl⟩ := Lexeme.mk.inj (List.cons.inj heq).1
      rfl

theorem faults_elements {read : Reader Expr} (hexact : Exact .or read) (hfaulty : Faulty .or read)
    {tokens : List Lexeme} {error : SyntaxError} (h : elements read tokens = .error error) :
    Faults BeginsElements (fun tokens' error => elements read tokens' = .error error) tokens
      error := by
  induction hlength : tokens.length using Nat.strongRecOn generalizing tokens with
  | ind length ih =>
      unfold elements at h
      rcases error_of_bind_eq_error h with hfirst | ⟨first, hfirst, hmore⟩
      · -- in the first element
        exact (hfaulty tokens error hfirst).imp (fun before => Begins.elements)
          fun tokens' => elements_of_error
      obtain ⟨consumed, htokens, hderives, hunlinked, hlocal⟩ := hexact tokens first hfirst
      have hshorter := first.shorter
      split at hmore
      · -- at the end of the tokens, behind a whole element
        next hrest =>
          obtain rfl := Except.error.inj hmore
          rw [htokens, hrest]
          exact (by simpa using hderives.begins.elements : BeginsElements (consumed ++ []))
      · contradiction
      · -- behind a comma
        next position rest hrest =>
          rcases error_of_bind_eq_error hmore with hothers | ⟨others, hothers, hok⟩
          · have hlt : rest.length < length := by
              rw [hrest, List.length_cons] at hshorter
              omega
            rw [hrest] at hlocal htokens
            rw [htokens, ← List.singleton_append, ← List.append_assoc]
            refine (ih rest.length hlt hothers rfl).after _ ?_ ?_
            · intro before _ hbefore
              simpa using hbefore.more hderives position
            · intro before found after after' _ _ hagain
              have hread := hlocal (⟨.symbol .comma, position⟩ :: (before ++ found :: after'))
                (stopsAlike_cons (by simp) .or position _ _)
              rw [List.append_assoc, List.singleton_append]
              exact elements_of_comma_error hread hagain
          · contradiction
      · -- at any other token; that is no link, so it ends the element whatever is behind it
        next token position rest hclose hcomma hrest =>
          obtain rfl := Except.error.inj hmore
          rw [hrest] at hlocal htokens hunlinked
          refine ⟨consumed, rest, htokens, hderives.begins.elements, fun after' => ?_⟩
          have hread := hlocal (⟨token, position⟩ :: after')
            (stopsAlike_cons (ne_is_of_unlinked hunlinked) .or position _ _)
          exact elements_of_other hread (fun heq => hclose (by simp [heq]))
            (fun heq => hcomma (by simp [heq]))

theorem faults_group (hbelow : FaultyBelow room) {position : Nat} {tokens : List Lexeme}
    {error : SyntaxError}
    (h : primary room (below room) (⟨.symbol .openParen, position⟩ :: tokens) = .error error) :
    Faults (Begins .unary) (fun tokens' error => primary room (below room) tokens' = .error error)
      (⟨.symbol .openParen, position⟩ :: tokens) error := by
  rw [primary_group] at h
  rcases error_of_bind_eq_error h with hinner | ⟨inner, hinner, hmore⟩
  · -- inside
    refine (faulty_descend hbelow .or position tokens error hinner).after
      [⟨.symbol .openParen, position⟩] ?_ ?_
    · intro before _ hbefore
      exact hbefore.group position
    · intro before found after after' _ _ hagain
      rw [List.singleton_append, primary_group, hagain, error_bind]
  rcases error_of_bind_eq_error hmore with hclose | ⟨close, hclose, hok⟩
  · -- at what stands in place of the closing parenthesis
    obtain ⟨consumed, htokens, hderives, hunlinked, hlocal⟩ := exact_descend _ _ _ _ hinner
    rw [htokens, ← List.cons_append]
    refine (faults_expect hclose).after _ ?_ ?_
    · rintro before - rfl
      rw [List.append_nil]
      exact hderives.begins.group position
    · rintro before found after after' hrest rfl hagain
      rw [List.nil_append] at hrest hagain
      rw [hrest] at hunlinked hlocal
      obtain ⟨_, hread⟩ := hlocal (found :: after')
        (stopsAlike_cons (ne_is_of_unlinked hunlinked) .or _ _ _)
      rw [List.nil_append, List.cons_append, primary_group, hread, ok_bind, hagain, error_bind]
  · contradiction

theorem faults_bracket (hbelow : FaultyBelow room) {position : Nat} {tokens : List Lexeme}
    {error : SyntaxError}
    (h : primary room (below room) (⟨.symbol .openBracket, position⟩ :: tokens) = .error error) :
    Faults (Begins .unary) (fun tokens' error => primary room (below room) tokens' = .error error)
      (⟨.symbol .openBracket, position⟩ :: tokens) error := by
  by_cases hroom : 2 ≤ room
  · have hopen : ∀ close rest, tokens ≠ ⟨.symbol .closeBracket, close⟩ :: rest := by
      rintro close rest rfl
      obtain ⟨_, hread⟩ := primary_emptyArray hroom position close rest
      rw [hread] at h
      contradiction
    rw [primary_array (below_of_le hroom) hopen] at h
    rcases error_of_bind_eq_error h with hinner | ⟨inner, hinner, hok⟩
    · have hexact : Exact .or (withRoom (room - 1) .or) := exact_withRoom (by omega) .or
      refine (faults_elements hexact (hbelow .or hroom) hinner).after
        [⟨.symbol .openBracket, position⟩] ?_ ?_
      · intro before _ hbefore
        exact hbefore.array position
      · rintro before found after after' rfl _ hagain
        -- the first token is still the one that was there
        have hopen' : ∀ close rest,
            before ++ found :: after' ≠ ⟨.symbol .closeBracket, close⟩ :: rest := by
          intro close rest heq
          cases before with
          | nil =>
              obtain ⟨rfl, -⟩ := List.cons.inj heq
              exact hopen close after rfl
          | cons first before =>
              obtain ⟨rfl, -⟩ := List.cons.inj heq
              exact hopen close _ rfl
        rw [List.singleton_append, primary_array (below_of_le hroom) hopen', hagain, error_bind]
    · contradiction
  · rw [primary_bracket_of_lt hroom] at h
    obtain rfl := Except.error.inj h
    trivial

/-- A token that starts no operand. -/
theorem faults_first {read : Reader Expr} {token : Token} {position : Nat} {rest : List Lexeme}
    (h : ∀ after, read (⟨token, position⟩ :: after) =
      .error (.unexpectedToken token .expression position)) :
    Faults (Begins .unary) (fun tokens' error => read tokens' = .error error)
      (⟨token, position⟩ :: rest) (.unexpectedToken token .expression position) :=
  ⟨[], rest, rfl, begins_nil .unary, h⟩

theorem faulty_primary (hbelow : FaultyBelow room) :
    Faulty .unary (primary room (below room)) := by
  intro tokens error h
  cases tokens with
  | nil =>
      obtain rfl := Except.error.inj h
      exact begins_nil .unary
  | cons first rest =>
      obtain ⟨token, position⟩ := first
      cases token with
      | number | text | truth => contradiction
      | name word =>
          -- a name is read already, so the fault is in what stands behind a later dot
          have hmembers : members room (.first (.name word position) ⟨.name word, position⟩ rest) =
              .error error := h
          have hfaults := faults_members hmembers (.name word position)
          refine hfaults.after [⟨.name word, position⟩] ?_ ?_
          · rintro before - ⟨more, tree, hderives⟩
            exact ⟨more, tree, .member hderives⟩
          · intro before found after after' _ _ hagain
            have hlonger := hagain (⟨.name word, position⟩ :: (before ++ found :: after'))
            exact hlonger (.first _ _ _) rfl rfl
      | keyword word =>
          obtain rfl := Except.error.inj h
          exact faults_first fun after => rfl
      | symbol sign =>
          cases sign with
          | openParen => exact faults_group hbelow h
          | openBracket => exact faults_bracket hbelow h
          | _ =>
              obtain rfl := Except.error.inj h
              exact faults_first fun after => rfl

/-! ## Prefix operators and powers -/

theorem faulty_unary (hbelow : FaultyBelow room) : Faulty .unary (unary room (below room)) := by
  intro tokens error h
  cases tokens with
  | nil =>
      obtain rfl := Except.error.inj h
      exact begins_nil .unary
  | cons sign tokens =>
      cases hoperator : unaryOperator? sign.token with
      | none =>
          rw [unary_of_none hoperator] at h
          refine (faulty_primary hbelow _ error h).after [] (fun _ _ hbefore => hbefore) ?_
          intro before found after after' hsplit _ hagain
          -- the token that shows that there is no operator is still the first one
          cases before with
          | nil =>
              obtain ⟨rfl, -⟩ := List.cons.inj hsplit
              exact (unary_of_none hoperator after').trans hagain
          | cons first before =>
              obtain ⟨rfl, -⟩ := List.cons.inj hsplit
              exact (unary_of_none hoperator _).trans hagain
      | some operator =>
          rw [unary_of_some hoperator] at h
          rcases error_of_bind_eq_error h with hoperand | ⟨operand, hoperand, hok⟩
          · refine (faulty_descend hbelow .unary _ tokens error hoperand).after [sign] ?_ ?_
            · intro before _ hbefore
              exact hbefore.unary (mem_spellings_of_unaryOperator? hoperator)
            · intro before found after after' _ _ hagain
              rw [List.singleton_append, unary_of_some hoperator, hagain, error_bind]
          · contradiction

theorem faulty_power (hroom : 1 ≤ room) (hbelow : FaultyBelow room) :
    Faulty .power (power room (below room)) := by
  have hexact : Exact .unary (unary room (below room)) := by
    rw [← ofLevel_unary, ← withRoom_eq]
    exact exact_withRoom hroom .unary
  intro tokens error h
  unfold power at h
  rcases error_of_bind_eq_error h with hbase | ⟨base, hbase, hmore⟩
  · -- in the base
    refine (faulty_unary hbelow tokens error hbase).imp
      (fun before hbefore => hbefore.of_within (by decide)) ?_
    intro tokens' hagain
    unfold power
    rw [hagain, error_bind]
  obtain ⟨consumed, htokens, hderives, hunlinked, hlocal⟩ := hexact tokens base hbase
  split at hmore
  · next position rest hrest =>
      rcases error_of_bind_eq_error hmore with hexponent | ⟨exponent, hexponent, hnext⟩
      · -- in the exponent, behind the base and its `^`
        rw [hrest] at hlocal htokens
        rw [htokens, ← List.singleton_append, ← List.append_assoc]
        refine (faulty_descend hbelow .power position rest error hexponent).after _ ?_ ?_
        · intro before _ hbefore
          simpa using hbefore.power hderives position
        · intro before found after after' _ _ hagain
          have hread := hlocal _ (stopsAlike_cons (by simp) .unary position _
            (before ++ found :: after'))
          obtain ⟨_, hpower⟩ := power_of_caret hread
          rw [List.append_assoc, List.singleton_append, hpower, hagain, error_bind]
      rcases error_of_bind_eq_error hnext with hfull | ⟨node, hnode, hok⟩
      · exact faults_fit hfull _ _ _
      · contradiction
  · contradiction

/-! ## Chains -/

section Chain

variable {level : Level} {link : Link} {left : Expr} {position : Nat}

/-- Whatever fails first behind a link is what is called for there. -/
theorem linked_of_error {operand : Reader Expr} {tokens : List Lexeme} {error : SyntaxError}
    (h : operand tokens = .error error) :
    linked link operand left position tokens = .error error := by
  unfold linked
  rw [h, error_bind]

theorem linked_range (left : Expr) (position : Nat) {operand : Reader Expr}
    {tokens rest : List Lexeme} {lower : Expr} (h : Answers (operand tokens) lower rest) :
    ∃ shorter : ∀ (and : Reading Unit rest), and.rest.length ≤ tokens.length,
      linked .range operand left position tokens =
        expect (.keyword .and) rest >>= fun and => operand and.rest >>= fun upper =>
          .ok (upper.within (.between left lower upper.result position) (shorter and)) := by
  obtain ⟨shorter, hread⟩ := h
  refine ⟨fun and => Nat.le_of_lt (Nat.lt_trans and.shorter shorter), ?_⟩
  unfold linked
  rw [hread, ok_bind]

theorem faults_linked {operand : Reader Expr} (hexact : Exact level.operand operand)
    (hfaulty : Faulty level.operand operand) (hlevel : level ≠ .power)
    {consumed sign tokens : List Lexeme} (hleft : Derives level consumed left)
    (hlink : link.Written level position (sign ++ tokens) tokens) {error : SyntaxError}
    (h : linked link operand left position tokens = .error error) :
    Faults (fun before => Begins level (consumed ++ (sign ++ before)))
      (fun tokens' error => linked link operand left position tokens' = .error error) tokens
      error := by
  unfold linked at h
  rcases error_of_bind_eq_error h with hfirst | ⟨first, hfirst, hmore⟩
  · -- in the operand
    refine (hfaulty tokens error hfirst).after [] ?_ ?_
    · intro before hfront hbefore
      exact hlink.begins hlevel hleft hfront hbefore
    · intro before found after after' _ _ hagain
      exact linked_of_error hagain
  obtain ⟨consumed₁, htokens, hderives, -, hlocal⟩ := hexact tokens first hfirst
  split at hmore
  · contradiction
  · contradiction
  · obtain ⟨hlower, hupper⟩ := hlink.begins_upper hleft hderives
    obtain rfl : level = .relational := hlink.1
    rcases error_of_bind_eq_error hmore with hand | ⟨and, hand, hnext⟩
    · -- where a range lacks its `and`
      rw [htokens]
      refine (faults_expect hand).after consumed₁ ?_ ?_
      · rintro before - rfl
        rwa [List.append_nil]
      · rintro before ⟨token, atToken⟩ after after' hrest rfl hagain
        rw [List.nil_append] at hrest hagain
        -- in place of the `and` there may be an `is`, which ends the lower bound in any case
        have hstops : StopsAlike .additive first.rest (⟨token, atToken⟩ :: after') := by
          rw [hrest]
          by_cases his : token = .keyword .is
          · subst his
            exact stopsAlike_is (Level.within_refl _) atToken after after'
          · exact stopsAlike_cons his .additive atToken after after'
        obtain ⟨_, hrange⟩ := linked_range left position (hlocal _ hstops)
        rw [List.nil_append, hrange, hagain, error_bind]
    rcases error_of_bind_eq_error hnext with hfails | ⟨upper, hread, hok⟩
    · -- in the upper bound of a range
      obtain ⟨atAnd, hrest⟩ := eq_cons_of_expect hand
      rw [hrest] at hlocal htokens
      rw [htokens, ← List.singleton_append, ← List.append_assoc]
      refine (hfaulty and.rest error hfails).after _ ?_ ?_
      · intro before _ hbefore
        simpa using hupper before atAnd hbefore
      · intro before found after after' _ _ hagain
        have hread := hlocal _ (stopsAlike_cons (by simp) Level.relational.operand atAnd _
          (before ++ found :: after'))
        obtain ⟨_, hrange⟩ := linked_range left position hread
        rw [List.append_assoc, List.singleton_append, hrange, expect_self, ok_bind]
        dsimp only [Reading.first]
        rw [hagain, error_bind]
    · contradiction

/-- Nothing is read behind a link unless there is room for it. -/
theorem room_of_linked {tokens : List Lexeme} {joined : Reading Expr tokens}
    (h : linked link (descend (below room) level.operand position) left position tokens =
      .ok joined) : 2 ≤ room := by
  unfold linked at h
  obtain ⟨first, hfirst, -⟩ := exists_of_bind_eq_ok h
  exact room_of_descend (soundBelow room) hfirst

/-- The phrase that was taken is all that stands in front of the rest. -/
theorem Taken.derives_of_eq {ended : Level} {whole consumed rest : List Lexeme} {tree : Expr}
    (h : Taken level ended room whole tree rest) (hwhole : whole = consumed ++ rest) :
    Derives level consumed tree := by
  obtain ⟨consumed', hwhole', hderives⟩ := h.derives
  obtain rfl := List.append_cancel_right (hwhole.symm.trans hwhole')
  exact hderives

/-- The links of a chain: an error lies behind at least one token, that of a link. -/
theorem faults_links (hbelow : FaultyBelow room) (hlevel : level ≠ .power) {whole : List Lexeme}
    {left : Reading Expr whole} {error : SyntaxError}
    (h : links level room (below room) left = .error error)
    (hleft : Taken level level.operand room whole left.result left.rest) {consumed : List Lexeme}
    (hwhole : whole = consumed ++ left.rest) :
    Faults (fun before => before ≠ [] ∧ Begins level (consumed ++ before))
      (fun tokens' error => ∀ (whole' : List Lexeme) (left' : Reading Expr whole'),
        left'.result = left.result → left'.rest = tokens' →
        links level room (below room) left' = .error error) left.rest error := by
  induction hlength : left.rest.length using Nat.strongRecOn generalizing left consumed with
  | ind length ih =>
      cases hlink : level.link? left.rest with
      | none =>
          rw [links_of_none hlink] at h
          contradiction
      | some found =>
          obtain ⟨link, position, tokens⟩ := found
          rw [links_of_some hlink] at h
          have hwritten := Level.link?_spec hleft.unlinked hlink
          have hshorter := Level.length_lt_of_link? hlink
          obtain ⟨sign, hsign, hrest⟩ := Level.exists_sign hlink
          rw [hrest] at hlink hwritten
          rcases error_of_bind_eq_error h with hfails | ⟨joined, hjoined, hmore⟩
          · -- behind the link
            have hderives := hleft.derives_of_eq hwhole
            have hfaults := faults_linked (exact_descend _ position)
              (faulty_descend hbelow _ position) hlevel hderives hwritten hfails
            rw [hrest]
            refine hfaults.after sign ?_ ?_
            · intro before _ hbefore
              exact ⟨by simp [hsign], hbefore⟩
            · rintro before found after after' rfl _ hagain whole' left' hresult hrest'
              rw [List.append_cons] at hlink
              have hlink' := Level.link?_of_link? hsign (by simp) hlink after'
              rw [← List.append_cons, ← hrest'] at hlink'
              rw [links_of_some hlink', hresult, hagain, error_bind]
          rcases error_of_bind_eq_error hmore with hfull | ⟨node, hnode, hnext⟩
          · exact faults_fit hfull _ _ _
          -- behind a whole operand, or a whole range
          obtain ⟨rfl, hheight⟩ := eq_of_fit hnode
          obtain ⟨consumed₁, htokens, hlocal⟩ :=
            local_linked (local_descend (localBelow room) level.operand position) hjoined
          have hconsumed₁ := ne_nil_of_reading joined htokens
          have htaken := taken_linked hlevel
            (sound_descend (soundBelow room) level.operand position)
            (room_of_linked hjoined) hleft (hrest ▸ hwritten) hjoined hheight
          have hsplit : left.rest = (sign ++ consumed₁) ++ joined.rest := by
            rw [List.append_assoc, ← htokens, hrest]
          have hjoined_shorter := joined.shorter
          have hwhole' : whole = (consumed ++ (sign ++ consumed₁)) ++ joined.rest := by
            rw [List.append_assoc, ← hsplit]
            exact hwhole
          have hfaults := ih joined.rest.length (by omega) hnext htaken hwhole' rfl
          rw [hsplit]
          refine hfaults.after (sign ++ consumed₁) ?_ ?_
          · rintro before - ⟨hne, hbefore⟩
            exact ⟨by simp [hne], by simpa using hbefore⟩
          · rintro before found after after' hbehind ⟨hne, -⟩ hagain
            intro whole' left' hresult hrest'
            have hstops : StopsAlike level.operand joined.rest (before ++ found :: after') := by
              rw [show joined.rest = before ++ found :: after from hbehind]
              exact stopsAlike_of_ne_nil hne level.operand found after after'
            rw [htokens] at hlink
            obtain ⟨_, hlinks⟩ := links_of_behind hsign hconsumed₁ hlink hheight (hlocal _ hstops)
              hresult (by simpa using hrest')
            rw [hlinks]
            exact hagain whole' _ rfl rfl

theorem faulty_chain (hbelow : FaultyBelow room) (hlevel : level ≠ .power) {operand : Reader Expr}
    (hsound : Sound level.operand room operand) (hlocal : Local level.operand operand)
    (hfaulty : Faulty level.operand operand) :
    Faulty level (chain level room (below room) operand) := by
  intro tokens error h
  unfold chain at h
  rcases error_of_bind_eq_error h with hfirst | ⟨left, hleft, hlinks⟩
  · -- in the first operand
    refine (hfaulty tokens error hfirst).imp
      (fun before hbefore => hbefore.of_within level.operand_within) ?_
    intro tokens' hagain
    unfold chain
    rw [hagain, error_bind]
  obtain ⟨consumed, htokens, hlocal⟩ := hlocal tokens left hleft
  obtain ⟨⟨consumed', htokens', hderives⟩, hunlinked, hfits⟩ := hsound tokens left hleft
  have htaken : Taken level level.operand room tokens left.result left.rest :=
    ⟨⟨consumed', htokens', .of_operand hderives⟩, hunlinked, hfits⟩
  -- in the links; then a link stands in front of the error and lets the first operand stop
  have hfaults := faults_links hbelow hlevel hlinks htaken htokens
  rw [htokens]
  refine hfaults.after consumed ?_ ?_
  · rintro before - ⟨-, hbefore⟩
    exact hbefore
  · rintro before found after after' hrest ⟨hne, -⟩ hagain
    have hstops : StopsAlike level.operand left.rest (before ++ found :: after') := by
      rw [hrest]
      exact stopsAlike_of_ne_nil hne level.operand found after after'
    obtain ⟨_, hread⟩ := hlocal _ hstops
    unfold chain
    rw [hread, ok_bind]
    exact hagain _ _ rfl rfl

end Chain

/-! ## All levels -/

/-- **Readers fail where phrases end.**  An error of a reader that has room lies behind the
beginning of a phrase, and is the same whatever stands behind the token it is at. -/
theorem faulty_withRoom (room : Nat) (hroom : 1 ≤ room) (level : Level) :
    Faulty level (withRoom room level) := by
  induction room using Nat.strongRecOn generalizing level with
  | ind room ih =>
      have hbelow : FaultyBelow room :=
        fun level hroom => ih (room - 1) (by omega) (by omega) level
      rw [withRoom_eq]
      induction level using Level.chain_induction with
      | hunary =>
          rw [ofLevel_unary]
          exact faulty_unary hbelow
      | hpower =>
          rw [ofLevel_power]
          exact faulty_power hroom hbelow
      | hchain level hunary hpower ih =>
          have hsound := sound_withRoom room hroom level.operand
          have hlocal := local_withRoom room level.operand
          rw [withRoom_eq] at hsound hlocal
          rw [ofLevel_chain hunary hpower]
          exact faulty_chain hbelow hpower hsound hlocal ih

end Reader

end SurveyLogic
