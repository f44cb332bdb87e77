import SurveyLogic.Proofs.Grammar.Complete
import SurveyLogic.Proofs.Grammar.Sound

/-!
# What a reader looks at

What a reader takes off the front of its tokens does not depend on what is left, as long as that
gives it no reason to go on: `Reader.Local` says that the same is read in front of any rest at which
the reader may stop like at its own, `StopsAlike`.  Each way of building a reader keeps this, up to
`Reader.local_withRoom`.

A reader decides whether to go on by the first token of the rest, except that it takes the second
one to tell `is between` and `is not` from an `is` by itself.  So tokens decide when there are two
of them, or one that is no `is` (`Decides`).
-/

namespace SurveyLogic

/-! ## Looking ahead for a link -/

/-- Enough tokens to see whether a link stands in front. -/
def Decides : List Lexeme → Prop
  | [] => False
  | [only] => only.token ≠ .keyword .is
  | _ :: _ :: _ => True

theorem decides_cons {first : Lexeme} {more : List Lexeme}
    (h : first.token ≠ .keyword .is ∨ more ≠ []) : Decides (first :: more) := by
  cases more with
  | nil => exact h.resolve_right (by simp)
  | cons => trivial

theorem decides_append {front rest : List Lexeme} (hfront : front ≠ []) (hrest : rest ≠ []) :
    Decides (front ++ rest) := by
  obtain ⟨first, front, rfl⟩ := List.exists_cons_of_ne_nil hfront
  exact decides_cons (Or.inr (by simp [hrest]))

/-- The same link found, with more tokens behind it. -/
def Level.found (rest : List Lexeme) (found : Link × Nat × List Lexeme) :
    Link × Nat × List Lexeme :=
  (found.1, found.2.1, found.2.2 ++ rest)

/-- A token other than `is` shows its link by itself. -/
theorem Level.link?_cons {token : Token} (htoken : token ≠ .keyword .is) (level : Level)
    (position : Nat) (rest : List Lexeme) :
    level.link? (⟨token, position⟩ :: rest) =
      (level.link? [⟨token, position⟩]).map (Level.found rest) := by
  cases hoperator : token.operator? with
  | some operator =>
      rw [link?_operator hoperator, link?_operator hoperator]
      split <;> rfl
  | none =>
      cases token with
      | keyword word =>
          cases word <;> first
            | exact absurd rfl htoken
            | (cases level <;> rfl)
      | number | text | truth | name =>
          simp only [link?, hoperator, Option.map_none]
      | symbol sign =>
          simp only [link?, hoperator, Option.map_none]

theorem Level.link?_append {front : List Lexeme} (h : Decides front) (level : Level)
    (rest : List Lexeme) :
    level.link? (front ++ rest) = (level.link? front).map (Level.found rest) := by
  obtain ⟨⟨token, position⟩, more, rfl⟩ : ∃ first more, front = first :: more := by
    cases front with
    | nil => exact absurd h (by simp [Decides])
    | cons first more => exact ⟨first, more, rfl⟩
  -- only an `is` is told apart by the token behind it
  by_cases his : token = .keyword .is
  · subst his
    obtain ⟨⟨next, atNext⟩, more, rfl⟩ : ∃ next others, more = next :: others := by
      cases more with
      | nil => exact absurd rfl h
      | cons next others => exact ⟨next, others, rfl⟩
    by_cases hlevel : level = .equality
    · subst hlevel
      by_cases hnot : next = .keyword .not
      · subst hnot
        rfl
      · simp [link?, hnot, found]
    · by_cases hbetween : next = .name "between"
      · subst hbetween
        cases level <;> rfl
      · have hnone : ∀ others,
            level.link? (⟨.keyword .is, position⟩ :: ⟨next, atNext⟩ :: others) = none :=
          fun others => link?_is hlevel (by simpa using hbetween)
        simp only [List.cons_append, hnone, Option.map_none]
  · rw [List.cons_append, link?_cons his, link?_cons his _ _ more, Option.map_map]
    congr 1
    funext found
    simp [Level.found]

/-- What stands behind a link is the end of what it stands in front of. -/
theorem Level.exists_sign {level : Level} {tokens rest : List Lexeme} {link : Link} {position : Nat}
    (h : level.link? tokens = some (link, position, rest)) :
    ∃ sign, sign ≠ [] ∧ tokens = sign ++ rest := by
  unfold link? at h
  split at h
  case h_1 | h_2 | h_4 =>
    obtain ⟨-, -, rfl⟩ := by simpa using h
    exact ⟨[_], by simp, rfl⟩
  case h_3 | h_5 =>
    obtain ⟨-, -, rfl⟩ := by simpa using h
    exact ⟨[_, _], by simp, rfl⟩
  · split at h
    · split at h
      · obtain ⟨-, -, rfl⟩ := by simpa using h
        exact ⟨[_], by simp, rfl⟩
      · simp at h
    · simp at h
  · simp at h

/-- A link that is found in front of some tokens is found with others behind them. -/
theorem Level.link?_of_link? {level : Level} {sign consumed rest : List Lexeme} {link : Link}
    {position : Nat} (hsign : sign ≠ []) (hconsumed : consumed ≠ [])
    (h : level.link? (sign ++ (consumed ++ rest)) = some (link, position, consumed ++ rest))
    (rest' : List Lexeme) :
    level.link? (sign ++ (consumed ++ rest')) = some (link, position, consumed ++ rest') := by
  have hdecides := decides_append hsign hconsumed
  rw [← List.append_assoc, link?_append hdecides] at h ⊢
  obtain ⟨⟨link', position', front⟩, hfront, hfound⟩ := Option.map_eq_some_iff.mp h
  obtain ⟨rfl, rfl, heq⟩ : _ ∧ _ ∧ _ := by simpa [found] using hfound
  rw [hfront, heq]
  rfl

/-! ## Two rests with the same reasons to stop -/

/-- Where reading may stop in front of the one rest, on the level or a tighter one, it may in front
of the other. -/
structure StopsAlike (level : Level) (rest rest' : List Lexeme) : Prop where
  link : ∀ inner : Level, inner.Within level → inner.link? rest = none → inner.link? rest' = none
  property : Reader.property? rest = .ok none → Reader.property? rest' = .ok none

theorem StopsAlike.mono {inner outer : Level} {rest rest' : List Lexeme}
    (h : StopsAlike outer rest rest') (hwithin : inner.Within outer) :
    StopsAlike inner rest rest' :=
  ⟨fun level hlevel => h.link level (hlevel.trans hwithin), h.property⟩

/-- There is no property behind tokens that start with anything but a dot. -/
theorem undotted_of_property? {first : Lexeme} {rest : List Lexeme}
    (h : Reader.property? (first :: rest) = .ok none) : first.token ≠ .symbol .dot := by
  obtain ⟨token, position⟩ := first
  rintro rfl
  match rest with
  | [] => simp [Reader.property?] at h
  | ⟨token, _⟩ :: _ => cases token <;> simp [Reader.property?] at h

theorem property?_congr {first : Lexeme} {rest rest' : List Lexeme}
    (h : Reader.property? (first :: rest) = .ok none) :
    Reader.property? (first :: rest') = .ok none :=
  Reader.property?_of_undotted (by simpa using undotted_of_property? h)

/-- Tokens that decide stop reading whatever is behind them. -/
theorem stopsAlike_append {front : List Lexeme} (h : Decides front) (level : Level)
    (rest rest' : List Lexeme) : StopsAlike level (front ++ rest) (front ++ rest') where
  link := by
    intro inner _ hnone
    rw [Level.link?_append h] at hnone ⊢
    rw [Option.map_eq_none_iff] at hnone ⊢
    exact hnone
  property := by
    intro hnone
    cases front with
    | nil => exact absurd h (by simp [Decides])
    | cons first front => exact property?_congr hnone

/-- Two tokens decide, whatever they are. -/
theorem stopsAlike_of_ne_nil {before : List Lexeme} (hne : before ≠ []) (level : Level)
    (found : Lexeme) (rest rest' : List Lexeme) :
    StopsAlike level (before ++ found :: rest) (before ++ found :: rest') := by
  have hdecides : Decides (before ++ [found]) := decides_append hne (by simp)
  have halike := stopsAlike_append hdecides level rest rest'
  rwa [← List.append_cons, ← List.append_cons] at halike

theorem stopsAlike_cons {token : Token} (htoken : token ≠ .keyword .is) (level : Level)
    (position : Nat) (rest rest' : List Lexeme) :
    StopsAlike level (⟨token, position⟩ :: rest) (⟨token, position⟩ :: rest') := by
  have hdecides : Decides [⟨token, position⟩] := htoken
  exact stopsAlike_append hdecides level rest rest'

/-- Up to the additive level an `is` is no link, whatever is behind it. -/
theorem stopsAlike_is {level : Level} (h : level.Within .additive) (position : Nat)
    (rest rest' : List Lexeme) :
    StopsAlike level (⟨.keyword .is, position⟩ :: rest) (⟨.keyword .is, position⟩ :: rest') where
  link := by
    intro inner hinner _
    have hwithin := hinner.trans h
    cases inner <;> first
      | rfl
      | exact absurd hwithin (by decide)
  property := fun _ => rfl

/-- More tokens in front of both, none or enough to decide. -/
theorem StopsAlike.append {level : Level} {front rest rest' : List Lexeme}
    (h : StopsAlike level rest rest') (hfront : front = [] ∨ Decides front) :
    StopsAlike level (front ++ rest) (front ++ rest') := by
  rcases hfront with rfl | hdecides
  · exact h
  · exact stopsAlike_append hdecides level rest rest'

namespace Reader

/-- Something was read. -/
theorem ne_nil_of_reading {α : Type} {tokens consumed : List Lexeme} (reading : Reading α tokens)
    (h : tokens = consumed ++ reading.rest) : consumed ≠ [] := by
  rintro rfl
  have hlength := congrArg List.length h
  have hshorter := reading.shorter
  rw [List.nil_append] at hlength
  omega

/-- What was read is read in front of any rest at which reading may stop like at its own. -/
def Local (level : Level) (read : Reader Expr) : Prop :=
  ∀ tokens reading, read tokens = .ok reading →
    ∃ consumed, tokens = consumed ++ reading.rest ∧
      ∀ rest', StopsAlike level reading.rest rest' →
        Answers (read (consumed ++ rest')) reading.result rest'

variable {room : Nat}

/-- The readers for less room are local. -/
def LocalBelow (room : Nat) : Prop :=
  ∀ level, 2 ≤ room → Local level (withRoom (room - 1) level)

theorem local_descend (hbelow : LocalBelow room) (level : Level) (position : Nat) :
    Local level (descend (below room) level position) := by
  by_cases hroom : 2 ≤ room
  · rw [descend_below hroom]
    exact hbelow level hroom
  · intro tokens reading h
    rw [below, if_neg hroom] at h
    contradiction

/-! ## Names, arrays and groups -/

theorem local_members {whole : List Lexeme} {object reading : Reading Expr whole}
    (h : members room object = .ok reading) :
    ∃ consumed, object.rest = consumed ++ reading.rest ∧
      ∀ rest', StopsAlike .unary reading.rest rest' →
        ∀ (whole' : List Lexeme) (object' : Reading Expr whole'),
          object'.result = object.result → object'.rest = consumed ++ rest' →
          Answers (members room object') reading.result rest' := by
  induction hlength : object.rest.length using Nat.strongRecOn generalizing object with
  | ind length ih =>
      cases hproperty : property? object.rest with
      | error error =>
          rw [members_of_error hproperty] at h
          contradiction
      | ok found =>
          cases found with
          | none =>
              rw [members_of_none hproperty] at h
              obtain rfl := Except.ok.inj h
              refine ⟨[], rfl, ?_⟩
              rintro rest' hstops whole' ⟨result, _, shorter⟩ rfl rfl
              exact ⟨shorter, members_of_none (hstops.property hproperty)⟩
          | some found =>
              obtain ⟨property, position, rest⟩ := found
              rw [members_of_some hproperty] at h
              obtain ⟨node, hnode, hmore⟩ := exists_of_bind_eq_ok h
              obtain ⟨after, hrest⟩ := property?_spec hproperty
              have hshorter := length_lt_of_property? hproperty
              obtain ⟨consumed, hconsumed, hlocal⟩ := ih rest.length (hlength ▸ hshorter) hmore rfl
              refine ⟨⟨.symbol .dot, position⟩ :: ⟨.name property, after⟩ :: consumed, ?_, ?_⟩
              · exact hrest.trans (congrArg _ (congrArg _ hconsumed))
              · intro rest' hstops whole' object' hresult hrest'
                -- the same dot and name stand in front of any rest
                have hproperty' : property? object'.rest =
                    .ok (some (property, position, consumed ++ rest')) := by
                  rw [hrest']
                  rfl
                rw [members_of_some hproperty', hresult, hnode, ok_bind]
                exact hlocal rest' hstops whole' _ rfl rfl

/-- Elements end with their closing bracket, so any rest will do. -/
theorem local_elements {read : Reader Expr} (hread : Local .or read) {tokens : List Lexeme}
    {reading : Reading (List Expr) tokens} (h : elements read tokens = .ok reading) :
    ∃ consumed, tokens = consumed ++ reading.rest ∧ ∀ rest', ∃ shorter,
      elements read (consumed ++ rest') = .ok ⟨reading.result, rest', shorter⟩ := by
  induction hlength : tokens.length using Nat.strongRecOn generalizing tokens with
  | ind length ih =>
      unfold elements at h
      obtain ⟨first, hfirst, hmore⟩ := exists_of_bind_eq_ok h
      obtain ⟨consumed, htokens, hlocal⟩ := hread tokens first hfirst
      have hshorter := first.shorter
      split at hmore
      · simp at hmore
      · next close rest hrest =>
          obtain rfl := Except.ok.inj hmore
          refine ⟨consumed ++ [⟨.symbol .closeBracket, close⟩], ?_, ?_⟩
          · rw [List.append_assoc]
            exact htokens.trans (congrArg _ hrest)
          · -- the closing bracket decides by itself that the last element ends
            intro rest'
            rw [hrest] at hlocal
            rw [List.append_assoc]
            exact elements_of_close (hlocal _ (stopsAlike_cons (by simp) .or close rest rest'))
      · next position rest hrest =>
          obtain ⟨others, hothers, hok⟩ := exists_of_bind_eq_ok hmore
          obtain rfl := Except.ok.inj hok
          have hlt : rest.length < length := by
            rw [hrest, List.length_cons] at hshorter
            omega
          obtain ⟨consumed', hrest', hlocal'⟩ := ih _ hlt hothers rfl
          refine ⟨consumed ++ ⟨.symbol .comma, position⟩ :: consumed', ?_, ?_⟩
          · rw [List.append_assoc]
            exact htokens.trans (congrArg _ (hrest.trans (congrArg _ hrest')))
          · -- and so does the comma for any other
            intro rest'
            rw [hrest] at hlocal
            rw [List.append_assoc]
            exact elements_of_comma (hlocal _ (stopsAlike_cons (by simp) .or position rest _))
              (hlocal' rest')
      · simp at hmore

theorem primary_bracket_of_lt (hroom : ¬ 2 ≤ room) (position : Nat) (tokens : List Lexeme) :
    primary room (below room) (⟨.symbol .openBracket, position⟩ :: tokens) =
      .error (.nestingTooDeep position) := by
  rw [below_of_lt hroom]
  rfl

theorem primary_emptyArray (hroom : 2 ≤ room) (position close : Nat) (rest : List Lexeme) :
    Answers (primary room (below room)
      (⟨.symbol .openBracket, position⟩ :: ⟨.symbol .closeBracket, close⟩ :: rest))
      (.array [] position) rest := by
  rw [below_of_le hroom]
  exact ⟨_, rfl⟩

theorem local_array {position : Nat} {tokens : List Lexeme} {inner : Reading (List Expr) tokens}
    (hbelow : LocalBelow room) (hroom : 2 ≤ room)
    (hopen : ∀ close rest, tokens ≠ ⟨.symbol .closeBracket, close⟩ :: rest)
    (hinner : elements (withRoom (room - 1) .or) tokens = .ok inner) :
    ∃ consumed, tokens = consumed ++ inner.rest ∧ ∀ rest',
      Answers (primary room (below room) (⟨.symbol .openBracket, position⟩ :: (consumed ++ rest')))
        (.array inner.result position) rest' := by
  obtain ⟨consumed, htokens, hlocal⟩ := local_elements (hbelow .or hroom) hinner
  refine ⟨consumed, htokens, fun rest' => ?_⟩
  -- something was read, and it does not start with a closing bracket
  obtain ⟨first, more, rfl⟩ := List.exists_cons_of_ne_nil (ne_nil_of_reading inner htokens)
  have hopen' : ∀ close rest, first :: more ++ rest' ≠ ⟨.symbol .closeBracket, close⟩ :: rest := by
    intro close rest heq
    obtain ⟨rfl, -⟩ := List.cons.inj heq
    exact hopen close _ htokens
  obtain ⟨shorter, hread⟩ := hlocal rest'
  rw [primary_array (below_of_le hroom) hopen', hread]
  exact ⟨_, rfl⟩

theorem local_bracket (hbelow : LocalBelow room) {position : Nat} {tokens : List Lexeme}
    {reading : Reading Expr (⟨.symbol .openBracket, position⟩ :: tokens)}
    (h : primary room (below room) (⟨.symbol .openBracket, position⟩ :: tokens) = .ok reading) :
    ∃ consumed, tokens = consumed ++ reading.rest ∧ ∀ rest',
      Answers (primary room (below room) (⟨.symbol .openBracket, position⟩ :: (consumed ++ rest')))
        reading.result rest' := by
  by_cases hroom : 2 ≤ room
  · by_cases hclose : ∃ close rest, tokens = ⟨.symbol .closeBracket, close⟩ :: rest
    · obtain ⟨close, rest, rfl⟩ := hclose
      obtain ⟨_, hread⟩ := primary_emptyArray hroom position close rest
      obtain rfl := Except.ok.inj (h.symm.trans hread)
      exact ⟨[⟨.symbol .closeBracket, close⟩], rfl, primary_emptyArray hroom position close⟩
    · have hopen : ∀ close rest, tokens ≠ ⟨.symbol .closeBracket, close⟩ :: rest :=
        fun close rest heq => hclose ⟨close, rest, heq⟩
      rw [primary_array (below_of_le hroom) hopen] at h
      obtain ⟨inner, hinner, hok⟩ := exists_of_bind_eq_ok h
      obtain rfl := Except.ok.inj hok
      exact local_array hbelow hroom hopen hinner
  · rw [primary_bracket_of_lt hroom] at h
    contradiction

theorem local_primary (hbelow : LocalBelow room) : Local .unary (primary room (below room)) := by
  intro tokens reading h
  unfold primary at h
  split at h
  · simp at h
  · obtain rfl := Except.ok.inj h
    exact ⟨[_], rfl, fun rest' _ => ⟨_, rfl⟩⟩
  · obtain rfl := Except.ok.inj h
    exact ⟨[_], rfl, fun rest' _ => ⟨_, rfl⟩⟩
  · obtain rfl := Except.ok.inj h
    exact ⟨[_], rfl, fun rest' _ => ⟨_, rfl⟩⟩
  · next word position rest =>
      obtain ⟨consumed, hrest, hlocal⟩ := local_members h
      refine ⟨⟨.name word, position⟩ :: consumed, congrArg _ hrest, ?_⟩
      intro rest' hstops
      have hagain := hlocal rest' hstops (⟨.name word, position⟩ :: (consumed ++ rest'))
      exact hagain (.first _ _ _) rfl rfl
  · next position tokens =>
      -- a group ends with its parenthesis, so any rest will do
      obtain ⟨inner, hinner, hmore⟩ := exists_of_bind_eq_ok h
      obtain ⟨close, hclose, hok⟩ := exists_of_bind_eq_ok hmore
      obtain rfl := Except.ok.inj hok
      obtain ⟨consumed, htokens, hlocal⟩ := local_descend hbelow _ _ _ _ hinner
      obtain ⟨atClose, hrest⟩ := eq_cons_of_expect hclose
      rw [hrest] at hlocal
      refine ⟨⟨.symbol .openParen, position⟩ :: consumed ++ [⟨.symbol .closeParen, atClose⟩],
        ?_, ?_⟩
      · simpa using htokens.trans (congrArg _ hrest)
      · intro rest' _
        obtain ⟨_, hread⟩ := hlocal (⟨.symbol .closeParen, atClose⟩ :: rest')
          (stopsAlike_cons (by simp) .or atClose _ _)
        rw [List.append_assoc, List.cons_append]
        unfold primary
        dsimp only [List.singleton_append]
        rw [hread, ok_bind]
        dsimp only
        rw [expect_self]
        exact ⟨_, rfl⟩
  · next position tokens =>
      obtain ⟨consumed, htokens, hlocal⟩ := local_bracket hbelow h
      exact ⟨⟨.symbol .openBracket, position⟩ :: consumed, congrArg _ htokens,
        fun rest' _ => hlocal rest'⟩
  · simp at h

/-! ## Prefix operators and powers -/

theorem local_unary (hbelow : LocalBelow room) : Local .unary (unary room (below room)) := by
  intro tokens reading h
  cases tokens with
  | nil => exact absurd h (by simp [unary, primary])
  | cons sign tokens =>
      cases hoperator : unaryOperator? sign.token with
      | none =>
          rw [unary_of_none hoperator] at h
          obtain ⟨consumed, htokens, hlocal⟩ := local_primary hbelow _ _ h
          obtain ⟨first, more, rfl⟩ :=
            List.exists_cons_of_ne_nil (ne_nil_of_reading reading htokens)
          obtain ⟨rfl, hmore⟩ := List.cons.inj htokens
          refine ⟨sign :: more, congrArg _ hmore, ?_⟩
          intro rest' hstops
          rw [List.cons_append, unary_of_none hoperator]
          exact hlocal rest' hstops
      | some operator =>
          rw [unary_of_some hoperator] at h
          obtain ⟨operand, hoperand, hok⟩ := exists_of_bind_eq_ok h
          obtain rfl := Except.ok.inj hok
          obtain ⟨consumed, htokens, hlocal⟩ := local_descend hbelow _ _ _ _ hoperand
          refine ⟨sign :: consumed, congrArg _ htokens, ?_⟩
          intro rest' hstops
          obtain ⟨_, hread⟩ := hlocal rest' hstops
          rw [List.cons_append, unary_of_some hoperator, hread]
          exact ⟨_, rfl⟩

/-- Without a `^` behind its base, a power is its base. -/
theorem power_of_base {tokens rest : List Lexeme} {base : Expr}
    (h : Answers (unary room (below room) tokens) base rest)
    (hnone : Level.power.link? rest = none) :
    Answers (power room (below room) tokens) base rest := by
  obtain ⟨shorter, hread⟩ := h
  refine ⟨shorter, ?_⟩
  unfold power
  rw [hread, ok_bind]
  dsimp only
  split
  · simp [Level.link?, Token.operator?, BinaryOperator.level] at hnone
  · rfl

theorem power_of_caret {tokens rest : List Lexeme} {base : Expr} {position : Nat}
    (h : Answers (unary room (below room) tokens) base (⟨.symbol .caret, position⟩ :: rest)) :
    ∃ shorter : rest.length ≤ tokens.length, power room (below room) tokens =
      descend (below room) .power position rest >>= fun exponent =>
        fit room (.binary .power base exponent.result position) position >>= fun node =>
          .ok (exponent.within node shorter) := by
  obtain ⟨shorter, hread⟩ := h
  refine ⟨by simp at shorter; omega, ?_⟩
  unfold power
  rw [hread, ok_bind]

theorem local_power (hbelow : LocalBelow room) : Local .power (power room (below room)) := by
  intro tokens reading h
  unfold power at h
  obtain ⟨base, hbase, hmore⟩ := exists_of_bind_eq_ok h
  obtain ⟨consumed, htokens, hlocal⟩ := local_unary hbelow _ _ hbase
  split at hmore
  · next position rest hrest =>
      obtain ⟨exponent, hexponent, hnext⟩ := exists_of_bind_eq_ok hmore
      obtain ⟨node, hnode, hok⟩ := exists_of_bind_eq_ok hnext
      obtain rfl := Except.ok.inj hok
      obtain ⟨consumed', hrest', hlocal'⟩ := local_descend hbelow _ _ _ _ hexponent
      refine ⟨consumed ++ ⟨.symbol .caret, position⟩ :: consumed', ?_, ?_⟩
      · rw [List.append_assoc]
        exact htokens.trans (congrArg _ (hrest.trans (congrArg _ hrest')))
      · intro rest'' hstops
        rw [hrest] at hlocal
        -- the `^` is still behind the base, and the exponent may stop as before
        have hread := hlocal _ (stopsAlike_cons (by simp) .unary position _ (consumed' ++ rest''))
        obtain ⟨_, hpower⟩ := power_of_caret hread
        obtain ⟨_, hread'⟩ := hlocal' rest'' hstops
        rw [List.append_assoc, List.cons_append, hpower, hread', ok_bind, hnode]
        exact ⟨_, rfl⟩
  · next hcaret =>
      obtain rfl := Except.ok.inj hmore
      refine ⟨consumed, htokens, ?_⟩
      intro rest' hstops
      exact power_of_base (hlocal rest' (hstops.mono (by decide)))
        (hstops.link .power (Level.within_refl _) (link?_power_eq_none hcaret))

/-! ## Chains -/

theorem local_linked {level : Level} {operand : Reader Expr} (hoperand : Local level operand)
    {link : Link} {left : Expr} {position : Nat} {tokens : List Lexeme}
    {joined : Reading Expr tokens} (h : linked link operand left position tokens = .ok joined) :
    ∃ consumed, tokens = consumed ++ joined.rest ∧ ∀ rest',
      StopsAlike level joined.rest rest' →
        Answers (linked link operand left position (consumed ++ rest')) joined.result rest' := by
  unfold linked at h
  obtain ⟨first, hfirst, hmore⟩ := exists_of_bind_eq_ok h
  obtain ⟨consumed, htokens, hlocal⟩ := hoperand _ _ hfirst
  split at hmore
  · obtain rfl := Except.ok.inj hmore
    refine ⟨consumed, htokens, fun rest' hstops => ?_⟩
    obtain ⟨_, hread⟩ := hlocal rest' hstops
    unfold linked
    rw [hread]
    exact ⟨_, rfl⟩
  · obtain rfl := Except.ok.inj hmore
    refine ⟨consumed, htokens, fun rest' hstops => ?_⟩
    obtain ⟨_, hread⟩ := hlocal rest' hstops
    unfold linked
    rw [hread]
    exact ⟨_, rfl⟩
  · -- a range: the `and` ends the lower bound, so the rest counts for the upper one only
    obtain ⟨and, hand, hnext⟩ := exists_of_bind_eq_ok hmore
    obtain ⟨upper, hupper, hok⟩ := exists_of_bind_eq_ok hnext
    obtain rfl := Except.ok.inj hok
    obtain ⟨atAnd, hrest⟩ := eq_cons_of_expect hand
    obtain ⟨consumed', hrest', hlocal'⟩ := hoperand _ _ hupper
    refine ⟨consumed ++ ⟨.keyword .and, atAnd⟩ :: consumed', ?_, fun rest' hstops => ?_⟩
    · rw [List.append_assoc]
      exact htokens.trans (congrArg _ (hrest.trans (congrArg _ hrest')))
    · rw [hrest] at hlocal
      obtain ⟨_, hread⟩ :=
        hlocal _ (stopsAlike_cons (by simp) level atAnd _ (consumed' ++ rest'))
      obtain ⟨_, hread'⟩ := hlocal' rest' hstops
      rw [List.append_assoc, List.cons_append]
      unfold linked
      rw [hread, ok_bind]
      dsimp only
      rw [expect_self, ok_bind]
      dsimp only [Reading.first]
      rw [hread']
      exact ⟨_, rfl⟩

/-- A turn of the loop looks at nothing behind its operand but what lets the operand stop: in front
of another rest, from which the operand is read just as well, the loop takes the same turn. -/
theorem links_of_behind {level : Level} {left node : Expr} {link : Link} {position : Nat}
    {sign consumed rest : List Lexeme} (hsign : sign ≠ []) (hconsumed : consumed ≠ [])
    (hlink : level.link? (sign ++ (consumed ++ rest)) = some (link, position, consumed ++ rest))
    (hheight : node.height ≤ room) {rest' : List Lexeme}
    (hread : Answers (linked link (descend (below room) level.operand position) left position
      (consumed ++ rest')) node rest')
    {whole : List Lexeme} {start : Reading Expr whole} (hresult : start.result = left)
    (hrest : start.rest = sign ++ (consumed ++ rest')) :
    ∃ shorter, links level room (below room) start =
      links level room (below room) (⟨node, rest', shorter⟩ : Reading Expr whole) := by
  obtain ⟨_, before, shorter⟩ := start
  obtain rfl : _ = left := hresult
  have hlink' : level.link? before = some (link, position, consumed ++ rest') := by
    rw [show before = sign ++ (consumed ++ rest') from hrest]
    exact Level.link?_of_link? hsign hconsumed hlink rest'
  exact links_of_linked hlink' hread hheight

/-- The links of a chain: those that were found are found again.  Together they take no token, or
enough of them to decide. -/
theorem local_links (hbelow : LocalBelow room) {level : Level} {whole : List Lexeme}
    {left reading : Reading Expr whole} (h : links level room (below room) left = .ok reading) :
    ∃ consumed, left.rest = consumed ++ reading.rest ∧ (consumed = [] ∨ Decides consumed) ∧
      ∀ rest', StopsAlike level reading.rest rest' →
        ∀ (whole' : List Lexeme) (left' : Reading Expr whole'),
          left'.result = left.result → left'.rest = consumed ++ rest' →
          Answers (links level room (below room) left') reading.result rest' := by
  induction hlength : left.rest.length using Nat.strongRecOn generalizing left with
  | ind length ih =>
      cases hlink : level.link? left.rest with
      | none =>
          rw [links_of_none hlink] at h
          obtain rfl := Except.ok.inj h
          -- no turn is taken, and where the rests are alike none is taken in front of the other
          refine ⟨[], rfl, Or.inl rfl, ?_⟩
          rintro rest' hstops whole' ⟨result, _, shorter⟩ rfl rfl
          exact ⟨shorter, links_of_none (hstops.link level (Level.within_refl _) hlink)⟩
      | some found =>
          obtain ⟨link, position, tokens⟩ := found
          rw [links_of_some hlink] at h
          obtain ⟨joined, hjoined, hmore⟩ := exists_of_bind_eq_ok h
          obtain ⟨node, hnode, hnext⟩ := exists_of_bind_eq_ok hmore
          obtain ⟨rfl, hheight⟩ := eq_of_fit hnode
          obtain ⟨sign, hsign, hrest⟩ := Level.exists_sign hlink
          obtain ⟨consumed, htokens, hlocal⟩ :=
            local_linked (local_descend hbelow level.operand position) hjoined
          have hconsumed := ne_nil_of_reading joined htokens
          have hshorter := Level.length_lt_of_link? hlink
          have hjoined_shorter := joined.shorter
          obtain ⟨consumed', hlater, hdecides, hlocal'⟩ :=
            ih joined.rest.length (by omega) hnext rfl
          have hjoined_rest : joined.rest = consumed' ++ reading.rest := hlater
          have hsplit : left.rest = sign ++ (consumed ++ (consumed' ++ reading.rest)) := by
            rw [hrest, htokens, hjoined_rest]
          refine ⟨sign ++ (consumed ++ consumed'), by simpa using hsplit,
            Or.inr (decides_append hsign (by simp [hconsumed])), ?_⟩
          intro rest' hstops whole' left' hresult hbefore
          -- behind this operand stand the later links, which decide, or else the rest itself
          have hstops' : StopsAlike level.operand joined.rest (consumed' ++ rest') := by
            rw [hjoined_rest]
            exact (hstops.mono level.operand_within).append hdecides
          rw [hrest, htokens] at hlink
          obtain ⟨_, hlinks⟩ := links_of_behind hsign hconsumed hlink hheight (hlocal _ hstops')
            hresult (by simpa using hbefore)
          rw [hlinks]
          exact hlocal' rest' hstops whole' _ rfl rfl

theorem local_chain (hbelow : LocalBelow room) {level : Level} {operand : Reader Expr}
    (hoperand : Local level.operand operand) :
    Local level (chain level room (below room) operand) := by
  intro tokens reading h
  unfold chain at h
  obtain ⟨left, hleft, hlinks⟩ := exists_of_bind_eq_ok h
  obtain ⟨consumed, htokens, hlocal⟩ := hoperand _ _ hleft
  obtain ⟨consumed', hrest, hdecides, hlocal'⟩ := local_links hbelow hlinks
  refine ⟨consumed ++ consumed', by rw [List.append_assoc, ← hrest, ← htokens], ?_⟩
  intro rest' hstops
  rw [hrest] at hlocal
  obtain ⟨shorter, hread⟩ :=
    hlocal _ ((hstops.mono level.operand_within).append hdecides)
  rw [List.append_assoc]
  unfold chain
  rw [hread, ok_bind]
  exact hlocal' rest' hstops _ _ rfl rfl

/-! ## All levels -/

/-- **Readers are local.**  What is read with some room is read in front of any rest at which
reading may stop like at its own. -/
theorem local_withRoom (room : Nat) (level : Level) : Local level (withRoom room level) := by
  induction room using Nat.strongRecOn generalizing level with
  | ind room ih =>
      have hbelow : LocalBelow room := fun level hroom => ih (room - 1) (by omega) level
      rw [withRoom_eq]
      induction level using Level.chain_induction with
      | hunary =>
          rw [ofLevel_unary]
          exact local_unary hbelow
      | hpower =>
          rw [ofLevel_power]
          exact local_power hbelow
      | hchain level hunary hpower ih =>
          rw [ofLevel_chain hunary hpower]
          exact local_chain hbelow ih

end Reader

end SurveyLogic
