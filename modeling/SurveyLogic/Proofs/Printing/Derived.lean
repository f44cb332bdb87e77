import SurveyLogic.Proofs.Printing.Written

/-!
# A written tree derived again

Whatever positions the tokens of a writable tree stand at, they are a phrase of the tree's level,
and its tree is what the written one is read back as: `Expr.derives_of_tokens`.  The induction is on
the tree; the tokens are split as the text is put together.
-/

namespace SurveyLogic

/-! ## Operators as they are written -/

theorem UnaryOperator.token_mem_spellings (operator : UnaryOperator) :
    operator.token ∈ operator.spellings := by
  cases operator <;> decide

theorem BinaryOperator.token_mem_spellings (operator : BinaryOperator) :
    [operator.token] ∈ operator.spellings := by
  cases operator <;> decide

/-- No operator is written as `is`. -/
theorem BinaryOperator.token_ne_is (operator : BinaryOperator) :
    operator.token ≠ .keyword .is := by
  cases operator <;> decide

/-- An operator between its operands, in its own spelling. -/
theorem Derives.written {operator : BinaryOperator} {before after : List Lexeme} {sign : Lexeme}
    {left right : Expr} (hsign : sign.token = operator.token)
    (hleft : Derives operator.leftLevel before left)
    (hright : Derives operator.rightLevel after right) :
    Derives operator.level (before ++ sign :: after)
      (.binary operator left right sign.position) := by
  -- a power makes no chain, and has the levels of its operands the other way round
  by_cases hpower : operator = .power
  · subst hpower
    obtain ⟨token, position⟩ := sign
    obtain rfl : token = .symbol .caret := hsign
    exact .power position hleft hright
  · have hlevel : operator.leftLevel = operator.level := if_neg hpower
    have hoperand : operator.rightLevel = operator.level.operand := if_neg hpower
    rw [hlevel] at hleft
    rw [hoperand] at hright
    exact hleft.binary_of_token operator sign (Level.mem_operators_iff.mpr ⟨hpower, rfl⟩)
      (Level.tighter?_eq_some_iff.mpr ⟨operator.level_ne_unary, rfl⟩)
      (hsign ▸ operator.token_mem_spellings) (hsign ▸ operator.token_ne_is) hright

/-- A tree that sits at a level is derived there. -/
theorem Derives.of_sitsAt {tree again : Expr} {level : Level} {lexemes : List Lexeme}
    (h : Derives tree.level lexemes again) (hsits : tree.sitsAt level = true) :
    Derives level lexemes again :=
  h.of_within (of_decide_eq_true hsits)

namespace Expr

/-- The trees are the same without positions, once infinite numbers are names. -/
def ReadBackAs (tree again : Expr) : Prop := again.bare = tree.reread.bare

section ReadBackAs

variable {tree again first first' second second' third third' : Expr} {position position' : Nat}

theorem ReadBackAs.member (h : tree.ReadBackAs again) (property : String) :
    (Expr.member tree property position).ReadBackAs (.member again property position') := by
  unfold ReadBackAs bare reread at h ⊢
  simp only [relabel, h]

theorem ReadBackAs.group (h : tree.ReadBackAs again) :
    (Expr.group tree position).ReadBackAs (.group again position') := by
  unfold ReadBackAs bare reread at h ⊢
  simp only [relabel, h]

theorem ReadBackAs.unary (h : tree.ReadBackAs again) (operator : UnaryOperator) :
    (Expr.unary operator tree position).ReadBackAs (.unary operator again position') := by
  unfold ReadBackAs bare reread at h ⊢
  simp only [relabel, h]

theorem ReadBackAs.binary (h : first.ReadBackAs first') (h' : second.ReadBackAs second')
    (operator : BinaryOperator) : (Expr.binary operator first second position).ReadBackAs
      (.binary operator first' second' position') := by
  unfold ReadBackAs bare reread at h h' ⊢
  simp only [relabel, h, h']

theorem ReadBackAs.logical (h : first.ReadBackAs first') (h' : second.ReadBackAs second')
    (operator : LogicalOperator) : (Expr.logical operator first second position).ReadBackAs
      (.logical operator first' second' position') := by
  unfold ReadBackAs bare reread at h h' ⊢
  simp only [relabel, h, h']

theorem ReadBackAs.assign (h : first.ReadBackAs first') (h' : second.ReadBackAs second') :
    (Expr.assign first second position).ReadBackAs (.assign first' second' position') := by
  unfold ReadBackAs bare reread at h h' ⊢
  simp only [relabel, h, h']

theorem ReadBackAs.between (h : first.ReadBackAs first') (h' : second.ReadBackAs second')
    (h'' : third.ReadBackAs third') : (Expr.between first second third position).ReadBackAs
      (.between first' second' third' position') := by
  unfold ReadBackAs bare reread at h h' h'' ⊢
  simp only [relabel, h, h', h'']

end ReadBackAs

/-! ## Member chains -/

theorem derivesMember_of_tokens : ∀ tree : Expr, tree.path?.isSome = true →
    ∀ lexemes : List Lexeme, lexemes.map (·.token) = tree.tokens →
    ∃ again, DerivesMember lexemes again ∧ ReadBackAs tree again
  | name word _, _, lexemes, h => by
    rw [tokens, List.map_eq_singleton_iff] at h
    obtain ⟨⟨_, position⟩, rfl, rfl⟩ := h
    exact ⟨_, .name word position, rfl⟩
  | member object property _, hpath, lexemes, h => by
    have hobject : object.path?.isSome = true := by
      simpa [path?] using hpath
    rw [tokens, List.map_eq_append_iff] at h
    obtain ⟨before, after, rfl, hbefore, hafter⟩ := h
    obtain ⟨⟨_, position⟩, last, rfl, rfl, hlast⟩ := List.map_eq_cons_iff.mp hafter
    obtain ⟨⟨_, atProperty⟩, rfl, rfl⟩ := List.map_eq_singleton_iff.mp hlast
    obtain ⟨again, hderives, hagain⟩ := derivesMember_of_tokens object hobject before hbefore
    exact ⟨_, hderives.property property position atProperty, hagain.member property⟩
  | number .., hpath, _, _ | text .., hpath, _, _ | truth .., hpath, _, _ | array .., hpath, _, _
  | unary .., hpath, _, _ | binary .., hpath, _, _ | logical .., hpath, _, _
  | group .., hpath, _, _ | assign .., hpath, _, _ | between .., hpath, _, _ => by
    simp [path?] at hpath

/-! ## Conditions -/

mutual

/-- **The tokens of a writable tree derive it again.** -/
theorem derives_of_tokens : ∀ tree : Expr, tree.writable = true →
    ∀ lexemes : List Lexeme, lexemes.map (·.token) = tree.tokens →
    ∃ again, Derives tree.level lexemes again ∧ ReadBackAs tree again
  | number value _, _, lexemes, h => by
    rw [tokens, List.map_eq_singleton_iff] at h
    obtain ⟨⟨token, position⟩, rfl, htoken⟩ := h
    obtain rfl : token = _ := htoken
    unfold ReadBackAs bare reread
    simp only [relabel, rereadNumber]
    -- an infinite number is written as a word, and that is read as a name
    split
    · exact ⟨_, .number value position, rfl⟩
    · exact ⟨_, .member (.name "inf" position), rfl⟩
  | text value _, _, lexemes, h => by
    rw [tokens, List.map_eq_singleton_iff] at h
    obtain ⟨⟨_, position⟩, rfl, rfl⟩ := h
    exact ⟨_, .text value position, rfl⟩
  | truth value _, _, lexemes, h => by
    rw [tokens, List.map_eq_singleton_iff] at h
    obtain ⟨⟨_, position⟩, rfl, rfl⟩ := h
    exact ⟨_, .truth value position, rfl⟩
  | name word position, _, lexemes, h => by
    obtain ⟨again, hderives, hagain⟩ := derivesMember_of_tokens (name word position) rfl lexemes h
    exact ⟨again, .member hderives, hagain⟩
  | member object property position, hwritable, lexemes, h => by
    have hpath : (member object property position).path?.isSome = true := by
      rw [writable, Bool.and_eq_true, Bool.and_eq_true] at hwritable
      simpa [path?] using hwritable.1.1
    obtain ⟨again, hderives, hagain⟩ := derivesMember_of_tokens _ hpath lexemes h
    exact ⟨again, .member hderives, hagain⟩
  | array [] _, _, lexemes, h => by
    rw [tokens] at h
    obtain ⟨⟨_, position⟩, last, rfl, rfl, hlast⟩ := List.map_eq_cons_iff.mp h
    obtain ⟨⟨_, close⟩, rfl, rfl⟩ := List.map_eq_singleton_iff.mp hlast
    exact ⟨_, .emptyArray position close, rfl⟩
  | array (element :: elements) _, hwritable, lexemes, h => by
    rw [writable] at hwritable
    rw [tokens] at h
    obtain ⟨⟨_, position⟩, inner, rfl, rfl, hinner⟩ := List.map_eq_cons_iff.mp h
    obtain ⟨consumed, last, rfl, hconsumed, hlast⟩ := List.map_eq_append_iff.mp hinner
    obtain ⟨⟨_, close⟩, rfl, rfl⟩ := List.map_eq_singleton_iff.mp hlast
    obtain ⟨again, hderives, hagain⟩ :=
      derivesAll_of_tokens (element :: elements) (by simp) hwritable consumed hconsumed
    refine ⟨_, .array position close hderives, ?_⟩
    unfold ReadBackAs bare reread
    simp only [relabel, hagain]
  | unary operator operand _, hwritable, lexemes, h => by
    rw [writable, Bool.and_eq_true] at hwritable
    rw [tokens] at h
    obtain ⟨sign, inner, rfl, hsign, hinner⟩ := List.map_eq_cons_iff.mp h
    obtain ⟨again, hderives, hagain⟩ := derives_of_tokens operand hwritable.2 inner hinner
    have hspelled : sign.token ∈ operator.spellings := by
      rw [hsign]
      exact operator.token_mem_spellings
    exact ⟨_, .unary hspelled (hderives.of_sitsAt hwritable.1), hagain.unary operator⟩
  | binary operator left right _, hwritable, lexemes, h => by
    simp only [writable, Bool.and_eq_true] at hwritable
    obtain ⟨⟨⟨hsitsLeft, hsitsRight⟩, hleft⟩, hright⟩ := hwritable
    rw [tokens] at h
    obtain ⟨before, others, rfl, hbefore, hothers⟩ := List.map_eq_append_iff.mp h
    obtain ⟨sign, after, rfl, hsign, hafter⟩ := List.map_eq_cons_iff.mp hothers
    obtain ⟨again₁, hderives₁, hagain₁⟩ := derives_of_tokens left hleft before hbefore
    obtain ⟨again₂, hderives₂, hagain₂⟩ := derives_of_tokens right hright after hafter
    -- each operand sits at the level that its place calls for, so no parentheses are missing
    have hderives := Derives.written hsign (hderives₁.of_sitsAt hsitsLeft)
      (hderives₂.of_sitsAt hsitsRight)
    exact ⟨_, hderives, hagain₁.binary hagain₂ operator⟩
  | logical operator left right _, hwritable, lexemes, h => by
    simp only [writable, Bool.and_eq_true] at hwritable
    obtain ⟨⟨⟨hsitsLeft, hsitsRight⟩, hleft⟩, hright⟩ := hwritable
    rw [tokens] at h
    obtain ⟨before, others, rfl, hbefore, hothers⟩ := List.map_eq_append_iff.mp h
    obtain ⟨⟨token, position⟩, after, rfl, hsign, hafter⟩ := List.map_eq_cons_iff.mp hothers
    obtain rfl : token = _ := hsign
    obtain ⟨again₁, hderives₁, hagain₁⟩ := derives_of_tokens left hleft before hbefore
    obtain ⟨again₂, hderives₂, hagain₂⟩ := derives_of_tokens right hright after hafter
    have hderives₁ := hderives₁.of_sitsAt hsitsLeft
    have hderives₂ := hderives₂.of_sitsAt hsitsRight
    refine ⟨logical operator again₁ again₂ position, ?_, hagain₁.logical hagain₂ operator⟩
    cases operator with
    | and => exact .and position hderives₁ hderives₂
    | or => exact .or position hderives₁ hderives₂
  | group inner _, hwritable, lexemes, h => by
    rw [writable] at hwritable
    rw [tokens] at h
    obtain ⟨⟨_, position⟩, others, rfl, rfl, hothers⟩ := List.map_eq_cons_iff.mp h
    obtain ⟨consumed, last, rfl, hconsumed, hlast⟩ := List.map_eq_append_iff.mp hothers
    obtain ⟨⟨_, close⟩, rfl, rfl⟩ := List.map_eq_singleton_iff.mp hlast
    obtain ⟨again, hderives, hagain⟩ := derives_of_tokens inner hwritable consumed hconsumed
    exact ⟨_, .group position close (hderives.of_within (Level.within_or _)), hagain.group⟩
  | assign _ _ _, hwritable, _, _ => by
    simp [writable] at hwritable
  | between subject lower upper _, hwritable, lexemes, h => by
    simp only [writable, Bool.and_eq_true] at hwritable
    obtain ⟨⟨⟨⟨⟨hsits, hsitsLower⟩, hsitsUpper⟩, hsubject⟩, hlower⟩, hupper⟩ := hwritable
    -- the tokens are taken apart at `is`, `between` and `and`, from left to right
    rw [tokens, List.append_assoc, List.cons_append, List.cons_append] at h
    obtain ⟨before, test, rfl, hbefore, htest⟩ := List.map_eq_append_iff.mp h
    obtain ⟨⟨_, position⟩, range, rfl, rfl, hrange⟩ := List.map_eq_cons_iff.mp htest
    obtain ⟨⟨_, atBetween⟩, bounds, rfl, rfl, hbounds⟩ := List.map_eq_cons_iff.mp hrange
    obtain ⟨first, others, rfl, hfirst, hothers⟩ := List.map_eq_append_iff.mp hbounds
    obtain ⟨⟨_, atAnd⟩, second, rfl, rfl, hsecond⟩ := List.map_eq_cons_iff.mp hothers
    obtain ⟨again₁, hderives₁, hagain₁⟩ := derives_of_tokens subject hsubject before hbefore
    obtain ⟨again₂, hderives₂, hagain₂⟩ := derives_of_tokens lower hlower first hfirst
    obtain ⟨again₃, hderives₃, hagain₃⟩ := derives_of_tokens upper hupper second hsecond
    have hderives := Derives.between position atBetween atAnd (hderives₁.of_sitsAt hsits)
      (hderives₂.of_sitsAt hsitsLower) (hderives₃.of_sitsAt hsitsUpper)
    exact ⟨_, by simpa [level] using hderives, hagain₁.between hagain₂ hagain₃⟩

theorem derivesAll_of_tokens : ∀ trees : List Expr, trees ≠ [] → allWritable trees = true →
    ∀ lexemes : List Lexeme, lexemes.map (·.token) = tokensOfAll trees →
    ∃ again, DerivesAll lexemes again ∧
      relabelAll number (fun _ => 0) again =
        relabelAll number (fun _ => 0) (relabelAll rereadNumber id trees)
  | [], hne, _, _, _ => absurd rfl hne
  | [tree], _, hwritable, lexemes, h => by
    simp only [allWritable, Bool.and_true] at hwritable
    obtain ⟨again, hderives, hagain⟩ := derives_of_tokens tree hwritable lexemes h
    refine ⟨[again], .one (hderives.of_within (Level.within_or _)), ?_⟩
    unfold ReadBackAs bare reread at hagain
    simp only [relabelAll, hagain]
  | tree :: next :: trees, _, hwritable, lexemes, h => by
    rw [allWritable, Bool.and_eq_true] at hwritable
    obtain ⟨first, more, rfl, hfirst, hmore⟩ := List.map_eq_append_iff.mp h
    obtain ⟨⟨_, position⟩, others, rfl, rfl, hothers⟩ := List.map_eq_cons_iff.mp hmore
    obtain ⟨again, hderives, hagain⟩ := derives_of_tokens tree hwritable.1 first hfirst
    obtain ⟨agains, hderivesAll, hagains⟩ :=
      derivesAll_of_tokens (next :: trees) (by simp) hwritable.2 others hothers
    refine ⟨again :: agains, .more position (hderives.of_within (Level.within_or _)) hderivesAll,
      ?_⟩
    unfold ReadBackAs bare reread at hagain
    rw [relabelAll, relabelAll, relabelAll, hagain, hagains]

end

end Expr

end SurveyLogic
