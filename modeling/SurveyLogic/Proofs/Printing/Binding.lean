import SurveyLogic.Compiled
import SurveyLogic.Proofs.Grammar.Bindings
import SurveyLogic.Proofs.Printing.Derived

/-!
# Written trees as bindings

A binding is an assignment when a single `=` follows its leading member chain.  No condition is
written with that sign, so the text of a writable tree is read by the right rule, and what is read
is the tree again: `Expr.binding_of_writableRoot`.
-/

namespace SurveyLogic

namespace Expr

/-! ## The sign of an assignment -/

mutual

/-- No condition is written with the sign of an assignment; equality has a sign of its own. -/
theorem assign_not_mem_tokens : ∀ tree : Expr, tree.writable = true →
    Token.symbol .assign ∉ tree.tokens
  | number value _, _ => by
    -- an infinity is written as a name
    rw [tokens]
    split <;> simp
  | text _ _, _ | truth _ _, _ | name _ _, _ => by
    simp [tokens]
  | member object _ _, h => by
    rw [writable, Bool.and_eq_true, Bool.and_eq_true] at h
    simp [tokens, assign_not_mem_tokens object h.1.2]
  | array elements _, h => by
    rw [writable] at h
    simp [tokens, assign_not_mem_tokensOfAll elements h]
  | unary operator operand _, h => by
    rw [writable, Bool.and_eq_true] at h
    have hoperator : Token.symbol .assign ≠ operator.token := by
      cases operator <;> decide
    simp [tokens, hoperator, assign_not_mem_tokens operand h.2]
  | binary operator left right _, h => by
    simp only [writable, Bool.and_eq_true] at h
    have hoperator : Token.symbol .assign ≠ operator.token := by
      cases operator <;> decide
    simp [tokens, hoperator, assign_not_mem_tokens left h.1.2, assign_not_mem_tokens right h.2]
  | logical operator left right _, h => by
    simp only [writable, Bool.and_eq_true] at h
    have hoperator : Token.symbol .assign ≠ operator.token := by
      cases operator <;> decide
    simp [tokens, hoperator, assign_not_mem_tokens left h.1.2, assign_not_mem_tokens right h.2]
  | group inner _, h => by
    rw [writable] at h
    simp [tokens, assign_not_mem_tokens inner h]
  | assign _ _ _, h => by
    simp [writable] at h
  | between subject lower upper _, h => by
    simp only [writable, Bool.and_eq_true] at h
    simp [tokens, assign_not_mem_tokens subject h.1.1.2, assign_not_mem_tokens lower h.1.2,
      assign_not_mem_tokens upper h.2]

theorem assign_not_mem_tokensOfAll : ∀ trees : List Expr, allWritable trees = true →
    Token.symbol .assign ∉ tokensOfAll trees
  | [], _ => by
    simp [tokensOfAll]
  | [tree], h => by
    rw [allWritable, Bool.and_eq_true] at h
    exact assign_not_mem_tokens tree h.1
  | tree :: next :: trees, h => by
    rw [allWritable, Bool.and_eq_true] at h
    simp [tokensOfAll, assign_not_mem_tokens tree h.1,
      assign_not_mem_tokensOfAll (next :: trees) h.2]

end

theorem not_startsAssignment {lexemes : List Lexeme}
    (h : Token.symbol .assign ∉ lexemes.map (·.token)) : ¬ StartsAssignment lexemes := by
  rintro ⟨before, target, position, after, -, rfl⟩
  simp at h

/-! ## Written trees -/

theorem ReadBackAs.roomNeeded_eq {tree again : Expr} (h : tree.ReadBackAs again) :
    again.roomNeeded = tree.roomNeeded := by
  calc again.roomNeeded = again.bare.roomNeeded := again.roomNeeded_bare.symm
    _ = tree.reread.bare.roomNeeded := by rw [h]
    _ = tree.roomNeeded := by rw [roomNeeded_bare, roomNeeded_reread]

theorem parseBinding_of_tokens {tree : Expr} (hwritable : tree.writable = true)
    (hroom : tree.roomNeeded ≤ maxHeight) {lexemes : List Lexeme}
    (h : lexemes.map (·.token) = tree.tokens) :
    ∃ again, parseBinding lexemes = .ok again ∧ tree.ReadBackAs again := by
  obtain ⟨again, hderives, hagain⟩ := derives_of_tokens tree hwritable lexemes h
  -- without a single `=` among the tokens it is read as a condition
  have hsign : Token.symbol .assign ∉ lexemes.map (·.token) := by
    rw [h]
    exact assign_not_mem_tokens tree hwritable
  have hfits : again.roomNeeded ≤ maxHeight := by
    rw [hagain.roomNeeded_eq]
    exact hroom
  refine ⟨again, ?_, hagain⟩
  have hsentence : Sentence lexemes again := hderives.of_within (Level.within_or _)
  exact BindingSentence.parseBinding_of_le (.condition (not_startsAssignment hsign) hsentence) hfits

theorem parseBinding_of_tokens_assign {target value : Expr} {position : Nat}
    (hwritable : (assign target value position).writableRoot = true)
    (hroom : (assign target value position).roomNeeded ≤ maxHeight) {lexemes : List Lexeme}
    (h : lexemes.map (·.token) = (assign target value position).tokens) :
    ∃ again, parseBinding lexemes = .ok again ∧
      (assign target value position).ReadBackAs again := by
  rw [writableRoot, Bool.and_eq_true, Bool.and_eq_true] at hwritable
  obtain ⟨⟨hpath, _⟩, hvalue⟩ := hwritable
  rw [tokens] at h
  obtain ⟨before, others, rfl, hbefore, hothers⟩ := List.map_eq_append_iff.mp h
  obtain ⟨⟨_, atSign⟩, after, rfl, rfl, hafter⟩ := List.map_eq_cons_iff.mp hothers
  obtain ⟨again₁, hderives₁, hagain₁⟩ := derivesMember_of_tokens target hpath before hbefore
  obtain ⟨again₂, hderives₂, hagain₂⟩ := derives_of_tokens value hvalue after hafter
  have hagain : (assign target value position).ReadBackAs (assign again₁ again₂ atSign) :=
    hagain₁.assign hagain₂
  have hfits : (assign again₁ again₂ atSign).roomNeeded ≤ maxHeight := by
    rw [hagain.roomNeeded_eq]
    exact hroom
  have hvalue : Sentence after again₂ := hderives₂.of_within (Level.within_or _)
  exact ⟨_, BindingSentence.parseBinding_of_le (.assign atSign hderives₁ hvalue) hfits, hagain⟩

theorem scanned_writableRoot {tree : Expr} (h : tree.writableRoot = true) :
    Scanned tree.toText.toList tree.tokens := by
  cases tree with
  | assign target value position =>
      rw [writableRoot, Bool.and_eq_true, Bool.and_eq_true] at h
      obtain ⟨⟨hpath, htarget⟩, hvalue⟩ := h
      -- from the back: the value, the sign between blanks, and the target in front of it
      have hread := scanned_toText value hvalue endsOperand_nil scanned_nil
      have hsign := hread.blank.symbol (c := '=') rfl (by simp; decide)
      have hscanned := scanned_path target hpath htarget (by simp; decide) hsign.blank
      simpa [toText, tokens] using hscanned
  | _ => simpa using scanned_toText _ h endsOperand_nil scanned_nil

/-- **A writable tree is read back from its text**, with names for its infinite numbers. -/
theorem binding_of_writableRoot {tree : Expr} (hwritable : tree.writableRoot = true)
    (hroom : tree.roomNeeded ≤ maxHeight) :
    ∃ again, Compiled.binding tree.toText = .ok ⟨tree.toText, again⟩ ∧ tree.ReadBackAs again := by
  obtain ⟨lexemes, hscan, htokens⟩ := (scanned_writableRoot hwritable).scan
  have hparse : ∃ again, parseBinding lexemes = .ok again ∧ tree.ReadBackAs again := by
    cases tree with
    | assign target value position =>
        exact parseBinding_of_tokens_assign hwritable hroom htokens
    | _ => exact parseBinding_of_tokens hwritable hroom htokens
  obtain ⟨again, hagain, hsame⟩ := hparse
  refine ⟨again, ?_, hsame⟩
  unfold Compiled.binding
  rw [hscan, ok_bind, hagain]
  rfl

end Expr

end SurveyLogic
