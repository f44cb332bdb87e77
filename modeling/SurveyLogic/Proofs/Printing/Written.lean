import SurveyLogic.Proofs.Printing.Normal
import SurveyLogic.Proofs.Printing.Scanned

/-!
# The tokens of a written tree

The text of a writable tree is scanned into the tokens one expects, `Expr.tokens`, in front of
anything that does not run into it: `Expr.scanned_toText`.  Every operand is followed by a blank, a
comma or a closing bracket; only a member chain is followed by a dot, too.
-/

namespace SurveyLogic

/-! ## Tokens -/

/-- The token with which an operator is written; it may have other spellings in a source. -/
def UnaryOperator.token : UnaryOperator → Token
  | .negate => .symbol .minus
  | .not => .keyword .not

def LogicalOperator.token : LogicalOperator → Token
  | .and => .keyword .and
  | .or => .keyword .or

def BinaryOperator.token : BinaryOperator → Token
  | .add => .symbol .plus
  | .subtract => .symbol .minus
  | .multiply => .symbol .star
  | .divide => .symbol .slash
  | .power => .symbol .caret
  | .equal => .symbol .equal
  | .notEqual => .symbol .notEqual
  | .less => .symbol .less
  | .lessEqual => .symbol .lessEqual
  | .greater => .symbol .greater
  | .greaterEqual => .symbol .greaterEqual
  | .contains => .keyword .contains
  | .within => .keyword .within

namespace Expr

mutual

/-- The tokens of a tree as it is written. -/
def tokens : Expr → List Token
  | number value _ => [if value.isFinite then .number value else .name "inf"]
  | text value _ => [.text value]
  | truth value _ => [.truth value]
  | name word _ => [.name word]
  | member object property _ => object.tokens ++ [.symbol .dot, .name property]
  | array elements _ => .symbol .openBracket :: tokensOfAll elements ++ [.symbol .closeBracket]
  | unary operator operand _ => operator.token :: operand.tokens
  | binary operator left right _ => left.tokens ++ operator.token :: right.tokens
  | logical operator left right _ => left.tokens ++ operator.token :: right.tokens
  | group inner _ => .symbol .openParen :: inner.tokens ++ [.symbol .closeParen]
  | assign target value _ => target.tokens ++ .symbol .assign :: value.tokens
  | between subject lower upper _ =>
    subject.tokens ++ .keyword .is :: .name "between" :: lower.tokens ++
      .keyword .and :: upper.tokens

def tokensOfAll : List Expr → List Token
  | [] => []
  | [tree] => tree.tokens
  | tree :: trees => tree.tokens ++ .symbol .comma :: tokensOfAll trees

end

end Expr

/-! ## What may follow an operand -/

/-- The characters that end an operand in a written tree. -/
def EndsOperand (rest : List Char) : Prop :=
  ∀ d ∈ rest.head?, d = ' ' ∨ d = ',' ∨ d = ')' ∨ d = ']'

theorem endsOperand_nil : EndsOperand [] := by
  simp [EndsOperand]

theorem endsOperand_cons {c : Char} (h : c = ' ' ∨ c = ',' ∨ c = ')' ∨ c = ']') (rest : List Char) :
    EndsOperand (c :: rest) := by
  simpa [EndsOperand] using h

theorem EndsOperand.not_isNameRest {rest : List Char} (h : EndsOperand rest) :
    ∀ d ∈ rest.head?, Text.isNameRest d = false := by
  intro d hd
  rcases h d hd with rfl | rfl | rfl | rfl <;> decide

theorem EndsOperand.not_isDigit {rest : List Char} (h : EndsOperand rest) :
    ∀ d ∈ rest.head?, Text.isDigit d = false ∧ d ≠ '.' := by
  intro d hd
  rcases h d hd with rfl | rfl | rfl | rfl <;> decide

/-! ## Operators and leaves -/

section Scanned

variable {rest : List Char} {tokens : List Token}

/-- A reserved word or a name with a blank behind it. -/
theorem Scanned.word_blank {word : String} (h : Scanned rest tokens)
    (hword : Text.isName word.toList = true) :
    Scanned (word.toList ++ ' ' :: rest) (.ofWord word :: tokens) :=
  h.blank.word hword (by simp; decide)

theorem Scanned.unaryOperator (h : Scanned rest tokens) (operator : UnaryOperator) :
    Scanned (operator.spelling.toList ++ rest) (operator.token :: tokens) := by
  cases operator with
  | negate => exact h.symbol (c := '-') rfl (fun d _ => rfl)
  | not =>
      have hname : Text.isName "not".toList = true := by decide
      exact h.word_blank hname

theorem Scanned.logicalOperator (h : Scanned rest tokens) (operator : LogicalOperator) :
    Scanned (operator.spelling.toList ++ ' ' :: rest) (operator.token :: tokens) := by
  cases operator with
  | and =>
      have hname : Text.isName "and".toList = true := by decide
      exact h.word_blank hname
  | or =>
      have hname : Text.isName "or".toList = true := by decide
      exact h.word_blank hname

theorem Scanned.binaryOperator (h : Scanned rest tokens) (operator : BinaryOperator) :
    Scanned (operator.spelling.toList ++ ' ' :: rest) (operator.token :: tokens) := by
  have hsymbol : ∀ {c : Char} {sign : Symbol}, Symbol.ofChar? c = some sign →
      Symbol.ofPair? c ' ' = none → Scanned (c :: ' ' :: rest) (.symbol sign :: tokens) := by
    intro c sign hsign hnext
    exact h.blank.symbol hsign (by simpa using hnext)
  cases operator with
  | add => exact hsymbol (c := '+') rfl rfl
  | subtract => exact hsymbol (c := '-') rfl rfl
  | multiply => exact hsymbol (c := '*') rfl rfl
  | divide => exact hsymbol (c := '/') rfl rfl
  | power => exact hsymbol (c := '^') rfl rfl
  | equal => exact h.blank.pair (c := '=') (d := '=') rfl
  | notEqual => exact h.blank.pair (c := '!') (d := '=') rfl
  | less => exact hsymbol (c := '<') rfl rfl
  | lessEqual => exact h.blank.pair (c := '<') (d := '=') rfl
  | greater => exact hsymbol (c := '>') rfl rfl
  | greaterEqual => exact h.blank.pair (c := '>') (d := '=') rfl
  | contains =>
      have hname : Text.isName "contains".toList = true := by decide
      exact h.word_blank hname
  | within =>
      have hname : Text.isName "in".toList = true := by decide
      exact h.word_blank hname

/-- A name that is not reserved. -/
theorem Scanned.name {word : String} (h : Scanned rest tokens)
    (hword : (Token.name word).writable = true)
    (hnext : ∀ d ∈ rest.head?, Text.isNameRest d = false) :
    Scanned (word.toList ++ rest) (.name word :: tokens) := by
  rw [Token.writable, Bool.and_eq_true, decide_eq_true_iff] at hword
  rw [← hword.2]
  exact h.word hword.1 hnext

theorem Scanned.text {value : String} (h : Scanned rest tokens)
    (hvalue : (Token.text value).writable = true) :
    Scanned ((Expr.quoteFor value ++ value ++ Expr.quoteFor value).toList ++ rest)
      (.text value :: tokens) := by
  rw [Token.writable, Bool.not_eq_true', Bool.and_eq_false_iff] at hvalue
  unfold Expr.quoteFor
  -- the text is put between quotes that are not in it
  split
  · next hsingle =>
      have hdouble : '"' ∉ value.toList := by
        rcases hvalue with hdouble | hother
        · simpa using hdouble
        · simp [hsingle] at hother
      simpa using h.literal (Or.inl rfl) hdouble
  · next hsingle => simpa using h.literal (Or.inr rfl) hsingle

theorem Scanned.number {value : Number} (h : Scanned rest tokens)
    (hvalue : (Token.number value).writable = true) (hnext : EndsOperand rest) :
    Scanned (value.toText.toList ++ rest)
      ((if value.isFinite then .number value else .name "inf") :: tokens) := by
  rw [Token.writable, Bool.and_eq_true, Bool.not_eq_true', Bool.not_eq_true'] at hvalue
  obtain ⟨hnan, hsign⟩ := hvalue
  split
  · next hfinite =>
      obtain ⟨whole, fraction, htext, hne, hwhole, hfraction, hvalue⟩ :=
        Number.exists_numeral hfinite hsign
      have hscanned := h.numeral hne hwhole hfraction hnext.not_isDigit
      rw [← htext, hvalue] at hscanned
      exact hscanned
  · next hinfinite =>
      have htext : value.toText = "inf" := by
        simp [Number.toText, hnan, hsign, hinfinite]
      have hname : Text.isName "inf".toList = true := by decide
      rw [htext]
      exact h.word hname hnext.not_isNameRest

end Scanned

/-! ## Trees -/

namespace Expr

/-- A member chain may be followed by anything that does not go on with its last name. -/
theorem scanned_path : ∀ tree : Expr, tree.path?.isSome = true → tree.writable = true →
    ∀ {rest : List Char} {tokens : List Token}, (∀ d ∈ rest.head?, Text.isNameRest d = false) →
    Scanned rest tokens → Scanned (tree.toText.toList ++ rest) (tree.tokens ++ tokens)
  | name word _, _, hwritable, rest, tokens, hnext, h => by
    rw [writable] at hwritable
    exact h.name hwritable hnext
  | member object property _, _, hwritable, rest, tokens, hnext, h => by
    rw [writable, Bool.and_eq_true, Bool.and_eq_true] at hwritable
    obtain ⟨⟨hpath, hobject⟩, hproperty⟩ := hwritable
    -- from the back: the property, its dot, and then the object in front of them
    have hdot := (h.name hproperty hnext).symbol (c := '.') rfl fun _ _ => rfl
    have hscanned := scanned_path object hpath hobject
      (by simp; decide) hdot
    simpa [toText, Expr.tokens] using hscanned
  | number .., hpath, _, _, _, _, _ | text .., hpath, _, _, _, _, _ | truth .., hpath, _, _, _, _, _
  | array .., hpath, _, _, _, _, _ | unary .., hpath, _, _, _, _, _
  | binary .., hpath, _, _, _, _, _ | logical .., hpath, _, _, _, _, _
  | group .., hpath, _, _, _, _, _ | assign .., hpath, _, _, _, _, _
  | between .., hpath, _, _, _, _, _ => by
    simp [path?] at hpath

mutual

/-- **A writable tree is scanned into its tokens.** -/
theorem scanned_toText : ∀ tree : Expr, tree.writable = true →
    ∀ {rest : List Char} {tokens : List Token}, EndsOperand rest → Scanned rest tokens →
    Scanned (tree.toText.toList ++ rest) (tree.tokens ++ tokens)
  | number value _, hwritable, rest, tokens, hrest, h => by
    rw [writable] at hwritable
    exact h.number hwritable hrest
  | text value _, hwritable, rest, tokens, hrest, h => by
    rw [writable] at hwritable
    exact h.text hwritable
  | truth value _, _, rest, tokens, hrest, h => by
    cases value with
    | false =>
        have hname : Text.isName "false".toList = true := by decide
        exact h.word hname hrest.not_isNameRest
    | true =>
        have hname : Text.isName "true".toList = true := by decide
        exact h.word hname hrest.not_isNameRest
  | name word position, hwritable, rest, tokens, hrest, h =>
    scanned_path (name word position) rfl hwritable hrest.not_isNameRest h
  | member object property position, hwritable, rest, tokens, hrest, h => by
    have hpath : (member object property position).path?.isSome = true := by
      have hobject := hwritable
      rw [writable, Bool.and_eq_true, Bool.and_eq_true] at hobject
      simpa [path?] using hobject.1.1
    exact scanned_path _ hpath hwritable hrest.not_isNameRest h
  | array elements _, hwritable, rest, tokens, _, h => by
    rw [writable] at hwritable
    have hinner := scanned_toTexts elements hwritable h
    have hopen := hinner.symbol (c := '[') rfl fun _ _ => rfl
    simpa [toText, Expr.tokens] using hopen
  | unary operator operand _, hwritable, rest, tokens, hrest, h => by
    rw [writable, Bool.and_eq_true] at hwritable
    have hoperand := scanned_toText operand hwritable.2 hrest h
    simpa [toText, Expr.tokens] using hoperand.unaryOperator operator
  | binary operator left right _, hwritable, rest, tokens, hrest, h => by
    simp only [writable, Bool.and_eq_true] at hwritable
    obtain ⟨⟨_, hleft⟩, hright⟩ := hwritable
    -- the blank behind the left operand ends it, and the operator is scanned up to its own
    have hoperator := (scanned_toText right hright hrest h).binaryOperator operator
    have hscanned := scanned_toText left hleft (endsOperand_cons (Or.inl rfl) _) hoperator.blank
    simpa [toText, Expr.tokens] using hscanned
  | logical operator left right _, hwritable, rest, tokens, hrest, h => by
    simp only [writable, Bool.and_eq_true] at hwritable
    obtain ⟨⟨_, hleft⟩, hright⟩ := hwritable
    have hoperator := (scanned_toText right hright hrest h).logicalOperator operator
    have hscanned := scanned_toText left hleft (endsOperand_cons (Or.inl rfl) _) hoperator.blank
    simpa [toText, Expr.tokens] using hscanned
  | group inner _, hwritable, rest, tokens, _, h => by
    rw [writable] at hwritable
    have hclose := h.symbol (c := ')') rfl fun _ _ => rfl
    have hinner := scanned_toText inner hwritable (endsOperand_cons (by simp) _) hclose
    have hopen := hinner.symbol (c := '(') rfl fun _ _ => rfl
    simpa [toText, Expr.tokens] using hopen
  | assign _ _ _, hwritable, _, _, _, _ => by
    simp [writable] at hwritable
  | between subject lower upper _, hwritable, rest, tokens, hrest, h => by
    simp only [writable, Bool.and_eq_true] at hwritable
    obtain ⟨⟨⟨_, hsubject⟩, hlower⟩, hupper⟩ := hwritable
    have hand : Scanned ("and".toList ++ ' ' :: (upper.toText.toList ++ rest))
        (.keyword .and :: (upper.tokens ++ tokens)) :=
      (scanned_toText upper hupper hrest h).word_blank (by decide)
    have hrange := scanned_toText lower hlower (endsOperand_cons (Or.inl rfl) _) hand.blank
    have hbetween : Scanned ("between".toList ++ ' ' :: _) (.name "between" :: _) :=
      hrange.word_blank (by decide)
    have his : Scanned ("is".toList ++ ' ' :: _) (.keyword .is :: _) :=
      hbetween.word_blank (by decide)
    have hscanned := scanned_toText subject hsubject (endsOperand_cons (Or.inl rfl) _) his.blank
    simpa [toText, Expr.tokens] using hscanned

theorem scanned_toTexts : ∀ trees : List Expr, allWritable trees = true →
    ∀ {rest : List Char} {tokens : List Token}, Scanned rest tokens →
    Scanned ((String.intercalate ", " (toTexts trees)).toList ++ ']' :: rest)
      (tokensOfAll trees ++ .symbol .closeBracket :: tokens)
  | [], _, rest, tokens, h => by
    simpa [toTexts, tokensOfAll] using h.symbol (c := ']') rfl fun _ _ => rfl
  | [tree], hwritable, rest, tokens, h => by
    simp only [allWritable, Bool.and_true] at hwritable
    have hclose := h.symbol (c := ']') rfl fun _ _ => rfl
    have hscanned := scanned_toText tree hwritable (endsOperand_cons (by simp) _) hclose
    simpa [toTexts, tokensOfAll] using hscanned
  | tree :: next :: trees, hwritable, rest, tokens, h => by
    rw [allWritable, Bool.and_eq_true] at hwritable
    have hothers := scanned_toTexts (next :: trees) hwritable.2 h
    have hcomma := hothers.blank.symbol (c := ',') rfl fun _ _ => rfl
    have hscanned := scanned_toText tree hwritable.1 (endsOperand_cons (by simp) _) hcomma
    simpa [toTexts, tokensOfAll] using hscanned

end

end Expr

end SurveyLogic
