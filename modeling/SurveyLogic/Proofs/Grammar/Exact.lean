import SurveyLogic.Proofs.Grammar.Complete
import SurveyLogic.Proofs.Grammar.MoreRoom
import SurveyLogic.Proofs.Grammar.Sound

/-!
# The parser and the grammar

Soundness and completeness of the readers meet here.  A sentence has one tree, because a single
reader with room for two trees has read both (`Sentence.unique`).  The parser answers with this tree
unless it lacks room (`Expr.parse_iff_sentence`).
-/

namespace SurveyLogic

/-- **A sentence has one tree.** -/
theorem Sentence.unique {tokens : List Lexeme} {tree tree' : Expr} (h : Sentence tokens tree)
    (h' : Sentence tokens tree') : tree = tree' := by
  obtain ⟨shorter, hread⟩ := Derives.read_eq h (Nat.le_max_left tree.roomNeeded tree'.roomNeeded)
  obtain ⟨shorter', hread'⟩ :=
    Derives.read_eq h' (Nat.le_max_right tree.roomNeeded tree'.roomNeeded)
  rw [hread] at hread'
  simpa using hread'

namespace Expr

theorem finish_eq_ok {whole : List Lexeme} {reading : Reading Expr whole} {tree : Expr}
    (h : finish reading = .ok tree) : reading.rest = [] ∧ reading.result = tree := by
  unfold finish at h
  split at h
  · next hrest => exact ⟨hrest, Except.ok.inj h⟩
  · simp at h

/-- The tree of a whole token list that is read with some room; a condition has the greatest
height as its room. -/
def parseWithin (room : Nat) (tokens : List Lexeme) : Except SyntaxError Expr := do
  finish (← Reader.withRoom room .or tokens)

section Within

variable {room : Nat} {tokens : List Lexeme} {tree : Expr}

/-- What is read with some room is a sentence, and its tree fits into the room. -/
theorem sentence_of_parseWithin (hroom : 1 ≤ room) (h : parseWithin room tokens = .ok tree) :
    Sentence tokens tree ∧ tree.roomNeeded ≤ room := by
  obtain ⟨reading, hread, hfinish⟩ := exists_of_bind_eq_ok h
  obtain ⟨hrest, rfl⟩ := finish_eq_ok hfinish
  obtain ⟨⟨consumed, htokens, hderives⟩, -, hfits⟩ :=
    Reader.sound_withRoom room hroom .or tokens reading hread
  rw [hrest, List.append_nil] at htokens
  subst htokens
  exact ⟨hderives, hfits⟩

/-- A sentence whose tree fits into the room is read. -/
theorem parseWithin_of_le (h : Sentence tokens tree) (hroom : tree.roomNeeded ≤ room) :
    parseWithin room tokens = .ok tree := by
  obtain ⟨shorter, hread⟩ := Derives.read_eq h hroom
  unfold parseWithin
  rw [hread]
  rfl

/-- On a sentence whose tree does not fit, the reader gives up because of the nesting: it would
answer what it answers with enough room, but that tree does not fit. -/
theorem parseWithin_of_lt (h : Sentence tokens tree) (hpos : 1 ≤ room)
    (hroom : room < tree.roomNeeded) :
    ∃ position, parseWithin room tokens = .error (.nestingTooDeep position) := by
  obtain ⟨shorter, hread⟩ := Derives.read_eq h (Nat.le_refl tree.roomNeeded)
  rcases Reader.upTo_withRoom (Nat.le_of_lt hroom) .or tokens with ⟨position, hdeep⟩ | heq
  · refine ⟨position, ?_⟩
    unfold parseWithin
    rw [hdeep]
    rfl
  · -- with less room it would have read a tree that does not fit
    have hfits := (Reader.sound_withRoom room hpos .or tokens _ (heq.trans hread)).fits
    exact absurd hfits (Nat.not_le.mpr hroom)

end Within

/-- What the parser accepts is a sentence, and its tree fits into the room there is. -/
theorem sentence_of_parse {tokens : List Lexeme} {tree : Expr} (h : parse tokens = .ok tree) :
    Sentence tokens tree ∧ tree.roomNeeded ≤ maxHeight :=
  sentence_of_parseWithin (by decide) h

/-- A sentence whose tree fits into the room there is, is accepted. -/
theorem parse_of_sentence {tokens : List Lexeme} {tree : Expr} (h : Sentence tokens tree)
    (hroom : tree.roomNeeded ≤ maxHeight) : parse tokens = .ok tree :=
  parseWithin_of_le h hroom

/-- On a sentence the parser answers with its tree or gives up because of the nesting. -/
theorem parse_of_sentence_of_not_tooDeep {tokens : List Lexeme} {tree : Expr}
    (h : Sentence tokens tree)
    (hroom : ∀ position, parse tokens ≠ .error (.nestingTooDeep position)) :
    parse tokens = .ok tree := by
  rcases Nat.lt_or_ge maxHeight tree.roomNeeded with hlt | hle
  · obtain ⟨position, hdeep⟩ := parseWithin_of_lt h (by decide) hlt
    exact absurd hdeep (hroom position)
  · exact parse_of_sentence h hle

/-- **The parser builds exactly the tree of the grammar.**  A sentence has one tree; where the
parser does not give up because of the nesting, it accepts the sentences and nothing else, each with
its tree; and it does not give up on a sentence whose tree stays below the greatest height. -/
theorem parse_iff_sentence (tokens : List Lexeme) :
    (∀ tree tree', Sentence tokens tree → Sentence tokens tree' → tree = tree') ∧
    ((∀ position, parse tokens ≠ .error (.nestingTooDeep position)) →
      ∀ tree, parse tokens = .ok tree ↔ Sentence tokens tree) ∧
    (∀ tree, Sentence tokens tree → tree.height < maxHeight → parse tokens = .ok tree) := by
  refine ⟨fun tree tree' h h' => h.unique h', fun hroom tree => ⟨fun h => ?_, fun h => ?_⟩,
    fun tree h hheight => ?_⟩
  · exact (sentence_of_parse h).1
  · exact parse_of_sentence_of_not_tooDeep h hroom
  · exact parse_of_sentence h (Nat.le_trans tree.roomNeeded_le hheight)

/-- The tokens of `x + y * z < 1 and a is between 1 and 1 and b`: each operator binds tighter than
the ones before it up to the first `and`, and the second `and` belongs to the range. -/
def mixedTokens : List Lexeme :=
  [⟨.name "x", 0⟩, ⟨.symbol .plus, 2⟩, ⟨.name "y", 4⟩, ⟨.symbol .star, 6⟩, ⟨.name "z", 8⟩,
    ⟨.symbol .less, 10⟩, ⟨.number .one, 12⟩, ⟨.keyword .and, 14⟩, ⟨.name "a", 18⟩,
    ⟨.keyword .is, 20⟩, ⟨.name "between", 23⟩, ⟨.number .one, 31⟩, ⟨.keyword .and, 33⟩,
    ⟨.number .one, 37⟩, ⟨.keyword .and, 39⟩, ⟨.name "b", 43⟩]

/-- The tree of `((x + (y * z)) < 1 and (a is between 1 and 1)) and b`. -/
def mixedTree : Expr :=
  .logical .and
    (.logical .and
      (.binary .less
        (.binary .add (.name "x" 0) (.binary .multiply (.name "y" 4) (.name "z" 8) 6) 2)
        (.number .one 12) 10)
      (.between (.name "a" 18) (.number .one 31) (.number .one 37) 20) 14)
    (.name "b" 43) 39

theorem sentence_mixed : Sentence mixedTokens mixedTree := by
  have hname : ∀ level word position, Level.unary.Within level →
      Derives level [⟨.name word, position⟩] (.name word position) :=
    fun _ word position hlevel => (Derives.member (.name word position)).of_within hlevel
  have hone : ∀ position, Derives .additive [⟨.number .one, position⟩] (.number .one position) :=
    fun position => (Derives.number .one position).of_within (by decide)
  -- each operator joins what the tighter ones have joined before
  have hproduct : Derives .multiplicative _ _ :=
    .binary_of_token .multiply ⟨.symbol .star, 6⟩ (by decide) rfl (by decide) (by decide)
      (hname .multiplicative "y" 4 (by decide)) (hname .power "z" 8 (by decide))
  have hsum : Derives .additive _ _ :=
    .binary_of_token .add ⟨.symbol .plus, 2⟩ (by decide) rfl (by decide) (by decide)
      (hname .additive "x" 0 (by decide)) hproduct
  have hless : Derives .relational _ _ :=
    .binary_of_token .less ⟨.symbol .less, 10⟩ (by decide) rfl (by decide) (by decide)
      (.operand rfl hsum) (hone 12)
  have hrange : Derives .relational _ _ :=
    .between 20 23 33 (hname .relational "a" 18 (by decide)) (hone 31) (hone 37)
  have hfirst : Derives .and _ _ :=
    .and 14 (hless.of_within (by decide)) (.operand rfl hrange)
  exact (Derives.and 39 hfirst (hname .equality "b" 43 (by decide))).of_within (by decide)

theorem parse_iff_sentence_mixed :
    Sentence mixedTokens mixedTree ∧ mixedTree.height < maxHeight ∧
    parse mixedTokens = .ok mixedTree ∧
    (∀ tree, parse mixedTokens = .ok tree ↔ Sentence mixedTokens tree) ∧
    (∀ tree, Sentence mixedTokens tree → tree = mixedTree) := by
  obtain ⟨hunique, hiff, haccepted⟩ := parse_iff_sentence mixedTokens
  have hheight : mixedTree.height < maxHeight := by decide
  have hparse := haccepted mixedTree sentence_mixed hheight
  have hfits : ∀ position, parse mixedTokens ≠ .error (.nestingTooDeep position) := by
    simp [hparse]
  exact ⟨sentence_mixed, hheight, hparse, hiff hfits,
    fun tree htree => hunique tree mixedTree htree sentence_mixed⟩

end Expr

end SurveyLogic
