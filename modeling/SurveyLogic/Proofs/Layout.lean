import SurveyLogic.Compiled
import SurveyLogic.Proofs.Grammar.Positions

/-!
# Layout does not matter

White space between two sources keeps their tokens apart and adds nothing to them
(`Lexeme.scan_spaced`), and the parsers look at nothing but the tokens (`Expr.parse_congr`).  So two
sources with the same tokens, however they are laid out, compile to the same tree up to positions or
fail with the same error up to its position.
-/

namespace SurveyLogic

namespace Compiled

variable {source : String} {lexemes : List Lexeme}

theorem map_tree_condition (h : Lexeme.scan source = .ok lexemes) :
    (condition source).map (·.tree) = Expr.parse lexemes := by
  unfold condition
  rw [h, ok_bind]
  cases Expr.parse lexemes <;> rfl

theorem map_tree_binding (h : Lexeme.scan source = .ok lexemes) :
    (binding source).map (·.tree) = Expr.parseBinding lexemes := by
  unfold binding
  rw [h, ok_bind]
  cases Expr.parseBinding lexemes <;> rfl

end Compiled

/-- **Layout does not matter.**  A source that is scanned keeps its tokens when white space and a
second source are put behind it; the tokens of the second source, or its error, come at their
distances behind both.  Two token lists that differ in nothing but positions are parsed alike, as
conditions and as bindings.  So are two sources with the same tokens. -/
theorem layout_immaterial :
    (∀ (first blanks second : String) (lexemes : List Lexeme), Lexeme.scan first = .ok lexemes →
      blanks ≠ "" → (∀ c ∈ blanks.toList, c ∈ whiteSpace) →
      Lexeme.scan (first ++ blanks ++ second) =
        match Lexeme.scan second with
        | .ok others =>
          .ok (lexemes ++ others.map (Lexeme.moved (byteSize (first ++ blanks).toList + ·)))
        | .error error => .error (error.moved (byteSize (first ++ blanks).toList + ·))) ∧
    (∀ as bs : List Lexeme, as.map (·.token) = bs.map (·.token) →
      SameOutcome (Expr.parse as) (Expr.parse bs) ∧
      SameOutcome (Expr.parseBinding as) (Expr.parseBinding bs)) ∧
    (∀ (source other : String) (as bs : List Lexeme), Lexeme.scan source = .ok as →
      Lexeme.scan other = .ok bs → as.map (·.token) = bs.map (·.token) →
      SameOutcome ((Compiled.condition source).map (·.tree))
        ((Compiled.condition other).map (·.tree)) ∧
      SameOutcome ((Compiled.binding source).map (·.tree))
        ((Compiled.binding other).map (·.tree))) := by
  refine ⟨fun first blanks second lexemes hfirst hne hblanks =>
      Lexeme.scan_spaced hfirst hne hblanks second,
    fun as bs h => ⟨Expr.parse_congr h, Expr.parseBinding_congr h⟩, ?_⟩
  intro source other as bs hsource hother h
  rw [Compiled.map_tree_condition hsource, Compiled.map_tree_condition hother,
    Compiled.map_tree_binding hsource, Compiled.map_tree_binding hother]
  exact ⟨Expr.parse_congr h, Expr.parseBinding_congr h⟩

/-- The tokens of `a<=b`. -/
def orderedLexemes : List Lexeme := [⟨.name "a", 0⟩, ⟨.symbol .lessEqual, 1⟩, ⟨.name "b", 3⟩]

/-- The tokens of `a <= b`. -/
def spacedLexemes : List Lexeme := [⟨.name "a", 0⟩, ⟨.symbol .lessEqual, 2⟩, ⟨.name "b", 5⟩]

/-- A blank between `<` and `=` keeps them apart.  Blanks around `<=` change nothing but
positions. -/
theorem layout_immaterial_ordered :
    Lexeme.scan ("a<" ++ " " ++ "=b") =
      .ok [⟨.name "a", 0⟩, ⟨.symbol .less, 1⟩, ⟨.symbol .assign, 3⟩, ⟨.name "b", 4⟩] ∧
    Lexeme.scan ("a<" ++ " " ++ "'b") = .error (.unterminatedString 3) ∧
    SameOutcome (Expr.parse orderedLexemes) (Expr.parse spacedLexemes) ∧
    Lexeme.scan "a<=b" = .ok orderedLexemes ∧ Lexeme.scan "a <= b" = .ok spacedLexemes ∧
    SameOutcome ((Compiled.binding "a<=b").map (·.tree))
      ((Compiled.binding "a <= b").map (·.tree)) := by
  have hfirst : Lexeme.scan "a<" = .ok [⟨.name "a", 0⟩, ⟨.symbol .less, 1⟩] :=
    eq_ok_of_seen (by decide +kernel)
  have hnear : Lexeme.scan "=b" = .ok [⟨.symbol .assign, 0⟩, ⟨.name "b", 1⟩] :=
    eq_ok_of_seen (by decide +kernel)
  have hquote : Lexeme.scan "'b" = .error (.unterminatedString 0) :=
    eq_error_of_seen (by decide +kernel)
  have hordered : Lexeme.scan "a<=b" = .ok orderedLexemes := eq_ok_of_seen (by decide +kernel)
  have hspaced : Lexeme.scan "a <= b" = .ok spacedLexemes := eq_ok_of_seen (by decide +kernel)
  have hblank : ∀ c ∈ " ".toList, c ∈ whiteSpace := by simp [whiteSpace]
  refine ⟨?_, ?_, (layout_immaterial.2.1 orderedLexemes spacedLexemes rfl).1, hordered, hspaced,
    (layout_immaterial.2.2 _ _ _ _ hordered hspaced rfl).2⟩
  · rw [layout_immaterial.1 "a<" " " "=b" _ hfirst (by decide) hblank, hnear]
    rfl
  · rw [layout_immaterial.1 "a<" " " "'b" _ hfirst (by decide) hblank, hquote]
    rfl

end SurveyLogic
