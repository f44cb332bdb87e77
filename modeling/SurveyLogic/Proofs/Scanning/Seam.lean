import SurveyLogic.Proofs.Scanning.Munch

/-!
# Scanning across a seam

Two sources with white space between them are scanned one after the other.  No token of the first
one reaches across the seam, since none goes on with a blank: not a numeral, although a point with
digits would make it longer, not a word that ends in a hyphen, and not the first half of a symbol
of two characters.  A quote has its partner on the near side already.  `Piece.first?_append` says
this of one piece, in front of any rest that no piece runs into (`Seam`).

The tokens behind the seam keep their distances, so they are those of the second source by itself,
moved by the length of what stands in front, and so is an error: `Lexeme.scan_spaced`.
-/

namespace SurveyLogic

/-! ## White space -/

/-- The characters that a source is laid out with. -/
def whiteSpace : List Char := [' ', '\t', '\r', '\n', '\x0c']

theorem forall_mem_whiteSpace {p : Char → Prop} :
    (∀ c ∈ whiteSpace, p c) ↔ p ' ' ∧ p '\t' ∧ p '\r' ∧ p '\n' ∧ p '\x0c' := by
  simp [whiteSpace]

/-- No token goes on with the first character: it makes no word or numeral longer, it is no decimal
point, and it is not the second character of a symbol. -/
def Seam (rest : List Char) : Prop :=
  ∀ c ∈ rest.head?, Text.isNameRest c = false ∧ c ≠ '.' ∧ c ≠ '='

theorem seam_of_whiteSpace {c : Char} (h : c ∈ whiteSpace) (rest : List Char) :
    Seam (c :: rest) := by
  have hall : ∀ c ∈ whiteSpace, Text.isNameRest c = false ∧ c ≠ '.' ∧ c ≠ '=' :=
    forall_mem_whiteSpace.mpr (by decide)
  exact Text.forall_mem_head?_cons (hall c h) rest

namespace Piece

/-! ## One piece in front of a seam -/

/-- What ends in front of some rest ends there also without it. -/
theorem takeWhile_append_of_stop {p : Char → Bool} {rest : List Char}
    (hstop : ∀ c ∈ rest.head?, p c = false) (cs : List Char) :
    (cs ++ rest).takeWhile p = cs.takeWhile p ∧
      (cs ++ rest).dropWhile p = cs.dropWhile p ++ rest := by
  induction cs with
  | nil =>
      cases rest with
      | nil => exact ⟨rfl, rfl⟩
      | cons c rest => simp [hstop c rfl]
  | cons c cs ih => by_cases hc : p c = true <;> simp [hc, ih]

theorem not_isDigit_of_seam {rest : List Char} (h : Seam rest) :
    ∀ c ∈ rest.head?, Text.isDigit c = false := by
  intro c hc
  have hrest := (h c hc).1
  simp only [Text.isNameRest, Bool.or_eq_false_iff] at hrest
  exact hrest.1.2

theorem numeral_append {rest : List Char} (h : Seam rest) (cs : List Char) :
    numeral (cs ++ rest) = ((numeral cs).1, (numeral cs).2 ++ rest) := by
  obtain ⟨hwhole, hdrop⟩ := takeWhile_append_of_stop (not_isDigit_of_seam h) cs
  unfold numeral
  dsimp only
  rw [hwhole, hdrop]
  cases hcs : cs.dropWhile Text.isDigit with
  | nil =>
      -- the digits are all there is on the near side, and no point follows
      cases rest with
      | nil => rfl
      | cons c rest =>
          have hpoint : c ≠ '.' := (h c rfl).2.1
          rw [List.nil_append]
          split
          · next heq => exact absurd (List.cons.inj heq).1 hpoint
          · rfl
  | cons c after =>
      by_cases hpoint : c = '.'
      · subst hpoint
        obtain ⟨hfraction, hdrop'⟩ := takeWhile_append_of_stop (not_isDigit_of_seam h) after
        simp only [List.cons_append, hfraction, hdrop']
        split <;> rfl
      · rw [List.cons_append]
        split
        · next heq => exact absurd (List.cons.inj heq).1 hpoint
        · split
          · next heq => exact absurd (List.cons.inj heq).1 hpoint
          · rfl

theorem word_append {rest : List Char} (h : Seam rest) (cs : List Char) :
    word (cs ++ rest) = ((word cs).1, (word cs).2 ++ rest) := by
  obtain ⟨htake, hdrop⟩ := takeWhile_append_of_stop (fun c hc => (h c hc).1) cs
  unfold word
  rw [htake, hdrop]

/-- A text ends at its quote, whatever is behind it. -/
theorem literal?_append {quote : Char} {cs after : List Char} {piece : Piece}
    (h : literal? quote cs = some (piece, after)) (rest : List Char) :
    literal? quote (cs ++ rest) = some (piece, after ++ rest) := by
  have hmem : quote ∈ cs := by
    refine Classical.byContradiction fun hnot => ?_
    rw [literal?_eq_none_iff.mpr hnot] at h
    contradiction
  obtain ⟨content, after', rfl, hcontent⟩ := List.eq_append_cons_of_mem hmem
  rw [literal?_eq hcontent] at h
  obtain ⟨rfl, rfl⟩ := Prod.mk.inj (Option.some.inj h)
  rw [List.append_assoc, List.cons_append, literal?_eq hcontent]

theorem symbol_append {rest : List Char} (h : Seam rest) (c : Char) (cs : List Char) :
    symbol c (cs ++ rest) = ((symbol c cs).1, (symbol c cs).2 ++ rest) := by
  have hsingle : ∀ cs, symbol.single c (cs ++ rest) =
      ((symbol.single c cs).1, (symbol.single c cs).2 ++ rest) := by
    intro cs
    unfold symbol.single
    split <;> rfl
  cases cs with
  | nil =>
      cases rest with
      | nil => simp
      | cons d rest =>
          -- behind a seam no `=` makes a longer symbol
          have hnone : Symbol.ofPair? c d = none := by
            have hequal : d ≠ '=' := (h d rfl).2.2
            unfold Symbol.ofPair?
            split <;> first
              | contradiction
              | rfl
          have hlonger := hsingle []
          rw [List.nil_append] at hlonger ⊢
          unfold symbol
          dsimp only
          rw [hnone]
          exact hlonger
  | cons d cs =>
      unfold symbol
      dsimp only [List.cons_append]
      split
      · rfl
      · exact hsingle (d :: cs)

/-- A piece is cut off in front of a seam as it is at the end of a source. -/
theorem first?_append {c : Char} {cs after rest : List Char} {piece : Piece} (hseam : Seam rest)
    (h : first? c cs = some (piece, after)) :
    first? c (cs ++ rest) = some (piece, after ++ rest) := by
  unfold first? at h ⊢
  split at h
  · next hdigit =>
      rw [if_pos hdigit, ← List.cons_append, numeral_append hseam, Option.some.inj h]
  · next hdigit =>
      rw [if_neg hdigit]
      split at h
      · next hstart =>
          rw [if_pos hstart, ← List.cons_append, word_append hseam, Option.some.inj h]
      · next hstart =>
          rw [if_neg hstart]
          split at h
          · next hquote =>
              rw [if_pos hquote]
              exact literal?_append h rest
          · next hquote =>
              rw [if_neg hquote, symbol_append hseam, Option.some.inj h]

/-! ## All pieces -/

/-- A source that is cut up to its end is cut so in front of a seam. -/
theorem cut_append {rest : List Char} (hseam : Seam rest) (cs : List Char)
    (h : (cut cs).2 = []) : cut (cs ++ rest) = ((cut cs).1 ++ (cut rest).1, (cut rest).2) := by
  fun_induction cut cs with
  | case1 => rfl
  | case2 => contradiction
  | case3 c cs piece after hfirst tail ih =>
      rw [List.cons_append, cut_of_first? (first?_append hseam hfirst), ih h]
      rfl

theorem first?_whiteSpace {c : Char} (h : c ∈ whiteSpace) (cs : List Char) :
    first? c cs = some (skipped c, cs) := by
  have hall : ∀ c ∈ whiteSpace, Text.isDigit c = false ∧ Text.isNameStart c = false ∧
      ¬(c = '"' ∨ c = '\'') ∧ Symbol.ofChar? c = none :=
    forall_mem_whiteSpace.mpr (by decide)
  have hpair : ∀ d, Symbol.ofPair? c d = none := by
    intro d
    unfold Symbol.ofPair?
    split <;> first
      | exact absurd h (by decide)
      | rfl
  obtain ⟨hdigit, hstart, hquote, hsign⟩ := hall c h
  rw [first?_of_other hdigit hstart hquote]
  unfold symbol symbol.single
  cases cs with
  | nil => simp only [hsign]
  | cons d cs => simp only [hpair, hsign]

/-- White space is skipped. -/
theorem cut_whiteSpace {blanks : List Char} (h : ∀ c ∈ blanks, c ∈ whiteSpace) (cs : List Char) :
    cut (blanks ++ cs) = (blanks.map skipped ++ (cut cs).1, (cut cs).2) := by
  induction blanks with
  | nil => rfl
  | cons c blanks ih =>
      rw [List.forall_mem_cons] at h
      rw [List.cons_append, cut_of_first? (first?_whiteSpace h.1 _), ih h.2]
      rfl

theorem flatMap_chars_skipped (blanks : List Char) :
    (blanks.map skipped).flatMap chars = blanks := by
  induction blanks with
  | nil => rfl
  | cons c blanks ih =>
      rw [List.map_cons, List.flatMap_cons, ih]
      rfl

end Piece

/-! ## Other positions -/

/-- The same token at another position. -/
def Lexeme.moved (place : Nat → Nat) (lexeme : Lexeme) : Lexeme :=
  ⟨lexeme.token, place lexeme.position⟩

/-- The same error at another position, if it has one. -/
def SyntaxError.moved (place : Nat → Nat) : SyntaxError → SyntaxError
  | unterminatedString position => unterminatedString (place position)
  | unexpectedToken found expected position => unexpectedToken found expected (place position)
  | unexpectedEnd expected => unexpectedEnd expected
  | trailingTokens first position => trailingTokens first (place position)
  | invalidAssignmentTarget position => invalidAssignmentTarget (place position)
  | nestingTooDeep position => nestingTooDeep (place position)

/-! ## Placing the tokens -/

namespace Lexeme

theorem place_add (distance position : Nat) (pieces : List Piece) :
    place (distance + position) pieces = (place position pieces).map (moved (distance + ·)) := by
  induction pieces generalizing position with
  | nil => rfl
  | cons piece pieces ih =>
      cases piece with
      | token value spelling =>
          rw [place, place, List.map_cons, Nat.add_assoc, ih]
          rfl
      | skipped c => rw [place, place, Nat.add_assoc, ih]

theorem place_append (position : Nat) (front pieces : List Piece) :
    place position (front ++ pieces) =
      place position front ++ place (position + byteSize (front.flatMap Piece.chars)) pieces := by
  induction front generalizing position with
  | nil => rfl
  | cons piece front ih =>
      rw [List.cons_append, List.flatMap_cons, byteSize_append, ← Nat.add_assoc]
      cases piece with
      | token value spelling =>
          rw [place, place, ih]
          rfl
      | skipped c =>
          rw [place, place, ih, Piece.chars, byteSize_cons]
          rfl

theorem place_skipped (position : Nat) (blanks : List Char) :
    place position (blanks.map Piece.skipped) = [] := by
  induction blanks generalizing position with
  | nil => rfl
  | cons c blanks ih =>
      rw [List.map_cons, place]
      exact ih _

/-! ## Two sources with white space between them -/

theorem cut_of_scan {source : String} {lexemes : List Lexeme} (h : scan source = .ok lexemes) :
    (Piece.cut source.toList).2 = [] ∧ lexemes = place 0 (Piece.cut source.toList).1 := by
  unfold scan at h
  dsimp only at h
  split at h
  · next hcut => exact ⟨hcut, (Except.ok.inj h).symm⟩
  · contradiction

theorem scanned_of_scan {source : String} {lexemes : List Lexeme} (h : scan source = .ok lexemes) :
    Scanned source.toList (lexemes.map (·.token)) := by
  obtain ⟨hcut, rfl⟩ := cut_of_scan h
  exact ⟨hcut, (map_token_place _ _).symm⟩

/-- The tokens of the second source follow those of the first one, at their distances.  If the
second source ends inside a text, so does the whole. -/
theorem scan_spaced {first blanks : String} {lexemes : List Lexeme}
    (hfirst : scan first = .ok lexemes) (hne : blanks ≠ "")
    (hblanks : ∀ c ∈ blanks.toList, c ∈ whiteSpace) (second : String) :
    scan (first ++ blanks ++ second) =
      match scan second with
      | .ok others =>
        .ok (lexemes ++ others.map (moved (byteSize (first ++ blanks).toList + ·)))
      | .error error => .error (error.moved (byteSize (first ++ blanks).toList + ·)) := by
  obtain ⟨hcut, rfl⟩ := cut_of_scan hfirst
  have hseam : Seam (blanks.toList ++ second.toList) := by
    obtain ⟨c, more, hcs⟩ := List.exists_cons_of_ne_nil (mt String.toList_eq_nil_iff.mp hne)
    rw [hcs] at hblanks ⊢
    exact seam_of_whiteSpace (hblanks c List.mem_cons_self) _
  -- the pieces in front of the second source are those of the first one, and the blanks
  let front := (Piece.cut first.toList).1 ++ blanks.toList.map .skipped
  have hspaced : Piece.cut (first ++ blanks ++ second).toList =
      (front ++ (Piece.cut second.toList).1, (Piece.cut second.toList).2) := by
    rw [String.toList_append, String.toList_append, List.append_assoc,
      Piece.cut_append hseam _ hcut, Piece.cut_whiteSpace hblanks, ← List.append_assoc]
  have hchars : front.flatMap Piece.chars = (first ++ blanks).toList := by
    have hlossless : (Piece.cut first.toList).1.flatMap Piece.chars = first.toList := by
      simpa [hcut] using Piece.cut_lossless first.toList
    rw [List.flatMap_append, hlossless, Piece.flatMap_chars_skipped, String.toList_append]
  have hplace : place 0 front = place 0 (Piece.cut first.toList).1 := by
    rw [place_append, place_skipped, List.append_nil]
  unfold scan
  rw [hspaced]
  dsimp only
  by_cases huncut : (Piece.cut second.toList).2 = []
  · have hmoved := place_add (byteSize (first ++ blanks).toList) 0 (Piece.cut second.toList).1
    rw [if_pos huncut, if_pos huncut, place_append, hchars, hplace, Nat.zero_add]
    exact congrArg (fun others => Except.ok (_ ++ others)) hmoved
  · rw [if_neg huncut, if_neg huncut, List.flatMap_append, byteSize_append, hchars]
    rfl

end Lexeme

end SurveyLogic
