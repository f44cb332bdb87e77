import SurveyLogic.SyntaxError
import SurveyLogic.Number.Numeral

/-!
# Scanning a source

A source is cut into pieces from left to right, each as long as it can be: tokens, and single
characters that belong to no token.  Nothing is lost, since every piece keeps its characters; the
only way to fail is a quote without a partner, at which the cutting stops.  The tokens are then
placed at the byte offsets at which their pieces start.
-/

namespace SurveyLogic

/-! ## Words and symbols -/

/-- A whole word: a reserved word if it is spelled as one, else a name. -/
def Token.ofWord (word : String) : Token :=
  match word with
  | "true" | "TRUE" => .truth true
  | "false" | "FALSE" => .truth false
  | "and" | "AND" => .keyword .and
  | "or" | "OR" => .keyword .or
  | "not" | "NOT" => .keyword .not
  | "contains" => .keyword .contains
  | "in" => .keyword .within
  | "is" => .keyword .is
  | _ => .name word

def Symbol.ofPair? : Char → Char → Option Symbol
  | '=', '=' => some .equal
  | '!', '=' => some .notEqual
  | '<', '=' => some .lessEqual
  | '>', '=' => some .greaterEqual
  | _, _ => none

def Symbol.ofChar? : Char → Option Symbol
  | '.' => some .dot
  | '+' => some .plus
  | '-' => some .minus
  | '*' => some .star
  | '/' => some .slash
  | '^' => some .caret
  | '(' => some .openParen
  | ')' => some .closeParen
  | '[' => some .openBracket
  | ']' => some .closeBracket
  | ',' => some .comma
  | '=' => some .assign
  | '<' => some .less
  | '>' => some .greater
  | '!' => some .bang
  | _ => none

/-! ## Pieces -/

/-- A token with its characters in the source, or a character outside all tokens. -/
inductive Piece
  | token (value : Token) (spelling : List Char)
  | skipped (c : Char)
deriving DecidableEq

namespace Piece

/-- The characters of a piece. -/
def chars : Piece → List Char
  | token _ spelling => spelling
  | skipped c => [c]

/-- The numeral in front of a source that starts with a digit. -/
def numeral (cs : List Char) : Piece × List Char :=
  let whole := cs.takeWhile Text.isDigit
  match cs.dropWhile Text.isDigit with
  | '.' :: rest =>
    match rest.takeWhile Text.isDigit with
    | [] => (token (.number (Number.ofNumeral whole [])) whole, '.' :: rest)
    | fraction => (token (.number (Number.ofNumeral whole fraction)) (whole ++ '.' :: fraction),
        rest.dropWhile Text.isDigit)
  | rest => (token (.number (Number.ofNumeral whole [])) whole, rest)

/-- The word in front of a source that starts with a letter or an underscore. -/
def word (cs : List Char) : Piece × List Char :=
  let spelling := cs.takeWhile Text.isNameRest
  (token (.ofWord (String.ofList spelling)) spelling, cs.dropWhile Text.isNameRest)

/-- The text literal opened by `quote`, if that quote occurs again.  There are no escapes. -/
def literal? (quote : Char) (cs : List Char) : Option (Piece × List Char) :=
  let content := cs.takeWhile (· ≠ quote)
  match cs.dropWhile (· ≠ quote) with
  | [] => none
  | _ :: rest => some (token (.text (String.ofList content)) (quote :: content ++ [quote]), rest)

/-- The symbol in front of a source, two characters wide if they make one, or a skipped
character. -/
def symbol (c : Char) (cs : List Char) : Piece × List Char :=
  match cs with
  | d :: rest =>
    match Symbol.ofPair? c d with
    | some sign => (token (.symbol sign) [c, d], rest)
    | none => single c cs
  | [] => single c cs
where
  single (c : Char) (cs : List Char) : Piece × List Char :=
    match Symbol.ofChar? c with
    | some sign => (token (.symbol sign) [c], cs)
    | none => (skipped c, cs)

/-- The first piece of the source `c :: cs` and what follows it; none if `c` is a quote without a
partner. -/
def first? (c : Char) (cs : List Char) : Option (Piece × List Char) :=
  if Text.isDigit c then some (numeral (c :: cs))
  else if Text.isNameStart c then some (word (c :: cs))
  else if c = '"' ∨ c = '\'' then literal? c cs
  else some (symbol c cs)

/-! ### Every piece takes something and loses nothing -/

theorem numeral_lossless (cs : List Char) : (numeral cs).1.chars ++ (numeral cs).2 = cs := by
  have hcut := List.takeWhile_append_dropWhile (p := Text.isDigit) (l := cs)
  unfold numeral
  split
  · next rest hrest =>
    have hfraction := List.takeWhile_append_dropWhile (p := Text.isDigit) (l := rest)
    split
    · rw [hrest] at hcut
      exact hcut
    · rw [hrest] at hcut
      simpa [chars, List.append_assoc, hfraction] using hcut
  · exact hcut

theorem word_lossless (cs : List Char) : (word cs).1.chars ++ (word cs).2 = cs :=
  List.takeWhile_append_dropWhile

theorem literal?_lossless {quote : Char} {cs : List Char} {piece : Piece} {rest : List Char}
    (h : literal? quote cs = some (piece, rest)) : piece.chars ++ rest = quote :: cs := by
  have hcut := List.takeWhile_append_dropWhile (p := fun c => decide (c ≠ quote)) (l := cs)
  unfold literal? at h
  split at h
  · simp at h
  · next closing rest' hdrop =>
    -- what ends the content is the quote itself
    have hclosing : closing = quote := by
      have hhead := List.head?_dropWhile_not (fun c => decide (c ≠ quote)) cs
      rw [hdrop] at hhead
      simpa using hhead
    obtain ⟨rfl, rfl⟩ := by simpa using h
    rw [hdrop, hclosing] at hcut
    simpa [chars] using hcut

theorem symbol_lossless (c : Char) (cs : List Char) :
    (symbol c cs).1.chars ++ (symbol c cs).2 = c :: cs := by
  have hsingle : ∀ cs, (symbol.single c cs).1.chars ++ (symbol.single c cs).2 = c :: cs := by
    intro cs
    unfold symbol.single
    split <;> simp [chars]
  unfold symbol
  split
  · split
    · simp [chars]
    · exact hsingle _
  · exact hsingle _

/-- A piece and what follows it are the source. -/
theorem first?_lossless {c : Char} {cs : List Char} {piece : Piece} {rest : List Char}
    (h : first? c cs = some (piece, rest)) : piece.chars ++ rest = c :: cs := by
  unfold first? at h
  split at h
  · obtain ⟨h₁, h₂⟩ := Prod.ext_iff.mp (Option.some.inj h)
    simpa [h₁, h₂] using numeral_lossless (c :: cs)
  · split at h
    · obtain ⟨h₁, h₂⟩ := Prod.ext_iff.mp (Option.some.inj h)
      simpa [h₁, h₂] using word_lossless (c :: cs)
    · split at h
      · exact literal?_lossless h
      · obtain ⟨h₁, h₂⟩ := Prod.ext_iff.mp (Option.some.inj h)
        simpa [h₁, h₂] using symbol_lossless c cs

theorem first?_chars_ne_nil {c : Char} {cs : List Char} {piece : Piece} {rest : List Char}
    (h : first? c cs = some (piece, rest)) : piece.chars ≠ [] := by
  unfold first? at h
  split at h
  · -- the digit in front belongs to the whole part
    next hdigit =>
    obtain ⟨h₁, h₂⟩ := Prod.ext_iff.mp (Option.some.inj h)
    simp only at h₁
    rw [← h₁, numeral]
    split
    · split <;> simp [chars, hdigit]
    · simp [chars, hdigit]
  · split at h
    · -- what starts a word may also go on in it
      next hstart =>
      obtain ⟨h₁, h₂⟩ := Prod.ext_iff.mp (Option.some.inj h)
      simp only at h₁
      rw [← h₁, word]
      simp [chars, Text.isNameRest, hstart]
    · split at h
      · unfold literal? at h
        split at h
        · simp at h
        · obtain ⟨rfl, rfl⟩ := by simpa using h
          simp [chars]
      · obtain ⟨h₁, h₂⟩ := Prod.ext_iff.mp (Option.some.inj h)
        simp only at h₁
        rw [← h₁]
        have hsingle : ∀ cs, (symbol.single c cs).1.chars ≠ [] := by
          intro cs
          unfold symbol.single
          split <;> simp [chars]
        unfold symbol
        split
        · split
          · simp [chars]
          · exact hsingle _
        · exact hsingle _

theorem length_lt_of_first? {c : Char} {cs : List Char} {piece : Piece} {rest : List Char}
    (h : first? c cs = some (piece, rest)) : rest.length < (c :: cs).length := by
  rw [← first?_lossless h, List.length_append]
  have := List.length_pos_iff.mpr (first?_chars_ne_nil h)
  omega

/-! ## Cutting a source -/

/-- The pieces of a source and what is left uncut: nothing, or all from the first quote on that has
no partner. -/
def cut : List Char → List Piece × List Char
  | [] => ([], [])
  | c :: cs =>
    match _h : first? c cs with
    | none => ([], c :: cs)
    | some (piece, rest) =>
      let tail := cut rest
      (piece :: tail.1, tail.2)
termination_by cs => cs.length
decreasing_by all_goals exact length_lt_of_first? _h

/-- The pieces and the uncut end are the source. -/
theorem cut_lossless (cs : List Char) : (cut cs).1.flatMap chars ++ (cut cs).2 = cs := by
  fun_induction cut cs with
  | case1 => rfl
  | case2 => rfl
  | case3 c cs piece rest h tail ih =>
    rw [List.flatMap_cons, List.append_assoc, ih, first?_lossless h]

end Piece

/-! ## Placing the tokens -/

/-- The length of a text in bytes. -/
def byteSize (cs : List Char) : Nat := cs.foldl (fun size c => size + c.utf8Size) 0

/-- The tokens among the pieces, when the first piece starts at `position`. -/
def Lexeme.place (position : Nat) : List Piece → List Lexeme
  | [] => []
  | .token value spelling :: pieces =>
    ⟨value, position⟩ :: place (position + byteSize spelling) pieces
  | .skipped c :: pieces => place (position + c.utf8Size) pieces

/-- The tokens of a source. -/
def Lexeme.scan (source : String) : Except SyntaxError (List Lexeme) :=
  let (pieces, uncut) := Piece.cut source.toList
  if uncut = [] then .ok (place 0 pieces)
  else .error (.unterminatedString (byteSize (pieces.flatMap Piece.chars)))

end SurveyLogic
