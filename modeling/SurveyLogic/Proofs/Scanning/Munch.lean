import Mathlib.Logic.Relation
import SurveyLogic.Proofs.Scanning.Spelling
import SurveyLogic.Reading

/-!
# Scanning takes the longest tokens and loses nothing

A scan goes through a source from left to right.  It takes the longest token in front as a whole,
and passes over a character only if no token starts with it (`Takes`).  It can be stuck only at a
quote without a partner.  That is where scanning fails; every other source is a sequence of slices,
one for each token and placed at its offset, with nothing between them but characters with which no
token starts (`Munched`).  `Lexeme.scan_munch` says both.
-/

namespace SurveyLogic

/-! ## Bytes -/

theorem foldl_byteSize (size : Nat) (cs : List Char) :
    cs.foldl (fun size c => size + c.utf8Size) size = size + byteSize cs := by
  unfold byteSize
  induction cs generalizing size with
  | nil => rfl
  | cons c cs ih =>
      rw [List.foldl_cons, List.foldl_cons, ih, ih (0 + c.utf8Size), Nat.zero_add, Nat.add_assoc]

theorem byteSize_cons (c : Char) (cs : List Char) :
    byteSize (c :: cs) = c.utf8Size + byteSize cs := by
  rw [byteSize, List.foldl_cons, foldl_byteSize, Nat.zero_add]

theorem byteSize_append (front cs : List Char) :
    byteSize (front ++ cs) = byteSize front + byteSize cs := by
  rw [byteSize, List.foldl_append, foldl_byteSize]
  rfl

theorem byteSize_pos {cs : List Char} (hne : cs ≠ []) : 0 < byteSize cs := by
  obtain ⟨c, more, rfl⟩ := List.exists_cons_of_ne_nil hne
  rw [byteSize_cons]
  exact Nat.lt_of_lt_of_le c.utf8Size_pos (Nat.le_add_right _ _)

/-- An offset cuts a source in one way. -/
theorem eq_of_byteSize_eq {before before' rest rest' : List Char}
    (h : before ++ rest = before' ++ rest') (hsize : byteSize before = byteSize before') :
    before = before' ∧ rest = rest' := by
  induction before generalizing before' with
  | nil =>
      cases before' with
      | nil => exact ⟨rfl, h⟩
      | cons c before' =>
          have hpos := byteSize_pos (List.cons_ne_nil c before')
          rw [← hsize] at hpos
          contradiction
  | cons c before ih =>
      cases before' with
      | nil =>
          have hpos := byteSize_pos (List.cons_ne_nil c before)
          rw [hsize] at hpos
          contradiction
      | cons d before' =>
          obtain ⟨rfl, htail⟩ := List.cons.inj h
          rw [byteSize_cons, byteSize_cons] at hsize
          obtain ⟨rfl, hrest⟩ := ih htail (Nat.add_left_cancel hsize)
          exact ⟨rfl, hrest⟩

/-- The characters stand in the source at a byte offset. -/
def SliceAt (source : List Char) (offset : Nat) (chars : List Char) : Prop :=
  ∃ before after, source = before ++ (chars ++ after) ∧ byteSize before = offset

theorem SliceAt.front {before rest chars : List Char}
    (h : SliceAt (before ++ rest) (byteSize before) chars) : ∃ after, rest = chars ++ after := by
  obtain ⟨before', after, heq, hsize⟩ := h
  exact ⟨after, (eq_of_byteSize_eq heq hsize.symm).2⟩

/-! ## One step of a scan -/

/-- A scan takes the longest token in front, or passes over a character with which none starts. -/
inductive Takes (source rest : List Char) : Prop
  | token {token : Token} {spelling : List Char} :
    token.Spelled spelling → Longest spelling source → source = spelling ++ rest → Takes source rest
  | skip {c : Char} : Startless c → source = c :: rest → Takes source rest

section Step

variable {c : Char} {cs rest : List Char}

theorem takes_of_first? {piece : Piece} (h : Piece.first? c cs = some (piece, rest)) :
    Takes (c :: cs) rest := by
  have hfront := Piece.first?_lossless h
  cases piece with
  | token value spelling =>
      obtain ⟨hspelled, hlongest⟩ := Piece.longest_of_first? h
      exact .token hspelled hlongest hfront.symm
  | skipped d =>
      obtain ⟨rfl, hstartless⟩ := Piece.startless_of_first? h
      exact .skip hstartless hfront.symm

/-- A character with which a token does start. -/
theorem Token.Spelled.not_startless {token : Token} {spelling : List Char}
    (h : token.Spelled spelling) (heq : c :: cs = spelling ++ rest) : ¬ Startless c := by
  obtain ⟨d, more, rfl, -⟩ := h.ofFirst?
  obtain ⟨rfl, -⟩ := List.cons.inj heq
  exact fun hstartless => hstartless _ more h

/-- No token stands in front of a source that starts with a quote without a partner. -/
theorem Unmatched.not_spelled (h : Unmatched c cs) {token : Token} {spelling : List Char}
    (hspelled : token.Spelled spelling) : c :: cs ≠ spelling ++ rest := by
  intro heq
  have hkind := hspelled.ofFirst?_of_eq heq
  rw [TokenKind.ofFirst?_quote h.1] at hkind
  have hallows := hspelled.allows
  rw [← Option.some.inj hkind] at hallows
  obtain ⟨quote, content, -, rfl⟩ := hallows
  obtain ⟨rfl, rfl⟩ : c = quote ∧ cs = content ++ quote :: rest := by simpa using heq
  exact h.2 (by simp)

/-- A scan can go on in one way only. -/
theorem Takes.unique {source rest' : List Char} (h : Takes source rest) (h' : Takes source rest') :
    rest = rest' := by
  cases h with
  | token hspelled hlongest heq =>
      cases h' with
      | token hspelled' hlongest' heq' =>
          have hle := hlongest.length_le _ _ _ hspelled' heq'
          have hle' := hlongest'.length_le _ _ _ hspelled heq
          exact (List.append_inj (heq.symm.trans heq') (Nat.le_antisymm hle' hle)).2
      | skip hstartless heq' =>
          rw [heq'] at heq
          exact absurd hstartless (hspelled.not_startless heq)
  | skip hstartless heq =>
      cases h' with
      | token hspelled _ heq' =>
          rw [heq] at heq'
          exact absurd hstartless (hspelled.not_startless heq')
      | skip _ heq' => exact (List.cons.inj (heq.symm.trans heq')).2

/-- A scan is stuck at a quote without a partner. -/
theorem Unmatched.not_takes (h : Unmatched c cs) : ¬ Takes (c :: cs) rest := by
  intro hstep
  cases hstep with
  | token hspelled _ heq => exact h.not_spelled hspelled heq
  | skip hstartless heq =>
      obtain ⟨rfl, -⟩ := List.cons.inj heq
      exact hstartless _ _ (.text h.1 List.not_mem_nil)

/-- The cutting of a source takes the steps of a scan. -/
theorem exists_first?_of_takes (h : Takes (c :: cs) rest) :
    ∃ piece, Piece.first? c cs = some (piece, rest) := by
  cases hfirst : Piece.first? c cs with
  | none => exact absurd h (Piece.first?_eq_none_iff.mp hfirst).not_takes
  | some found =>
      obtain ⟨piece, rest'⟩ := found
      obtain rfl := h.unique (takes_of_first? hfirst)
      exact ⟨piece, rfl⟩

end Step

/-! ## A whole scan -/

theorem takes_uncut (cs : List Char) : Relation.ReflTransGen Takes cs (Piece.cut cs).2 := by
  fun_induction Piece.cut cs with
  | case1 => exact .refl
  | case2 => exact .refl
  | case3 c cs piece rest hfirst tail ih => exact .head (takes_of_first? hfirst) ih

/-- Cutting stops at the end, or at a quote without a partner. -/
theorem unmatched_of_uncut {cs after : List Char} {c : Char} (h : (Piece.cut cs).2 = c :: after) :
    Unmatched c after := by
  fun_induction Piece.cut cs with
  | case1 => contradiction
  | case2 d cs hfirst =>
      obtain ⟨rfl, rfl⟩ := List.cons.inj h
      exact Piece.first?_eq_none_iff.mp hfirst
  | case3 d cs piece rest hfirst tail ih => exact ih h

theorem uncut_of_unmatched {c : Char} {after : List Char} (h : Unmatched c after) :
    (Piece.cut (c :: after)).2 = c :: after := by
  rw [Piece.cut]
  split
  · rfl
  · next hfirst =>
      rw [Piece.first?_eq_none_iff.mpr h] at hfirst
      contradiction

/-- What a scan comes to is left uncut like the whole source. -/
theorem uncut_of_takes {source rest : List Char} (h : Relation.ReflTransGen Takes source rest) :
    (Piece.cut source).2 = (Piece.cut rest).2 := by
  induction h with
  | refl => rfl
  | @tail rest rest' _ hstep ih =>
      rw [ih]
      cases rest with
      -- at the end of a source there are no more steps
      | nil =>
          cases hstep with
          | token hspelled _ heq =>
              exact absurd (List.append_eq_nil_iff.mp heq.symm).1 hspelled.ne_nil
          | skip _ heq => contradiction
      | cons c rest =>
          obtain ⟨piece, hfirst⟩ := exists_first?_of_takes hstep
          rw [Piece.cut_of_first? hfirst]

/-- Scanning fails exactly at the quote without a partner that a scan comes to. -/
theorem Lexeme.scan_eq_error_iff (source : String) (error : SyntaxError) :
    scan source = .error error ↔ ∃ before quote after, source.toList = before ++ quote :: after ∧
      Unmatched quote after ∧ Relation.ReflTransGen Takes source.toList (quote :: after) ∧
      error = .unterminatedString (byteSize before) := by
  have hcut := Piece.cut_lossless source.toList
  unfold scan
  dsimp only
  constructor
  · intro h
    split at h
    · contradiction
    · next hne =>
        obtain ⟨quote, after, huncut⟩ := List.exists_cons_of_ne_nil hne
        have hreaches := takes_uncut source.toList
        rw [huncut] at hcut hreaches
        exact ⟨_, quote, after, hcut.symm, unmatched_of_uncut huncut, hreaches,
          (Except.error.inj h).symm⟩
  · rintro ⟨before, quote, after, hsource, hunmatched, hreaches, rfl⟩
    have huncut := (uncut_of_takes hreaches).trans (uncut_of_unmatched hunmatched)
    rw [huncut] at hcut ⊢
    have hbefore := List.append_cancel_right (hcut.trans hsource)
    rw [if_neg (List.cons_ne_nil quote after), hbefore]

/-! ## Slices -/

/-- A token of a source and the characters that write it there. -/
structure Slice where
  lexeme : Lexeme
  chars : List Char

namespace Slice

/-- The offset behind the slice. -/
def stop (slice : Slice) : Nat := slice.lexeme.position + byteSize slice.chars

/-- The slices of the pieces that are tokens, when the first piece starts at `position`. -/
def ofPieces (position : Nat) : List Piece → List Slice
  | [] => []
  | piece :: pieces =>
    (piece.token?.toList.map fun value => ⟨⟨value, position⟩, piece.chars⟩) ++
      ofPieces (position + byteSize piece.chars) pieces

theorem map_lexeme_ofPieces (position : Nat) (pieces : List Piece) :
    (ofPieces position pieces).map lexeme = Lexeme.place position pieces := by
  induction pieces generalizing position with
  | nil => rfl
  | cons piece pieces ih =>
      rw [ofPieces, List.map_append, ih]
      cases piece with
      | token value spelling => rfl
      | skipped c =>
          rw [Lexeme.place, Piece.chars, byteSize_cons]
          rfl

theorem position_le_of_mem {position : Nat} {pieces : List Piece} {slice : Slice}
    (h : slice ∈ ofPieces position pieces) : position ≤ slice.lexeme.position := by
  induction pieces generalizing position with
  | nil => simp [ofPieces] at h
  | cons piece pieces ih =>
      rcases List.mem_append.mp h with hhead | htail
      · obtain ⟨value, -, rfl⟩ := List.mem_map.mp hhead
        exact Nat.le_refl _
      · exact Nat.le_trans (Nat.le_add_right _ _) (ih htail)

/-- Each slice ends before the next one starts. -/
theorem pairwise_ofPieces (position : Nat) (pieces : List Piece) :
    (ofPieces position pieces).Pairwise fun first second =>
      first.stop ≤ second.lexeme.position := by
  induction pieces generalizing position with
  | nil => exact .nil
  | cons piece pieces ih =>
      rw [ofPieces, List.pairwise_append]
      refine ⟨?_, ih _, ?_⟩
      · cases piece with
        | token value spelling => exact List.pairwise_singleton _ _
        | skipped c => exact .nil
      · intro first hfirst second hsecond
        obtain ⟨value, -, rfl⟩ := List.mem_map.mp hfirst
        exact position_le_of_mem hsecond

/-- Every slice of a source that is cut from some place on is a token there, and the longest. -/
theorem longest_of_mem (cs : List Char) : ∀ before : List Char,
    ∀ slice ∈ ofPieces (byteSize before) (Piece.cut cs).1,
      ∃ front after, before ++ cs = front ++ (slice.chars ++ after) ∧
        byteSize front = slice.lexeme.position ∧ slice.lexeme.token.Spelled slice.chars ∧
        Longest slice.chars (slice.chars ++ after) := by
  fun_induction Piece.cut cs with
  | case1 => simp [ofPieces]
  | case2 => simp [ofPieces]
  | case3 c cs piece rest hfirst tail ih =>
      intro before slice hmem
      have hfront := Piece.first?_lossless hfirst
      rcases List.mem_append.mp hmem with hhead | htail
      · cases piece with
        | token value spelling =>
            obtain ⟨hspelled, hlongest⟩ := Piece.longest_of_first? hfirst
            obtain rfl := List.mem_singleton.mp hhead
            -- the first piece is the token itself, and what is in front of it is `before`
            rw [← hfront] at hlongest ⊢
            exact ⟨before, rest, rfl, rfl, hspelled, hlongest⟩
        | skipped d => contradiction
      · rw [← byteSize_append] at htail
        -- for a later slice the first piece belongs to what is in front
        obtain ⟨front, after, heq, hrest⟩ := ih _ slice htail
        rw [List.append_assoc, hfront] at heq
        exact ⟨front, after, heq, hrest⟩

/-- The slice contains the byte at an offset. -/
def Covers (slice : Slice) (offset : Nat) : Prop :=
  slice.lexeme.position ≤ offset ∧ offset < slice.stop

/-- A character stands among the first ones, or behind them. -/
theorem mem_or_behind {chars rest before after : List Char} {c : Char}
    (h : chars ++ rest = before ++ c :: after) :
    (∃ more, chars = before ++ c :: more) ∨
    ∃ before', before = chars ++ before' ∧ rest = before' ++ c :: after := by
  rcases List.append_eq_append_iff.mp h with ⟨before', hbefore, hrest⟩ | ⟨inside, hchars, hafter⟩
  · exact Or.inr ⟨before', hbefore, hrest⟩
  · cases inside with
    | nil => exact Or.inr ⟨[], by simpa using hchars.symm, by simpa using hafter.symm⟩
    | cons d more =>
        obtain ⟨rfl, -⟩ := List.cons.inj hafter
        exact Or.inl ⟨more, hchars⟩

/-- A character of a source that is cut up to its end is part of a slice, or starts no token. -/
theorem startless_or_covers (cs : List Char) : (Piece.cut cs).2 = [] →
    ∀ position before c after, cs = before ++ c :: after →
      Startless c ∨ ∃ slice ∈ ofPieces position (Piece.cut cs).1,
        slice.Covers (position + byteSize before) := by
  fun_induction Piece.cut cs with
  | case1 => simp
  | case2 => simp
  | case3 d cs piece rest hfirst tail ih =>
      intro hcut position before c after h
      have hfront := Piece.first?_lossless hfirst
      rw [h] at hfront
      rcases mem_or_behind hfront with ⟨more, hchars⟩ | ⟨before', rfl, hrest⟩
      · cases piece with
        | token value spelling =>
            -- inside the first piece, which is a token and covers it
            refine Or.inr ⟨⟨⟨value, position⟩, spelling⟩, List.mem_cons_self, ?_, ?_⟩
            · exact Nat.le_add_right _ _
            · have hpos := byteSize_pos (List.cons_ne_nil c more)
              have hsize : byteSize spelling = byteSize before + byteSize (c :: more) := by
                rw [← byteSize_append]
                exact congrArg byteSize hchars
              show position + byteSize before < position + byteSize spelling
              omega
        | skipped other =>
            -- inside the first piece, which is this one skipped character
            obtain ⟨rfl, hstartless⟩ := Piece.startless_of_first? hfirst
            obtain rfl : other = c := by
              have hmem : c ∈ [other] := by
                rw [show [other] = before ++ c :: more from hchars]
                simp
              exact (List.mem_singleton.mp hmem).symm
            exact Or.inl hstartless
      · -- behind the first piece
        rcases ih hcut (position + byteSize piece.chars) before' c after hrest with
          hstartless | ⟨slice, hmem, hcovers⟩
        · exact Or.inl hstartless
        · rw [Nat.add_assoc, ← byteSize_append] at hcovers
          exact Or.inr ⟨slice, List.mem_append_right _ hmem, hcovers⟩

end Slice

/-! ## The slices of a source -/

/-- The slices are the tokens of the source, each as long as it can be, and all that is not in them
is of no use for a token. -/
structure Munched (source : List Char) (slices : List Slice) : Prop where
  spelled : ∀ slice ∈ slices, slice.lexeme.token.Spelled slice.chars
  sliced : ∀ slice ∈ slices, SliceAt source slice.lexeme.position slice.chars
  increasing : (slices.map (·.lexeme.position)).Pairwise (· < ·)
  apart : slices.Pairwise fun first second => first.stop ≤ second.lexeme.position
  covered : ∀ before c after, source = before ++ c :: after →
    Startless c ∨ ∃ slice ∈ slices, slice.Covers (byteSize before)
  /-- No longer token stands at the same offset. -/
  longest : ∀ slice ∈ slices, ∀ token longer, Token.Spelled token longer →
    SliceAt source slice.lexeme.position longer → longer.length ≤ slice.chars.length
  /-- No word goes on behind its slice. -/
  wordEnd : ∀ slice ∈ slices, slice.lexeme.token.kind = .word →
    ∀ c, SliceAt source slice.lexeme.position (slice.chars ++ [c]) → Text.isNameRest c = false
  reserved : ∀ slice ∈ slices, slice.lexeme.token.kind = .word →
    (((∃ word, slice.lexeme.token = .keyword word) ∨
        ∃ value, slice.lexeme.token = .truth value) ↔
      ∃ token, (String.ofList slice.chars, token) ∈ reservedWords)
  contents : ∀ slice ∈ slices, ∀ value, slice.lexeme.token = .text value →
    ∃ quote, (quote = '"' ∨ quote = '\'') ∧ slice.chars = quote :: value.toList ++ [quote]

/-- One more letter, digit or hyphen would make a word longer. -/
theorem isNameRest_eq_false {source cs : List Char} {position : Nat} {c : Char}
    (hlongest : ∀ token longer, Token.Spelled token longer → SliceAt source position longer →
      longer.length ≤ cs.length)
    (hname : Text.isName cs = true) (hslice : SliceAt source position (cs ++ [c])) :
    Text.isNameRest c = false := by
  rw [← Bool.not_eq_true]
  intro hrest
  have hle := hlongest _ _ (Token.spelled_ofWord (isName_append hname hrest)) hslice
  rw [List.length_append, List.length_singleton] at hle
  omega

theorem Slice.position_lt_stop {slice : Slice}
    (h : slice.lexeme.token.Spelled slice.chars) : slice.lexeme.position < slice.stop :=
  Nat.lt_add_of_pos_right (byteSize_pos h.ne_nil)

/-- A source that is cut up to its end has its slices. -/
theorem Slice.munched {source : List Char} (hcut : (Piece.cut source).2 = []) :
    Munched source (ofPieces 0 (Piece.cut source).1) := by
  have hspec := longest_of_mem source []
  have hspelled : ∀ slice ∈ ofPieces 0 (Piece.cut source).1,
      slice.lexeme.token.Spelled slice.chars := by
    intro slice hmem
    obtain ⟨_, _, -, -, hspelled, -⟩ := hspec slice hmem
    exact hspelled
  -- what is spelled at the offset of a slice is spelled in front of the same rest
  have hlongest : ∀ slice ∈ ofPieces 0 (Piece.cut source).1, ∀ token longer,
      Token.Spelled token longer → SliceAt source slice.lexeme.position longer →
      longer.length ≤ slice.chars.length := by
    intro slice hmem token longer htoken hslice
    obtain ⟨front, after, heq, hposition, -, hlongest⟩ := hspec slice hmem
    rw [List.nil_append] at heq
    rw [heq, ← hposition] at hslice
    obtain ⟨after', hafter⟩ := hslice.front
    exact hlongest.length_le token longer after' htoken hafter
  have hapart := pairwise_ofPieces 0 (Piece.cut source).1
  refine ⟨hspelled, ?_, ?_, hapart, ?_, hlongest, ?_, ?_, ?_⟩
  · intro slice hmem
    obtain ⟨front, after, heq, hposition, -⟩ := hspec slice hmem
    exact ⟨front, after, heq, hposition⟩
  · rw [List.pairwise_map]
    refine hapart.imp_of_mem fun hfirst _ hle => ?_
    exact Nat.lt_of_lt_of_le (position_lt_stop (hspelled _ hfirst)) hle
  · intro before c after h
    have hcovers := startless_or_covers source hcut 0 before c after h
    rwa [Nat.zero_add] at hcovers
  · intro slice hmem hword c hslice
    have hname := (hspelled slice hmem).allows
    rw [hword] at hname
    exact isNameRest_eq_false (hlongest slice hmem) hname hslice
  · intro slice hmem hword
    exact (hspelled slice hmem).reserved_iff hword
  · intro slice hmem value htoken
    have htext := hspelled slice hmem
    rw [htoken] at htext
    exact htext.of_text

/-- **Scanning takes the longest tokens and loses nothing.**  It fails exactly at a quote without a
partner that a scan comes to; otherwise its tokens are those of the slices of the source. -/
theorem Lexeme.scan_munch (source : String) :
    (∀ error, scan source = .error error ↔
      ∃ before quote after, source.toList = before ++ quote :: after ∧ Unmatched quote after ∧
        Relation.ReflTransGen Takes source.toList (quote :: after) ∧
        error = .unterminatedString (byteSize before)) ∧
    ∀ lexemes, scan source = .ok lexemes →
      ∃ slices, slices.map Slice.lexeme = lexemes ∧ Munched source.toList slices := by
  refine ⟨scan_eq_error_iff source, ?_⟩
  intro lexemes h
  unfold scan at h
  dsimp only at h
  split at h
  · next hcut =>
      obtain rfl := Except.ok.inj h
      exact ⟨_, Slice.map_lexeme_ofPieces 0 _, Slice.munched hcut⟩
  · contradiction

/-- A name with a hyphen, a text with the other quote in it, a character that is no token, and the
word `and` in front of a numeral. -/
def mixedSource : String := "a-b==\"it's\" # and 1.5"

def mixedLexemes : List Lexeme :=
  [⟨.name "a-b", 0⟩, ⟨.symbol .equal, 3⟩, ⟨.text "it's", 5⟩, ⟨.keyword .and, 14⟩,
    ⟨.number (.ofNumeral ['1'] ['5']), 18⟩]

/-- The source `x "it's` ends inside a text. -/
theorem Lexeme.scan_munch_mixed :
    scan mixedSource = .ok mixedLexemes ∧
    (∃ slices, slices.map Slice.lexeme = mixedLexemes ∧ Munched mixedSource.toList slices) ∧
    scan "x \"it's" = .error (.unterminatedString 2) ∧
    ∃ before quote after, "x \"it's".toList = before ++ quote :: after ∧ Unmatched quote after ∧
      Relation.ReflTransGen Takes "x \"it's".toList (quote :: after) ∧
      SyntaxError.unterminatedString 2 = .unterminatedString (byteSize before) := by
  have hseen : (scan mixedSource).toOption.map id = some mixedLexemes := by decide +kernel
  obtain ⟨lexemes, hscan, rfl⟩ := exists_of_toOption_map hseen
  have hfails : scan "x \"it's" = .error (.unterminatedString 2) :=
    eq_error_of_seen (by decide +kernel)
  exact ⟨hscan, (scan_munch mixedSource).2 _ hscan, hfails, ((scan_munch _).1 _).mp hfails⟩

end SurveyLogic
