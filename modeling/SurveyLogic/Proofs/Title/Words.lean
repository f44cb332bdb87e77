import SurveyLogic.Proofs.Scanning.Seam
import SurveyLogic.Proofs.Title.Paths

/-!
# Paths as tokens

What may stand in a placeholder is decided by taking a text apart at its dots.  Scanning the same
text goes from left to right, knows numerals and symbols, and passes over characters that start no
token.  Both accept the same texts: a text is a path exactly if it is scanned into words with dots
between them and nothing outside of them (`Dotted`), and then its words are the tokens of its
segments.

A word need not be a name.  A path with a reserved word among its segments is a placeholder all the
same, while scanning finds a keyword or a truth value in it.  `path_iff_words` says which paths are
made of names only.
-/

namespace SurveyLogic

/-- The source is scanned into the words with dots between them, and nothing in it is outside of
these tokens. -/
structure Dotted (source : String) (words : List Token) : Prop where
  ne_nil : words ≠ []
  scanned : ∃ lexemes, Lexeme.scan source = .ok lexemes ∧
    lexemes.map (·.token) = words.intersperse (.symbol .dot)
  covered : ∀ c, .skipped c ∉ (Piece.cut source.toList).1

/-! ## Texts that are nothing but tokens -/

/-- All pieces of the text are tokens, and these are they. -/
def Whole (cs : List Char) (tokens : List Token) : Prop :=
  (Piece.cut cs).2 = [] ∧ (Piece.cut cs).1.map Piece.token? = tokens.map some

theorem whole_nil : Whole [] [] := by
  unfold Whole
  rw [Piece.cut]
  exact ⟨rfl, rfl⟩

theorem Whole.cons {c : Char} {cs rest spelling : List Char} {token : Token} {tokens : List Token}
    (h : Whole rest tokens) (hfirst : Piece.first? c cs = some (.token token spelling, rest)) :
    Whole (c :: cs) (token :: tokens) := by
  obtain ⟨huncut, htokens⟩ := h
  unfold Whole
  rw [Piece.cut_of_first? hfirst]
  exact ⟨huncut, congrArg (some token :: ·) htokens⟩

theorem Whole.eq_nil {cs : List Char} (h : Whole cs []) : cs = [] := by
  obtain ⟨huncut, htokens⟩ := h
  have hlossless := Piece.cut_lossless cs
  rw [List.map_eq_nil_iff.mp htokens, huncut] at hlossless
  exact hlossless.symm

/-- The first token stands in front, and the rest is nothing but the other tokens. -/
theorem Whole.uncons {cs : List Char} {token : Token} {tokens : List Token}
    (h : Whole cs (token :: tokens)) :
    ∃ spelling rest, cs = spelling ++ rest ∧ token.Spelled spelling ∧ Whole rest tokens := by
  obtain ⟨huncut, htokens⟩ := h
  cases cs with
  | nil => simp [Piece.cut] at htokens
  | cons c cs =>
      rcases hfirst : Piece.first? c cs with _ | ⟨piece, rest⟩
      · rw [Piece.cut] at htokens
        split at htokens
        · simp at htokens
        · next hother =>
            rw [hfirst] at hother
            contradiction
      · rw [Piece.cut_of_first? hfirst] at huncut htokens
        obtain ⟨htoken, hrest⟩ := List.cons.inj htokens
        cases piece with
        | skipped _ => contradiction
        | token value spelling =>
            obtain rfl : value = token := Option.some.inj htoken
            exact ⟨spelling, rest, (Piece.first?_lossless hfirst).symm,
              (Piece.longest_of_first? hfirst).1, huncut, hrest⟩

/-- Without skipped characters, every piece is the token that is read from it. -/
theorem Piece.map_token?_iff {pieces : List Piece} {tokens : List Token} :
    pieces.map Piece.token? = tokens.map some ↔
      pieces.filterMap Piece.token? = tokens ∧ ∀ c, .skipped c ∉ pieces := by
  induction pieces generalizing tokens with
  | nil => cases tokens <;> simp
  | cons piece pieces ih =>
      cases piece with
      | skipped c =>
          have hne : (Piece.skipped c :: pieces).map Piece.token? ≠ tokens.map some := by
            cases tokens <;> simp [Piece.token?]
          have hmem : ¬ ∀ d, Piece.skipped d ∉ Piece.skipped c :: pieces :=
            fun h => h c List.mem_cons_self
          exact iff_of_false hne fun h => hmem h.2
      | token value spelling =>
          cases tokens with
          | nil => simp [Piece.token?]
          | cons token tokens => simp [Piece.token?, ih, and_assoc]

theorem dotted_iff_whole {source : String} {words : List Token} :
    Dotted source words ↔
      words ≠ [] ∧ Whole source.toList (words.intersperse (.symbol .dot)) := by
  constructor
  · rintro ⟨hne, ⟨lexemes, hscan, htokens⟩, hcovered⟩
    obtain ⟨hcut, hpieces⟩ := Lexeme.scanned_of_scan hscan
    exact ⟨hne, hcut, Piece.map_token?_iff.mpr ⟨hpieces.trans htokens, hcovered⟩⟩
  · rintro ⟨hne, hcut, hpieces⟩
    obtain ⟨htokens, hcovered⟩ := Piece.map_token?_iff.mp hpieces
    have hscanned : Scanned source.toList (words.intersperse (.symbol .dot)) := ⟨hcut, htokens⟩
    exact ⟨hne, hscanned.scan, hcovered⟩

/-! ## From the dots to the tokens -/

theorem Token.kind_ofWord (word : String) : (ofWord word).kind = .word := by
  by_cases hreserved : ∃ token, (word, token) ∈ reservedWords
  · obtain ⟨token, hmem⟩ := hreserved
    rw [ofWord_of_reserved hmem]
    exact kind_of_reserved hmem
  · rw [ofWord_of_not_reserved fun token hmem => hreserved ⟨token, hmem⟩]
    rfl

/-- A dot ends every word, and no token goes on behind it. -/
theorem whole_of_names {word : String} {others : List String}
    (h : ∀ name ∈ word :: others, Text.isName name.toList = true) :
    Whole (word.toList ++ others.flatMap ('.' :: ·.toList))
      (((word :: others).map .ofWord).intersperse (.symbol .dot)) := by
  induction others generalizing word with
  | nil =>
      rw [List.forall_mem_singleton] at h
      have hend : ∀ d ∈ ([] : List Char).head?, Text.isNameRest d = false := by simp
      obtain ⟨c, cs, hchars, hfirst⟩ := Piece.first?_word h hend
      rw [hchars]
      exact whole_nil.cons hfirst
  | cons next others ih =>
      rw [List.forall_mem_cons] at h
      have hdot : Piece.first? '.' (next.toList ++ others.flatMap ('.' :: ·.toList)) =
          some (.token (.symbol .dot) ['.'], next.toList ++ others.flatMap ('.' :: ·.toList)) :=
        Piece.first?_symbol rfl fun d _ => rfl
      have hend : ∀ d ∈ ((next :: others).flatMap ('.' :: ·.toList)).head?,
          Text.isNameRest d = false := Text.forall_mem_head?_cons (by decide) _
      obtain ⟨c, cs, hchars, hfirst⟩ := Piece.first?_word h.1 hend
      rw [hchars]
      exact ((ih h.2).cons hdot).cons hfirst

/-! ## From the tokens to the dots -/

/-- A word is read from its characters alone. -/
theorem Token.Spelled.eq_ofWord {token : Token} {cs : List Char} (h : token.Spelled cs)
    (hword : token.kind = .word) : token = .ofWord (String.ofList cs) := by
  cases h with
  | numeral | text | symbol => contradiction
  | reserved hmem => rw [String.ofList_toList, ofWord_of_reserved hmem]
  | name _ hnone => rw [String.ofList_toList, ofWord_of_not_reserved hnone]

theorem Text.splitAtDots_append {cs : List Char} (hdot : '.' ∉ cs) (rest : List Char) :
    splitAtDots (cs ++ '.' :: rest) = cs :: splitAtDots rest := by
  induction cs with
  | nil => rw [List.nil_append, splitAtDots, if_pos rfl]
  | cons c cs ih =>
      rw [List.mem_cons, not_or] at hdot
      rw [List.cons_append, splitAtDots, if_neg (Ne.symm hdot.1), ih hdot.2]

theorem not_dot_mem_of_isName {cs : List Char} (h : Text.isName cs = true) : '.' ∉ cs :=
  fun hmem => absurd (isNameRest_of_isName h '.' hmem) (by decide)

theorem Token.Spelled.eq_dot {cs : List Char} (h : (Token.symbol .dot).Spelled cs) :
    cs = ['.'] := by
  cases h with
  | reserved hmem => exact absurd (kind_of_reserved hmem) (by decide)
  | symbol => rfl

/-- Words with dots between them are read off the pieces between the dots. -/
theorem Whole.splitAtDots {words : List Token} (hne : words ≠ [])
    (hwords : ∀ token ∈ words, token.kind = .word) {cs : List Char}
    (h : Whole cs (words.intersperse (.symbol .dot))) :
    (∀ piece ∈ Text.splitAtDots cs, Text.isName piece = true) ∧
      words = (Text.splitAtDots cs).map fun piece => .ofWord (String.ofList piece) := by
  induction words generalizing cs with
  | nil => contradiction
  | cons token words ih =>
      rw [List.forall_mem_cons] at hwords
      cases words with
      | nil =>
          obtain ⟨spelling, rest, rfl, hspelled, hrest⟩ := h.uncons
          obtain rfl := hrest.eq_nil
          have hname : Text.isName spelling = true := by
            have hallows := hspelled.allows
            rwa [hwords.1] at hallows
          rw [List.append_nil, Text.splitAtDots_of_not_mem (not_dot_mem_of_isName hname)]
          exact ⟨List.forall_mem_singleton.mpr hname,
            congrArg (· :: []) (hspelled.eq_ofWord hwords.1)⟩
      | cons next words =>
          -- a word has no dot in it, so the first dot of the text is the one behind the first word
          obtain ⟨spelling, _, rfl, hspelled, hbehind⟩ := h.uncons
          obtain ⟨dot, rest, rfl, hdot, hrest⟩ := hbehind.uncons
          obtain rfl := hdot.eq_dot
          have hname : Text.isName spelling = true := by
            have hallows := hspelled.allows
            rwa [hwords.1] at hallows
          obtain ⟨hnames, hothers⟩ := ih (List.cons_ne_nil _ _) hwords.2 hrest
          have hsplit : Text.splitAtDots (spelling ++ (['.'] ++ rest)) =
              spelling :: Text.splitAtDots rest :=
            Text.splitAtDots_append (not_dot_mem_of_isName hname) rest
          rw [hsplit]
          refine ⟨List.forall_mem_cons.mpr ⟨hname, hnames⟩, ?_⟩
          rw [List.map_cons, ← hothers, ← hspelled.eq_ofWord hwords.1]

/-! ## Paths and their words -/

/-- The words of a path are the tokens of its segments. -/
theorem dotted_words_iff (source : String) (words : List Token) :
    (Dotted source words ∧ ∀ token ∈ words, token.kind = .word) ↔
      Text.isPath source.toList = true ∧ words = (Text.segments source).map .ofWord := by
  rw [dotted_iff_whole]
  constructor
  · rintro ⟨⟨hne, hwhole⟩, hwords⟩
    obtain ⟨hnames, heq⟩ := hwhole.splitAtDots hne hwords
    refine ⟨List.all_eq_true.mpr hnames, ?_⟩
    rw [heq, Text.segments, List.map_map]
    rfl
  · rintro ⟨hpath, rfl⟩
    obtain ⟨rest, hsegments⟩ := Text.segments_eq_cons source
    have hnames : ∀ name ∈ Text.root source :: rest, Text.isName name.toList = true := by
      rw [← hsegments]
      exact fun name hname => Text.isName_of_mem_segments hpath hname
    rw [Text.toList_of_segments hsegments, hsegments]
    refine ⟨⟨List.cons_ne_nil _ _, whole_of_names hnames⟩, ?_⟩
    intro token htoken
    obtain ⟨word, -, rfl⟩ := List.mem_map.mp htoken
    exact Token.kind_ofWord word

/-- A word is a name unless it is reserved. -/
theorem Token.exists_ofWord_eq_name {word : String} :
    (∃ name, ofWord word = .name name) ↔ ∀ token, (word, token) ∉ reservedWords := by
  constructor
  · rintro ⟨name, hname⟩ token hmem
    have hall : ∀ entry ∈ reservedWords, ∀ name, entry.2 ≠ .name name := by simp [reservedWords]
    rw [ofWord_of_reserved hmem] at hname
    exact hall _ hmem name hname
  · intro hnone
    exact ⟨word, ofWord_of_not_reserved hnone⟩

/-- **A path is a sequence of words, and of names if none is reserved.**  A text may stand in a
placeholder exactly if it is scanned into words with dots between them and nothing else is in it;
the words are then the tokens of its segments.  It is scanned into names with dots between them
exactly if, besides, none of its segments is a reserved word. -/
theorem path_iff_words (source : String) :
    (Text.isPath source.toList = true ↔
      ∃ words, Dotted source words ∧ ∀ token ∈ words, token.kind = .word) ∧
    (∀ words, Dotted source words → (∀ token ∈ words, token.kind = .word) →
      words = (Text.segments source).map .ofWord) ∧
    ((∃ names : List String, Dotted source (names.map .name)) ↔
      Text.isPath source.toList = true ∧
        ∀ word ∈ Text.segments source, ∀ token, (word, token) ∉ reservedWords) := by
  refine ⟨?_, ?_, ?_, ?_⟩
  · simp only [dotted_words_iff, exists_and_left, exists_eq, and_true]
  · intro words hdotted hwords
    exact ((dotted_words_iff source words).mp ⟨hdotted, hwords⟩).2
  · rintro ⟨names, hdotted⟩
    have hwords : ∀ token ∈ names.map Token.name, token.kind = .word := by simp [Token.kind]
    obtain ⟨hpath, heq⟩ := (dotted_words_iff source _).mp ⟨hdotted, hwords⟩
    refine ⟨hpath, fun word hword => Token.exists_ofWord_eq_name.mp ?_⟩
    have hmem : Token.ofWord word ∈ names.map Token.name := by
      rw [heq]
      exact List.mem_map_of_mem hword
    obtain ⟨name, -, hname⟩ := List.mem_map.mp hmem
    exact ⟨name, hname.symm⟩
  · rintro ⟨hpath, hreserved⟩
    refine ⟨Text.segments source, ?_⟩
    have heq : (Text.segments source).map Token.name = (Text.segments source).map .ofWord := by
      refine List.map_congr_left fun word hword => ?_
      exact (Token.ofWord_of_not_reserved (hreserved word hword)).symm
    exact ((dotted_words_iff source _).mpr ⟨hpath, heq⟩).1

/-- The word `is` may stand in a placeholder, and conditions have no such name. -/
theorem path_iff_words_is :
    Text.isPath "is".toList = true ∧ ¬ ∃ names : List String, Dotted "is" (names.map .name) := by
  refine ⟨by decide, fun hnames => ?_⟩
  have hreserved := ((path_iff_words "is").2.2.mp hnames).2
  exact hreserved "is" (by decide) (.keyword .is) (by decide)

end SurveyLogic
