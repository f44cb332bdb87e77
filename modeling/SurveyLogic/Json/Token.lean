import SurveyLogic.Text.Name

/-!
# Tokens of JSON

A JSON text as a list of tokens, blanks left out.  Texts and numbers are read by the grammar of the
standard: control characters have to be escaped, a number has no leading zeros, and digits follow a
point.
-/

namespace SurveyLogic

namespace Json

inductive Token
  | openBracket | closeBracket | openBrace | closeBrace | comma | colon
  | null
  | truth (value : Bool)
  | number (literal : String)
  | text (content : Option String)
deriving DecidableEq

namespace Token

/-! ## Texts -/

def hexValue? (c : Char) : Option Nat :=
  if '0' ≤ c ∧ c ≤ '9' then some (c.toNat - 48)
  else if 'a' ≤ c ∧ c ≤ 'f' then some (c.toNat - 87)
  else if 'A' ≤ c ∧ c ≤ 'F' then some (c.toNat - 55)
  else none

/-- The number written by four hexadecimal digits. -/
def hexUnit? (a b c d : Char) : Option Nat := do
  return (((← hexValue? a) * 16 + (← hexValue? b)) * 16 + (← hexValue? c)) * 16 + (← hexValue? d)

/-- The character that a backslash and one character stand for. -/
def unescape? (c : Char) : Option Char :=
  match c with
  | '"' => some '"'
  | '\\' => some '\\'
  | '/' => some '/'
  | 'b' => some '\x08'
  | 'f' => some '\x0c'
  | 'n' => some '\n'
  | 'r' => some '\r'
  | 't' => some '\t'
  | _ => none

/-- The units of a text up to its closing quote, and what follows the quote.  A unit is the code of
a character, or half of a surrogate pair that an escape names. -/
def units? : List Char → Option (List Nat × List Char)
  | [] => none
  | '"' :: rest => some ([], rest)
  | '\\' :: 'u' :: a :: b :: c :: d :: rest => do
    let unit ← hexUnit? a b c d
    let (units, rest) ← units? rest
    return (unit :: units, rest)
  | '\\' :: c :: rest => do
    let unescaped ← unescape? c
    let (units, rest) ← units? rest
    return (unescaped.toNat :: units, rest)
  | c :: rest =>
    if c = '\\' ∨ c.toNat < 0x20 then none
    else do
      let (units, rest) ← units? rest
      return (c.toNat :: units, rest)

/-- The characters of some units: the two halves of a surrogate pair make one.  Half a pair alone
makes none. -/
def chars? : List Nat → Option (List Char)
  | [] => some []
  | unit :: units =>
    if 0xDC00 ≤ unit ∧ unit < 0xE000 then none
    else if 0xD800 ≤ unit ∧ unit < 0xDC00 then
      match units with
      | low :: units =>
        if 0xDC00 ≤ low ∧ low < 0xE000 then
          (chars? units).map
            (Char.ofNat (0x10000 + (unit - 0xD800) * 0x400 + (low - 0xDC00)) :: ·)
        else none
      | [] => none
    else (chars? units).map (Char.ofNat unit :: ·)

theorem length_lt_of_units? {cs rest : List Char} {units : List Nat}
    (h : units? cs = some (units, rest)) : rest.length < cs.length := by
  fun_induction units? cs generalizing units rest with
  | case1 => simp at h
  | case2 => simp_all
  | case3 a b c d tail ih =>
    -- a unit written by four hexadecimal digits
    simp only [bind, Option.bind_eq_some_iff] at h
    obtain ⟨unit, -, ⟨units', rest'⟩, htail, h⟩ := h
    have := ih htail
    simp_all
    omega
  | case4 c tail _ ih =>
    -- an escape of one character
    simp only [bind, Option.bind_eq_some_iff] at h
    obtain ⟨unescaped, -, ⟨units', rest'⟩, htail, h⟩ := h
    have := ih htail
    simp_all
    omega
  | case5 => simp at h
  | case6 c tail _ _ _ _ ih =>
    -- a character that stands for itself
    simp only [bind, Option.bind_eq_some_iff] at h
    obtain ⟨⟨units', rest'⟩, htail, h⟩ := h
    have := ih htail
    simp_all
    omega

/-! ## Numbers -/

/-- One or more digits at the front. -/
def digits? (cs : List Char) : Option (List Char × List Char) :=
  match cs.takeWhile Text.isDigit with
  | [] => none
  | digits => some (digits, cs.dropWhile Text.isDigit)

/-- The whole part of a number: a zero alone, or digits that start with another one. -/
def whole? : List Char → Option (List Char × List Char)
  | '0' :: rest => some (['0'], rest)
  | cs => digits? cs

/-- A point and digits, if there is a point. -/
def fraction? : List Char → Option (List Char × List Char)
  | '.' :: cs => do
    let (digits, rest) ← digits? cs
    return ('.' :: digits, rest)
  | cs => some ([], cs)

/-- The sign of an exponent, if it has one. -/
def exponentSign : List Char → List Char × List Char
  | '+' :: cs => (['+'], cs)
  | '-' :: cs => (['-'], cs)
  | cs => ([], cs)

/-- An exponent, if there is an `e`. -/
def exponent? : List Char → Option (List Char × List Char)
  | c :: cs =>
    if c = 'e' ∨ c = 'E' then do
      let (sign, cs) := exponentSign cs
      let (digits, rest) ← digits? cs
      return (c :: sign ++ digits, rest)
    else some ([], c :: cs)
  | [] => some ([], [])

/-- The number at the front, without its sign. -/
def unsigned? (cs : List Char) : Option (List Char × List Char) := do
  let (whole, cs) ← whole? cs
  let (fraction, cs) ← fraction? cs
  let (exponent, cs) ← exponent? cs
  return (whole ++ fraction ++ exponent, cs)

theorem digits?_eq {cs digits rest : List Char} (h : digits? cs = some (digits, rest)) :
    digits ++ rest = cs ∧ digits ≠ [] := by
  have hcut := List.takeWhile_append_dropWhile (p := Text.isDigit) (l := cs)
  unfold digits? at h
  split at h
  · simp at h
  · next hne =>
    obtain ⟨rfl, rfl⟩ := by simpa using h
    exact ⟨hcut, hne⟩

theorem whole?_eq {cs whole rest : List Char} (h : whole? cs = some (whole, rest)) :
    whole ++ rest = cs ∧ whole ≠ [] := by
  unfold whole? at h
  split at h
  · obtain ⟨rfl, rfl⟩ := by simpa using h
    simp
  · exact digits?_eq h

theorem fraction?_eq {cs fraction rest : List Char} (h : fraction? cs = some (fraction, rest)) :
    fraction ++ rest = cs := by
  unfold fraction? at h
  split at h
  · simp only [bind, Option.bind_eq_some_iff] at h
    obtain ⟨⟨digits, rest'⟩, hdigits, h⟩ := h
    obtain ⟨rfl, rfl⟩ := by simpa using h
    simp [(digits?_eq hdigits).1]
  · obtain ⟨rfl, rfl⟩ := by simpa using h
    rfl

theorem exponentSign_eq (cs : List Char) : (exponentSign cs).1 ++ (exponentSign cs).2 = cs := by
  unfold exponentSign
  split <;> rfl

theorem exponent?_eq {cs exponent rest : List Char} (h : exponent? cs = some (exponent, rest)) :
    exponent ++ rest = cs := by
  unfold exponent? at h
  split at h
  · next c cs =>
    split at h
    · simp only [bind, Option.bind_eq_some_iff] at h
      obtain ⟨⟨digits, rest'⟩, hdigits, h⟩ := h
      obtain ⟨rfl, rfl⟩ := by simpa using h
      have hsign := exponentSign_eq cs
      rw [← (digits?_eq hdigits).1, ← List.append_assoc] at hsign
      simpa using hsign
    · obtain ⟨rfl, rfl⟩ := by simpa using h
      rfl
  · obtain ⟨rfl, rfl⟩ := by simpa using h
    rfl

/-- A number is written by the characters that it takes. -/
theorem unsigned?_eq {cs literal rest : List Char} (h : unsigned? cs = some (literal, rest)) :
    literal ++ rest = cs ∧ literal ≠ [] := by
  simp only [unsigned?, bind, Option.bind_eq_some_iff] at h
  obtain ⟨⟨whole, cs₁⟩, hwhole, ⟨fraction, cs₂⟩, hfraction, ⟨exponent, cs₃⟩, hexponent, h⟩ := h
  obtain ⟨rfl, rfl⟩ := by simpa using h
  obtain ⟨rfl, hne⟩ := whole?_eq hwhole
  simp only at hfraction hexponent
  rw [← fraction?_eq hfraction, ← exponent?_eq hexponent]
  simp [hne]

/-! ## Tokens -/

def isBlank (c : Char) : Bool := c == ' ' || c == '\n' || c == '\t' || c == '\r'

/-- The token at the front of `c :: cs`, where `c` is no blank, and what follows it. -/
def first? (c : Char) (cs : List Char) : Option (Token × List Char) :=
  match c, cs with
  | '[', cs => some (.openBracket, cs)
  | ']', cs => some (.closeBracket, cs)
  | '\x7b', cs => some (.openBrace, cs)
  | '\x7d', cs => some (.closeBrace, cs)
  | ',', cs => some (.comma, cs)
  | ':', cs => some (.colon, cs)
  | 'n', 'u' :: 'l' :: 'l' :: cs => some (.null, cs)
  | 't', 'r' :: 'u' :: 'e' :: cs => some (.truth true, cs)
  | 'f', 'a' :: 'l' :: 's' :: 'e' :: cs => some (.truth false, cs)
  | '"', cs => (units? cs).map fun read => (.text ((chars? read.1).map String.ofList), read.2)
  | '-', cs => (unsigned? cs).map fun read => (.number (String.ofList ('-' :: read.1)), read.2)
  | c, cs => (unsigned? (c :: cs)).map fun read => (.number (String.ofList read.1), read.2)

theorem length_lt_of_first? {c : Char} {cs rest : List Char} {token : Token}
    (h : first? c cs = some (token, rest)) : rest.length < (c :: cs).length := by
  unfold first? at h
  split at h
  case h_1 | h_2 | h_3 | h_4 | h_5 | h_6 | h_7 | h_8 | h_9 =>
    obtain ⟨rfl, rfl⟩ := by simpa using h
    simp only [List.length_cons]
    omega
  · obtain ⟨⟨units, rest'⟩, hunits, h⟩ := Option.map_eq_some_iff.mp h
    obtain ⟨rfl, rfl⟩ := by simpa using h
    exact Nat.lt_succ_of_lt (length_lt_of_units? hunits)
  · obtain ⟨⟨literal, rest'⟩, hliteral, h⟩ := Option.map_eq_some_iff.mp h
    obtain ⟨rfl, rfl⟩ := by simpa using h
    obtain ⟨hcs, hne⟩ := unsigned?_eq hliteral
    have := List.length_pos_iff.mpr hne
    rw [← hcs]
    simp only [List.length_cons, List.length_append]
    omega
  · obtain ⟨⟨literal, rest'⟩, hliteral, h⟩ := Option.map_eq_some_iff.mp h
    obtain ⟨rfl, rfl⟩ := by simpa using h
    obtain ⟨hcs, hne⟩ := unsigned?_eq hliteral
    have := List.length_pos_iff.mpr hne
    rw [← hcs, List.length_append]
    omega

/-- The tokens of a JSON text. -/
def scan? : List Char → Option (List Token)
  | [] => some []
  | c :: cs =>
    if isBlank c then scan? cs
    else match _hfirst : first? c cs with
      | none => none
      | some (token, rest) => (scan? rest).map (token :: ·)
termination_by cs => cs.length
decreasing_by
  · exact Nat.lt_succ_self _
  · exact length_lt_of_first? _hfirst

end Token

end Json

end SurveyLogic
