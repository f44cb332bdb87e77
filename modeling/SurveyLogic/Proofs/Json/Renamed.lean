import SurveyLogic.Proofs.Json.Scanned

/-!
# A member renamed in a written tree

In a text, occurrences of one list of characters are replaced by another: some of them
(`Text.Replaced`) or all of them from the left (`Text.replaceAll`).  What is replaced here is a name
between quotes with the colon behind it, `Json.keyText`.

In a written tree this can only be the name of a member.  A quote that a text contains is escaped,
so it either opens what another text ends or stands in front of what the tree goes on with, and
neither is a colon behind a name.  So replacing the characters renames members and nothing else:
`Json.renamed_of_replaced`.
-/

namespace SurveyLogic

/-! ## Replaced characters -/

namespace Text

/-- The second text is the first with some occurrences of `old` replaced by `new`. -/
inductive Replaced (old new : List Char) : List Char → List Char → Prop
  | nil : Replaced old new [] []
  | keep (c : Char) {cs text : List Char} (h : Replaced old new cs text) :
      Replaced old new (c :: cs) (c :: text)
  | swap {cs text : List Char} (h : Replaced old new cs text) :
      Replaced old new (old ++ cs) (new ++ text)

/-- Replaces the occurrences of `old` from the left; `skip` characters belong to the one that was
replaced last. -/
def replaceFrom (old new : List Char) : (skip : Nat) → List Char → List Char
  | _, [] => []
  | skip + 1, _ :: cs => replaceFrom old new skip cs
  | 0, c :: cs =>
    if old.isPrefixOf (c :: cs) then new ++ replaceFrom old new (old.length - 1) cs
    else c :: replaceFrom old new 0 cs

/-- Every occurrence of `old` replaced by `new`. -/
def replaceAll (old new cs : List Char) : List Char := replaceFrom old new 0 cs

section Replaced

variable {old new : List Char}

theorem Replaced.refl (cs : List Char) : Replaced old new cs cs := by
  induction cs with
  | nil => exact .nil
  | cons c cs ih => exact .keep c ih

theorem replaced_replaceFrom (hold : old ≠ []) (cs : List Char) (skip : Nat) :
    Replaced old new (cs.drop skip) (replaceFrom old new skip cs) := by
  fun_induction replaceFrom old new skip cs with
  | case1 => simpa using Replaced.nil
  | case2 skip c cs ih => simpa using ih
  | case3 c cs hfront ih =>
    -- the occurrence, and what stands behind it
    obtain ⟨rest, hrest⟩ := List.isPrefixOf_iff_prefix.mp hfront
    have hdrop : cs.drop (old.length - 1) = rest := by
      cases old with
      | nil => contradiction
      | cons d old =>
        obtain ⟨-, rfl⟩ := List.cons.inj hrest
        simp
    rw [List.drop_zero, ← hrest]
    exact .swap (hdrop ▸ ih)
  | case4 c cs _ ih => exact .keep c (by simpa using ih)

theorem replaced_replaceAll (hold : old ≠ []) (cs : List Char) :
    Replaced old new cs (replaceAll old new cs) :=
  replaced_replaceFrom hold cs 0

theorem Replaced.eq_nil (hold : old ≠ []) {text : List Char} (h : Replaced old new [] text) :
    text = [] := by
  generalize hempty : [] = written at h
  cases h with
  | nil => rfl
  | keep => contradiction
  | swap => exact absurd (List.append_eq_nil_iff.mp hempty.symm).1 hold

/-- The front character stays, or an occurrence at the front is replaced. -/
theorem Replaced.kept_or_swapped {c : Char} {cs text : List Char}
    (h : Replaced old new (c :: cs) text) :
    (∃ others, text = c :: others ∧ Replaced old new cs others) ∨
    ∃ behind others, c :: cs = old ++ behind ∧ text = new ++ others ∧
      Replaced old new behind others := by
  generalize hwritten : c :: cs = written at h
  cases h with
  | nil => contradiction
  | keep d h =>
    obtain ⟨rfl, rfl⟩ := List.cons.inj hwritten
    exact Or.inl ⟨_, rfl, h⟩
  | swap h => exact Or.inr ⟨_, _, rfl, rfl, h⟩

/-- Where there is no occurrence, the character stays. -/
theorem Replaced.kept {c : Char} {cs text : List Char} (h : Replaced old new (c :: cs) text)
    (hnot : ¬ old <+: c :: cs) : ∃ others, text = c :: others ∧ Replaced old new cs others := by
  rcases h.kept_or_swapped with hkept | ⟨behind, _, hfront, -⟩
  · exact hkept
  · exact absurd ⟨behind, hfront.symm⟩ hnot

end Replaced

end Text

open Text

namespace Json

/-! ## Names between quotes -/

/-- A name as the members of an object have it in front of their values. -/
@[irreducible] def keyText (key : String) : List Char := (quote key).toList ++ [':']

theorem keyText_append (key : String) (rest : List Char) :
    keyText key ++ rest = '"' :: (key.toList.flatMap escape ++ '"' :: ':' :: rest) := by
  simp [keyText, toList_quote]

/-- The only member of an object is written as its name and its value. -/
theorem memberTexts_append (name : Option String) (json : Json) (rest : List Char) :
    (String.intercalate "," (memberTexts [(name, json)])).toList ++ rest =
      keyText (name.getD "") ++ (json.toText.toList ++ rest) := by
  simp [memberTexts, keyText]

/-- A member in front of others is written as its name, its value, a comma and the others. -/
theorem memberTexts_cons_append (name : Option String) (json : Json) (next : Option String × Json)
    (members : List (Option String × Json)) (rest : List Char) :
    (String.intercalate "," (memberTexts ((name, json) :: next :: members))).toList ++ rest =
      keyText (name.getD "") ++ (json.toText.toList ++
        ',' :: ((String.intercalate "," (memberTexts (next :: members))).toList ++ rest)) := by
  rw [toList_memberTexts_cons]
  simp [keyText]

theorem keyText_ne_nil (key : String) : keyText key ≠ [] := by
  simp [keyText, toList_quote]

/-- A letter or an underscore is written by itself. -/
theorem escape_of_isNameStart {c : Char} (h : isNameStart c = true) : escape c = [c] := by
  have hnone : ∀ pair ∈ Token.lettered, isNameStart pair.1 = false := by decide
  have hmem : c ∉ Token.lettered.map (·.1) := by
    intro hc
    obtain ⟨pair, hpair, rfl⟩ := List.mem_map.mp hc
    rw [hnone pair hpair] at h
    contradiction
  have hbounds : (97 ≤ c.toNat ∧ c.toNat ≤ 122) ∨ (65 ≤ c.toNat ∧ c.toNat ≤ 90) ∨ c.toNat = 95 := by
    simpa [isNameStart, Char.le_def, UInt32.le_iff_toNat_le, ← Char.toNat_inj, or_assoc] using h
  rw [Token.escape_of_not_mem_lettered hmem, if_neg (by omega)]

/-- Only a quote is written with a quote. -/
theorem eq_quote_of_mem_escape {c : Char} (h : '"' ∈ escape c) : c = '"' := by
  have hdigits : ∀ n < 16, hexDigit n ≠ '"' := by decide
  rcases Token.escape_cases c with ⟨d, hescape, hd⟩ | ⟨hescape, hcontrol⟩ | ⟨hescape, hquote, -⟩
  · obtain rfl : '"' = d := by simpa [hescape] using h
    exact (Option.some.inj hd).symm
  · have hfirst := hdigits (c.toNat / 16) (by omega)
    have hsecond := hdigits (c.toNat % 16) (by omega)
    simp [hescape, hfirst.symm, hsecond.symm] at h
  · obtain rfl : '"' = c := by simpa [hescape] using h
    rfl

theorem quote_not_mem_of_isName {cs : List Char} (h : isName cs = true) : '"' ∉ cs := by
  intro hmem
  cases cs with
  | nil => contradiction
  | cons c cs =>
    rw [isName, Bool.and_eq_true] at h
    rcases List.mem_cons.mp hmem with rfl | hmem
    · exact Bool.noConfusion h.1
    · exact Bool.noConfusion (List.all_eq_true.mp h.2 _ hmem)

/-! ## Quotes that open no name of a member -/

section Quotes

variable {key : String} {content rest : List Char}

/-- Between two quotes stands the text that is written there. -/
theorem written_of_keyText_at (h : keyText key <+: '"' :: (content.flatMap escape ++ '"' :: rest)) :
    content = key.toList ∧ ∃ others, rest = ':' :: others := by
  obtain ⟨others, h⟩ := h
  rw [keyText_append] at h
  have hunits := congrArg Token.units? (List.cons.inj h).2
  rw [Token.units?_written, Token.units?_written] at hunits
  obtain ⟨hcontent, rfl⟩ := Prod.mk.inj (Option.some.inj hunits)
  exact ⟨(List.map_inj_right fun _ _ => Char.toNat_inj.mp).mp hcontent.symm, others, rfl⟩

/-- Behind a closing quote stands no name. -/
theorem not_keyText_behind_closing (hkey : isName key.toList = true)
    (hrest : ∀ c ∈ rest.head?, isNameStart c = false) : ¬ keyText key <+: '"' :: rest := by
  rintro ⟨others, h⟩
  rw [keyText_append] at h
  cases hchars : key.toList with
  | nil =>
    rw [hchars] at hkey
    contradiction
  | cons c cs =>
    rw [hchars, isName, Bool.and_eq_true] at hkey
    rw [hchars, List.flatMap_cons, escape_of_isNameStart hkey.1] at h
    have hhead : rest.head? = some c := by
      rw [← (List.cons.inj h).2]
      rfl
    rw [hrest c hhead] at hkey
    exact Bool.noConfusion hkey.1

theorem not_keyText_at {c : Char} (hc : c ≠ '"') : ¬ keyText key <+: c :: rest := by
  rintro ⟨others, h⟩
  rw [keyText_append] at h
  exact hc (List.cons.inj h).1.symm

end Quotes

/-! ## What is replaced in a written tree -/

/-- Behind a value stands nothing, or neither a colon nor a name. -/
def EndsValue (rest : List Char) : Prop := ∀ c ∈ rest.head?, c ≠ ':' ∧ isNameStart c = false

theorem endsValue_nil : EndsValue [] := nofun

theorem endsValue_cons {c : Char} (rest : List Char) (hcolon : c ≠ ':')
    (hname : isNameStart c = false) : EndsValue (c :: rest) := by
  intro d hd
  obtain rfl : c = d := by simpa using hd
  exact ⟨hcolon, hname⟩

section Replaced

variable {old new : String} {rest text : List Char}

/-- Characters without a quote stay. -/
theorem kept_unquoted {front : List Char} (hquote : '"' ∉ front)
    (h : Replaced (keyText old) (keyText new) (front ++ rest) text) :
    ∃ others, text = front ++ others ∧ Replaced (keyText old) (keyText new) rest others := by
  induction front generalizing text with
  | nil => exact ⟨text, rfl, h⟩
  | cons c front ih =>
    rw [List.mem_cons, not_or] at hquote
    obtain ⟨text, rfl, hfront⟩ := h.kept (not_keyText_at (Ne.symm hquote.1))
    obtain ⟨others, rfl, hrest⟩ := ih hquote.2 hfront
    exact ⟨others, rfl, hrest⟩

/-- The characters of a text and its closing quote stay if the text is a value, and also if it is
the name of a member that has no quote in it. -/
theorem kept_written (hold : isName old.toList = true) {content : List Char}
    (hquote : '"' ∈ content → ∀ c ∈ rest.head?, c ≠ ':')
    (hrest : ∀ c ∈ rest.head?, isNameStart c = false)
    (h : Replaced (keyText old) (keyText new) (content.flatMap escape ++ '"' :: rest) text) :
    ∃ others, text = content.flatMap escape ++ '"' :: others ∧
      Replaced (keyText old) (keyText new) rest others := by
  induction content generalizing text with
  | nil => exact h.kept (not_keyText_behind_closing hold hrest)
  | cons c content ih =>
    have hquoted : '"' ∈ content → ∀ c ∈ rest.head?, c ≠ ':' :=
      fun hmem => hquote (List.mem_cons_of_mem _ hmem)
    rw [List.flatMap_cons, List.append_assoc] at h
    by_cases hc : '"' ∈ escape c
    · -- the escaped quote closes nothing, as the text that it would open ends in front of no colon
      obtain rfl := eq_quote_of_mem_escape hc
      obtain ⟨text, rfl, hfirst⟩ := h.kept (not_keyText_at (by decide))
      have hnot : ¬ keyText old <+: '"' :: (content.flatMap escape ++ '"' :: rest) := by
        intro hfront
        obtain ⟨-, others, rfl⟩ := written_of_keyText_at hfront
        exact hquote List.mem_cons_self ':' rfl rfl
      obtain ⟨text, rfl, hsecond⟩ := hfirst.kept hnot
      obtain ⟨others, rfl, hothers⟩ := ih hquoted hsecond
      exact ⟨others, rfl, hothers⟩
    · obtain ⟨text, rfl, hfirst⟩ := kept_unquoted hc h
      obtain ⟨others, rfl, hothers⟩ := ih hquoted hfirst
      exact ⟨others, by simp, hothers⟩

/-- A text that is a value stays. -/
theorem kept_quote (hold : isName old.toList = true) (content : String) (hrest : EndsValue rest)
    (h : Replaced (keyText old) (keyText new) ((quote content).toList ++ rest) text) :
    ∃ others, text = (quote content).toList ++ others ∧
      Replaced (keyText old) (keyText new) rest others := by
  rw [toList_quote, List.append_assoc] at h
  have hopen : ¬ keyText old <+: '"' :: (content.toList.flatMap escape ++ '"' :: rest) := by
    intro hfront
    obtain ⟨-, others, rfl⟩ := written_of_keyText_at hfront
    exact (hrest ':' rfl).1 rfl
  obtain ⟨text, rfl, hcontent⟩ := h.kept hopen
  obtain ⟨others, rfl, hothers⟩ :=
    kept_written hold (fun _ c hc => (hrest c hc).1) (fun c hc => (hrest c hc).2) hcontent
  exact ⟨others, by simp [toList_quote], hothers⟩

/-- The name of a member stays, or it is the replaced one. -/
theorem kept_or_renamed (hold : isName old.toList = true) {key : String}
    (hkey : isName key.toList = true)
    (h : Replaced (keyText old) (keyText new) (keyText key ++ rest) text) :
    ∃ key' others, text = keyText key' ++ others ∧ (key' = key ∨ key = old ∧ key' = new) ∧
      Replaced (keyText old) (keyText new) rest others := by
  rw [keyText_append] at h
  rcases h.kept_or_swapped with ⟨text, rfl, hname⟩ | ⟨behind, others, hwritten, rfl, hothers⟩
  · have hbehind : ∀ c ∈ (':' :: rest).head?, isNameStart c = false := by
      intro c hc
      obtain rfl : ':' = c := by simpa using hc
      rfl
    obtain ⟨text, rfl, hcolon⟩ := kept_written hold
      (fun hmem => absurd hmem (quote_not_mem_of_isName hkey)) hbehind hname
    obtain ⟨others, rfl, hothers⟩ := hcolon.kept (not_keyText_at (by decide))
    exact ⟨key, others, (keyText_append key others).symm, Or.inl rfl, hothers⟩
  · obtain ⟨hkey, -⟩ := written_of_keyText_at ⟨behind, hwritten.symm⟩
    obtain rfl := String.toList_inj.mp hkey
    rw [← keyText_append] at hwritten
    rw [List.append_cancel_left hwritten]
    exact ⟨new, others, rfl, Or.inr ⟨rfl, rfl⟩, hothers⟩

end Replaced

/-! ## Trees -/

mutual

/-- The second tree is the first with some members that are called `old` renamed to `new`. -/
inductive Renamed (old new : String) : Json → Json → Prop
  | null : Renamed old new null null
  | truth (value : Bool) : Renamed old new (truth value) (truth value)
  | number (literal : String) : Renamed old new (number literal) (number literal)
  | text (content : Option String) : Renamed old new (text content) (text content)
  | array {elements elements' : List Json} (h : RenamedAll old new elements elements') :
      Renamed old new (array elements) (array elements')
  | object {members members' : List (Option String × Json)}
      (h : RenamedMembers old new members members') :
      Renamed old new (object members) (object members')

inductive RenamedAll (old new : String) : List Json → List Json → Prop
  | nil : RenamedAll old new [] []
  | cons {json json' : Json} {jsons jsons' : List Json} (hfirst : Renamed old new json json')
      (hothers : RenamedAll old new jsons jsons') :
      RenamedAll old new (json :: jsons) (json' :: jsons')

inductive RenamedMembers (old new : String) :
    List (Option String × Json) → List (Option String × Json) → Prop
  | nil : RenamedMembers old new [] []
  | cons {name name' : Option String} {json json' : Json}
      {members members' : List (Option String × Json)}
      (hname : name' = name ∨ name = some old ∧ name' = some new)
      (hfirst : Renamed old new json json') (hothers : RenamedMembers old new members members') :
      RenamedMembers old new ((name, json) :: members) ((name', json') :: members')

end

section Renamed

variable {old new : String}

theorem RenamedAll.exists_cons {json : Json} {jsons others : List Json}
    (h : RenamedAll old new (json :: jsons) others) : ∃ json' jsons', others = json' :: jsons' := by
  cases h with
  | cons => exact ⟨_, _, rfl⟩

theorem RenamedMembers.exists_cons {member : Option String × Json}
    {members others : List (Option String × Json)}
    (h : RenamedMembers old new (member :: members) others) :
    ∃ member' members', others = member' :: members' := by
  cases h with
  | cons => exact ⟨_, _, rfl⟩

theorem Renamed.eq_text {content : Option String} {json : Json}
    (h : Renamed old new (.text content) json) : json = .text content := by
  cases h with
  | text => rfl

/-- A member with another name keeps it. -/
theorem RenamedMembers.cons_of_ne {key : String} {json : Json}
    {members others : List (Option String × Json)} (hne : key ≠ old)
    (h : RenamedMembers old new ((some key, json) :: members) others) :
    ∃ json' members', others = (some key, json') :: members' ∧ Renamed old new json json' ∧
      RenamedMembers old new members members' := by
  cases h with
  | cons hname hfirst hothers =>
    rcases hname with rfl | ⟨hkey, -⟩
    · exact ⟨_, _, rfl, hfirst, hothers⟩
    · exact absurd (Option.some.inj hkey) hne

/-- The comma between two items stays. -/
theorem kept_comma {rest text : List Char}
    (h : Replaced (keyText old) (keyText new) (',' :: rest) text) :
    ∃ others, text = ',' :: others ∧ Replaced (keyText old) (keyText new) rest others :=
  h.kept (not_keyText_at (by decide))

/-- The name, the colon and the value of a member. -/
theorem renamed_member (hold : isName old.toList = true) (hnew : isName new.toList = true)
    {name : Option String} (hname : ∃ key, name = some key ∧ isName key.toList = true)
    {rest text : List Char}
    (h : Replaced (keyText old) (keyText new) (keyText (name.getD "") ++ rest) text) :
    ∃ name' others, (∃ key, name' = some key ∧ isName key.toList = true) ∧
      (name' = name ∨ name = some old ∧ name' = some new) ∧
      text = keyText (name'.getD "") ++ others ∧
      Replaced (keyText old) (keyText new) rest others := by
  obtain ⟨key, rfl, hkey⟩ := hname
  obtain ⟨key', others, rfl, hname, hothers⟩ := kept_or_renamed hold hkey h
  refine ⟨some key', others, ⟨key', rfl, ?_⟩, ?_, rfl, hothers⟩
  · rcases hname with rfl | ⟨rfl, rfl⟩
    · exact hkey
    · exact hnew
  · simpa using hname

mutual

/-- **Replacing a name in the text of a tree renames members of the tree.** -/
theorem renamed_of_replaced (hold : isName old.toList = true) (hnew : isName new.toList = true) :
    ∀ (json : Json), json.Worded → ∀ ⦃rest changed : List Char⦄, EndsValue rest →
    Replaced (keyText old) (keyText new) (json.toText.toList ++ rest) changed →
    ∃ json' others, Renamed old new json json' ∧ json'.Worded ∧
      changed = json'.toText.toList ++ others ∧ Replaced (keyText old) (keyText new) rest others
  | null, _ => by
    intro rest changed _ h
    have hquote : '"' ∉ ['n', 'u', 'l', 'l'] := by decide
    obtain ⟨others, hchanged, hothers⟩ := kept_unquoted hquote h
    exact ⟨null, others, .null, trivial, hchanged, hothers⟩
  | truth true, _ => by
    intro rest changed _ h
    have hquote : '"' ∉ ['t', 'r', 'u', 'e'] := by decide
    obtain ⟨others, hchanged, hothers⟩ := kept_unquoted hquote h
    exact ⟨truth true, others, .truth true, trivial, hchanged, hothers⟩
  | truth false, _ => by
    intro rest changed _ h
    have hquote : '"' ∉ ['f', 'a', 'l', 's', 'e'] := by decide
    obtain ⟨others, hchanged, hothers⟩ := kept_unquoted hquote h
    exact ⟨truth false, others, .truth false, trivial, hchanged, hothers⟩
  | text content, hworded => by
    intro rest changed hrest h
    obtain ⟨others, hchanged, hothers⟩ := kept_quote hold (content.getD "") hrest h
    exact ⟨.text content, others, .text content, hworded, hchanged, hothers⟩
  | array elements, hworded => by
    intro rest changed _ h
    have hwritten : (array elements).toText.toList ++ rest =
        '[' :: ((String.intercalate "," (toTexts elements)).toList ++ ']' :: rest) := by
      simp [toText]
    rw [hwritten] at h
    -- no key is written at a bracket, so both of them stay
    obtain ⟨changed, rfl, hopen⟩ := h.kept (not_keyText_at (by decide))
    obtain ⟨elements', changed, hrenamed, hworded', rfl, hclose⟩ :=
      renamedAll_of_replaced hold hnew elements hworded
        (endsValue_cons rest (by decide) (by decide)) hopen
    obtain ⟨others, rfl, hothers⟩ := hclose.kept (not_keyText_at (by decide))
    exact ⟨array elements', others, .array hrenamed, hworded', by simp [toText], hothers⟩
  | object members, hworded => by
    intro rest changed _ h
    have hwritten : (object members).toText.toList ++ rest =
        '\x7b' :: ((String.intercalate "," (memberTexts members)).toList ++ '\x7d' :: rest) := by
      simp [toText]
    rw [hwritten] at h
    obtain ⟨changed, rfl, hopen⟩ := h.kept (not_keyText_at (by decide))
    obtain ⟨members', changed, hrenamed, hworded', rfl, hclose⟩ :=
      renamedMembers_of_replaced hold hnew members hworded
        (endsValue_cons rest (by decide) (by decide)) hopen
    obtain ⟨others, rfl, hothers⟩ := hclose.kept (not_keyText_at (by decide))
    exact ⟨object members', others, .object hrenamed, hworded', by simp [toText], hothers⟩

theorem renamedAll_of_replaced (hold : isName old.toList = true) (hnew : isName new.toList = true) :
    ∀ (elements : List Json), AllWorded elements → ∀ ⦃rest changed : List Char⦄, EndsValue rest →
    Replaced (keyText old) (keyText new)
      ((String.intercalate "," (toTexts elements)).toList ++ rest) changed →
    ∃ elements' others, RenamedAll old new elements elements' ∧ AllWorded elements' ∧
      changed = (String.intercalate "," (toTexts elements')).toList ++ others ∧
      Replaced (keyText old) (keyText new) rest others
  | [], _ => by
    intro rest changed _ h
    exact ⟨[], changed, .nil, trivial, rfl, h⟩
  | [json], hworded => by
    intro rest changed hrest h
    rw [toTexts, toTexts, String.intercalate_singleton] at h
    obtain ⟨json', others, hrenamed, hworded', rfl, hothers⟩ :=
      renamed_of_replaced hold hnew json hworded.1 hrest h
    exact ⟨[json'], others, .cons hrenamed .nil, ⟨hworded', trivial⟩, by simp [toTexts], hothers⟩
  | json :: next :: jsons, hworded => by
    intro rest changed hrest h
    rw [toList_toTexts_cons, List.append_assoc, List.cons_append] at h
    -- from the left: what is left over behind one item starts with its comma
    obtain ⟨json', changed, hrenamed, hworded', rfl, hcomma⟩ :=
      renamed_of_replaced hold hnew json hworded.1 (endsValue_cons _ (by decide) (by decide)) h
    obtain ⟨changed, rfl, hmore⟩ := kept_comma hcomma
    obtain ⟨elements', others, hrenamedAll, hallWorded, rfl, hothers⟩ :=
      renamedAll_of_replaced hold hnew (next :: jsons) hworded.2 hrest hmore
    obtain ⟨next', jsons', rfl⟩ := hrenamedAll.exists_cons
    exact ⟨json' :: next' :: jsons', others, .cons hrenamed hrenamedAll, ⟨hworded', hallWorded⟩,
      by rw [toList_toTexts_cons, List.append_assoc, List.cons_append], hothers⟩

theorem renamedMembers_of_replaced (hold : isName old.toList = true)
    (hnew : isName new.toList = true) :
    ∀ (members : List (Option String × Json)), MembersWorded members →
    ∀ ⦃rest changed : List Char⦄, EndsValue rest →
    Replaced (keyText old) (keyText new)
      ((String.intercalate "," (memberTexts members)).toList ++ rest) changed →
    ∃ members' others, RenamedMembers old new members members' ∧ MembersWorded members' ∧
      changed = (String.intercalate "," (memberTexts members')).toList ++ others ∧
      Replaced (keyText old) (keyText new) rest others
  | [], _ => by
    intro rest changed _ h
    exact ⟨[], changed, .nil, trivial, rfl, h⟩
  | [(name, json)], hworded => by
    intro rest changed hrest h
    rw [memberTexts_append] at h
    -- the name and its colon are the one place where the key can stand
    obtain ⟨name', changed, hnamed, hname, rfl, hvalue⟩ := renamed_member hold hnew hworded.1 h
    obtain ⟨json', others, hrenamed, hworded', rfl, hothers⟩ :=
      renamed_of_replaced hold hnew json hworded.2.1 hrest hvalue
    exact ⟨[(name', json')], others, .cons hname hrenamed .nil, ⟨hnamed, hworded', trivial⟩,
      (memberTexts_append name' json' others).symm, hothers⟩
  | (name, json) :: next :: members, hworded => by
    intro rest changed hrest h
    rw [memberTexts_cons_append] at h
    obtain ⟨name', changed, hnamed, hname, rfl, hvalue⟩ := renamed_member hold hnew hworded.1 h
    obtain ⟨json', changed, hrenamed, hworded', rfl, hcomma⟩ :=
      renamed_of_replaced hold hnew json hworded.2.1 (endsValue_cons _ (by decide) (by decide))
        hvalue
    obtain ⟨changed, rfl, hmore⟩ := kept_comma hcomma
    obtain ⟨members', others, hrenamedMembers, hmembersWorded, rfl, hothers⟩ :=
      renamedMembers_of_replaced hold hnew (next :: members) hworded.2.2 hrest hmore
    obtain ⟨next', members', rfl⟩ := hrenamedMembers.exists_cons
    exact ⟨(name', json') :: next' :: members', others, .cons hname hrenamed hrenamedMembers,
      ⟨hnamed, hworded', hmembersWorded⟩,
      (memberTexts_cons_append name' json' next' members' others).symm, hothers⟩

end

end Renamed

end Json

end SurveyLogic
