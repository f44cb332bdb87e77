import SurveyLogic.Title

/-!
# Where placeholders stand in a title

`IsPlaceholder` says how a placeholder is written, and `Occurs` that one is written somewhere in a
text.  No two placeholders overlap, since behind its first two characters a placeholder has no
opening brace.  So what follows the placeholder at the front of a text is independent of it, and
what follows a character that starts no placeholder is independent of that character:
`occurs_append` and `occurs_cons` reduce the occurrences in a text to those in a shorter one, as
`cut` does.
-/

namespace SurveyLogic

namespace Text

/-! ## The characters of a path -/

theorem exists_mem_splitAtDots {c : Char} {cs : List Char} (hmem : c ∈ cs) (hdot : c ≠ '.') :
    ∃ piece ∈ splitAtDots cs, c ∈ piece := by
  induction cs with
  | nil => simp at hmem
  | cons d cs ih =>
      rcases List.mem_cons.mp hmem with rfl | hmem
      · unfold splitAtDots
        rw [if_neg hdot]
        split <;> simp
      · obtain ⟨piece, hpiece, hc⟩ := ih hmem
        unfold splitAtDots
        split
        · exact ⟨piece, List.mem_cons_of_mem _ hpiece, hc⟩
        · split
          · next hnil => simp [hnil] at hpiece
          · next first pieces hpieces =>
            rw [hpieces] at hpiece
            rcases List.mem_cons.mp hpiece with rfl | hpiece
            · exact ⟨d :: piece, List.mem_cons_self, List.mem_cons_of_mem _ hc⟩
            · exact ⟨piece, List.mem_cons_of_mem _ hpiece, hc⟩

theorem plain_of_isNameRest {c : Char} (h : isNameRest c = true) :
    isBlank c = false ∧ c ≠ '\x7b' ∧ c ≠ '\x7d' := by
  have hbounds : (97 ≤ c.toNat ∧ c.toNat ≤ 122) ∨ (65 ≤ c.toNat ∧ c.toNat ≤ 90) ∨ c.toNat = 95 ∨
      (48 ≤ c.toNat ∧ c.toNat ≤ 57) ∨ c.toNat = 45 := by
    simpa [isNameRest, isNameStart, isDigit, Char.le_def, UInt32.le_iff_toNat_le,
      ← Char.toNat_inj, or_assoc] using h
  refine ⟨?_, ?_, ?_⟩
  · simp only [isBlank, Bool.or_eq_false_iff, Bool.and_eq_false_iff, decide_eq_false_iff_not,
      beq_eq_false_iff_ne]
    omega
  · rintro rfl
    simp at hbounds
  · rintro rfl
    simp at hbounds

theorem isNameRest_of_isPath {cs : List Char} (h : isPath cs = true) {c : Char} (hmem : c ∈ cs) :
    c = '.' ∨ isNameRest c = true := by
  by_cases hdot : c = '.'
  · exact Or.inl hdot
  · obtain ⟨piece, hpiece, hc⟩ := exists_mem_splitAtDots hmem hdot
    have hname := List.all_eq_true.mp h piece hpiece
    cases piece with
    | nil => simp at hc
    | cons first rest =>
        simp only [isName, Bool.and_eq_true] at hname
        rcases List.mem_cons.mp hc with rfl | hc
        · simp [isNameRest, hname.1]
        · exact Or.inr (List.all_eq_true.mp hname.2 c hc)

/-- A path has no blank and no brace in it. -/
theorem plain_of_isPath {cs : List Char} (h : isPath cs = true) {c : Char} (hmem : c ∈ cs) :
    isBlank c = false ∧ c ≠ '\x7b' ∧ c ≠ '\x7d' := by
  rcases isNameRest_of_isPath h hmem with rfl | hrest
  · decide
  · exact plain_of_isNameRest hrest

theorem ne_nil_of_isPath {cs : List Char} (h : isPath cs = true) : cs ≠ [] := by
  rintro rfl
  simp [isPath, splitAtDots, isName] at h

theorem trimChars_append {before path after : List Char} (hbefore : ∀ c ∈ before, isBlank c = true)
    (hpath : isPath path = true) (hafter : ∀ c ∈ after, isBlank c = true) :
    trimChars (before ++ path ++ after) = path := by
  -- a path starts and ends with characters that are not blank
  have hfront : ∀ d ∈ (path ++ after).head?, isBlank d = false := by
    intro d hd
    cases path with
    | nil => exact absurd rfl (ne_nil_of_isPath hpath)
    | cons first rest =>
        obtain rfl : first = d := by simpa using hd
        exact (plain_of_isPath hpath List.mem_cons_self).1
  have hback : ∀ d ∈ path.reverse.head?, isBlank d = false := by
    intro d hd
    exact (plain_of_isPath hpath (List.mem_reverse.mp (List.mem_of_mem_head? hd))).1
  have hafter' : ∀ c ∈ after.reverse, isBlank c = true :=
    fun c hc => hafter c (List.mem_reverse.mp hc)
  rw [trimChars, List.append_assoc, (takeWhile_append_of_head? hbefore hfront).2,
    List.reverse_append, (takeWhile_append_of_head? hafter' hback).2, List.reverse_reverse]

theorem trimChars_of_isPath {cs : List Char} (h : isPath cs = true) : trimChars cs = cs := by
  have hnone : ∀ c ∈ ([] : List Char), isBlank c = true := by simp
  simpa using trimChars_append hnone h hnone

/-- Trimming takes blanks off, and nothing else. -/
theorem exists_trimChars (cs : List Char) : ∃ before after,
    (∀ c ∈ before, isBlank c = true) ∧ (∀ c ∈ after, isBlank c = true) ∧
      cs = before ++ trimChars cs ++ after := by
  refine ⟨cs.takeWhile isBlank, ((cs.dropWhile isBlank).reverse.takeWhile isBlank).reverse,
    List.all_eq_true.mp List.all_takeWhile, ?_, ?_⟩
  · intro c hc
    exact List.all_eq_true.mp List.all_takeWhile c (List.mem_reverse.mp hc)
  · rw [trimChars, List.append_assoc, ← List.reverse_append, List.takeWhile_append_dropWhile,
      List.reverse_reverse, List.takeWhile_append_dropWhile]

end Text

namespace Title

/-! ## How a placeholder is written -/

/-- A placeholder: a path between double braces, with blanks before it and behind it or not. -/
def IsPlaceholder (raw path : List Char) : Prop :=
  Text.isPath path = true ∧ ∃ before after,
    (∀ c ∈ before, Text.isBlank c = true) ∧ (∀ c ∈ after, Text.isBlank c = true) ∧
    raw = ['\x7b', '\x7b'] ++ before ++ path ++ after ++ ['\x7d', '\x7d']

theorem isPlaceholder_of_inside {inside : List Char}
    (hpath : Text.isPath (Text.trimChars inside) = true) :
    IsPlaceholder (Segment.placeholder inside).chars (Text.trimChars inside) := by
  obtain ⟨before, after, hbefore, hafter, hinside⟩ := Text.exists_trimChars inside
  refine ⟨hpath, before, after, hbefore, hafter, ?_⟩
  calc (Segment.placeholder inside).chars
      = ['\x7b', '\x7b'] ++ (before ++ Text.trimChars inside ++ after) ++ ['\x7d', '\x7d'] := by
        rw [← hinside]
        rfl
    _ = ['\x7b', '\x7b'] ++ before ++ Text.trimChars inside ++ after ++ ['\x7d', '\x7d'] := by
        simp only [List.append_assoc]

/-- Between its braces, a placeholder has no brace. -/
theorem IsPlaceholder.exists_inside {raw path : List Char} (h : IsPlaceholder raw path) :
    ∃ inside, raw = (Segment.placeholder inside).chars ∧ path = Text.trimChars inside ∧
      inside ≠ [] ∧ ∀ c ∈ inside, c ≠ '\x7b' ∧ c ≠ '\x7d' := by
  obtain ⟨hpath, before, after, hbefore, hafter, rfl⟩ := h
  have hblank : ∀ {c : Char}, Text.isBlank c = true → c ≠ '\x7b' ∧ c ≠ '\x7d' := by
    intro c hc
    constructor <;>
    · rintro rfl
      revert hc
      decide
  refine ⟨before ++ path ++ after, by simp [Segment.chars],
    (Text.trimChars_append hbefore hpath hafter).symm, ?_, ?_⟩
  · simp [Text.ne_nil_of_isPath hpath]
  · intro c hc
    simp only [List.mem_append] at hc
    rcases hc with (hc | hc) | hc
    · exact hblank (hbefore c hc)
    · exact (Text.plain_of_isPath hpath hc).2
    · exact hblank (hafter c hc)

theorem chars_placeholder_append (inside rest : List Char) :
    (Segment.placeholder inside).chars ++ rest =
      '\x7b' :: '\x7b' :: (inside ++ '\x7d' :: '\x7d' :: rest) := by
  simp [Segment.chars]

theorem length_chars_placeholder (inside : List Char) :
    (Segment.placeholder inside).chars.length = inside.length + 4 := by
  simp [Segment.chars]

/-- The front of a text is taken for a placeholder if one is written there, and only then. -/
theorem placeholder?_eq_some_iff {cs inside rest : List Char} :
    placeholder? cs = some (inside, rest) ↔
      cs = (Segment.placeholder inside).chars ++ rest ∧
      IsPlaceholder (Segment.placeholder inside).chars (Text.trimChars inside) := by
  constructor
  · intro h
    unfold placeholder? at h
    split at h
    · next cs =>
      split at h
      · next rest' hdrop =>
        dsimp only at h
        split at h
        · next hpath =>
          obtain ⟨rfl, rfl⟩ := Prod.mk.inj (Option.some.inj h)
          refine ⟨?_, isPlaceholder_of_inside hpath⟩
          -- the inside ends at the first brace, and that is the closing one
          have hcut := List.takeWhile_append_dropWhile
            (p := fun c => decide (c ≠ '\x7b' ∧ c ≠ '\x7d')) (l := cs)
          rw [chars_placeholder_append, ← hdrop, hcut]
        · simp at h
      · simp at h
    · simp at h
  · rintro ⟨rfl, hplaceholder⟩
    obtain ⟨inside', hraw, -, -, hinside⟩ := hplaceholder.exists_inside
    obtain rfl : inside = inside' := by simpa [Segment.chars] using hraw
    -- no brace is in the inside, so all of it is taken and nothing more
    have hall : ∀ c ∈ inside, decide (c ≠ '\x7b' ∧ c ≠ '\x7d') = true :=
      fun c hc => decide_eq_true (hinside c hc)
    have hclosing : ∀ d ∈ ('\x7d' :: '\x7d' :: rest).head?,
        decide (d ≠ '\x7b' ∧ d ≠ '\x7d') = false := by
      simp
    obtain ⟨htake, hdrop⟩ := Text.takeWhile_append_of_head? hall hclosing
    rw [chars_placeholder_append, placeholder?, hdrop, htake]
    exact if_pos hplaceholder.1

/-! ## Occurrences -/

/-- A placeholder in a text: how many characters are before it, how it is written, and its path. -/
structure Occurrence where
  start : Nat
  raw : List Char
  path : String
deriving DecidableEq

/-- The placeholder with a given inside at the front of a text. -/
def Occurrence.atFront (inside : List Char) : Occurrence :=
  ⟨0, (Segment.placeholder inside).chars, String.ofList (Text.trimChars inside)⟩

/-- The occurrence when more characters are put before it. -/
def Occurrence.shift (length : Nat) (occurrence : Occurrence) : Occurrence :=
  { occurrence with start := length + occurrence.start }

/-- The occurrence is one of a placeholder in the text. -/
def Occurs (source : List Char) (occurrence : Occurrence) : Prop :=
  IsPlaceholder occurrence.raw occurrence.path.toList ∧ ∃ before after,
    source = before ++ occurrence.raw ++ after ∧ before.length = occurrence.start

theorem Occurs.append {cs : List Char} {occurrence : Occurrence} (h : Occurs cs occurrence)
    (front : List Char) : Occurs (front ++ cs) (occurrence.shift front.length) := by
  obtain ⟨hplaceholder, before, after, rfl, hstart⟩ := h
  exact ⟨hplaceholder, front ++ before, after, by simp [Occurrence.shift],
    by simp [Occurrence.shift, hstart]⟩

/-- An occurrence behind the front of a text is one in what follows. -/
theorem Occurs.exists_shift (front : List Char) {cs : List Char} {occurrence : Occurrence}
    (h : Occurs (front ++ cs) occurrence) (hle : front.length ≤ occurrence.start) :
    ∃ later, Occurs cs later ∧ later.shift front.length = occurrence := by
  obtain ⟨hplaceholder, before, after, hsource, hstart⟩ := h
  -- the front ends before the occurrence starts
  have hprefix : front <+: before := by
    refine List.prefix_of_prefix_length_le (List.prefix_append front cs) ?_ (hstart ▸ hle)
    rw [hsource, List.append_assoc]
    exact List.prefix_append _ _
  obtain ⟨between, rfl⟩ := hprefix
  have hlater : cs = between ++ occurrence.raw ++ after := by
    simpa only [List.append_assoc, List.append_cancel_left_eq] using hsource
  refine ⟨⟨between.length, occurrence.raw, occurrence.path⟩,
    ⟨hplaceholder, between, after, hlater, rfl⟩, ?_⟩
  rw [Occurrence.shift, ← List.length_append, hstart]

/-- The occurrence at the front of a text is what is taken off there. -/
theorem Occurs.placeholder?_eq {cs : List Char} {occurrence : Occurrence}
    (h : Occurs cs occurrence) (hstart : occurrence.start = 0) :
    ∃ inside rest, placeholder? cs = some (inside, rest) ∧ occurrence = .atFront inside := by
  obtain ⟨start, raw, path⟩ := occurrence
  obtain ⟨hplaceholder, before, after, hsource, hlength⟩ := h
  obtain rfl : start = 0 := hstart
  obtain rfl : before = [] := List.eq_nil_of_length_eq_zero hlength
  obtain ⟨inside, rfl, hpath, -, -⟩ := hplaceholder.exists_inside
  obtain rfl : path = String.ofList (Text.trimChars inside) := by
    rw [← hpath, String.ofList_toList]
  exact ⟨inside, after, placeholder?_eq_some_iff.mpr ⟨hsource, hpath ▸ hplaceholder⟩, rfl⟩

/-- Where no placeholder is taken off, the first character can be left out. -/
theorem occurs_cons {c : Char} {cs : List Char} (hnone : placeholder? (c :: cs) = none)
    (occurrence : Occurrence) :
    Occurs (c :: cs) occurrence ↔ ∃ later, Occurs cs later ∧ later.shift 1 = occurrence := by
  constructor
  · intro h
    by_cases hstart : occurrence.start = 0
    · obtain ⟨inside, rest, hsome, -⟩ := h.placeholder?_eq hstart
      rw [hnone] at hsome
      contradiction
    · exact h.exists_shift [c] (Nat.one_le_iff_ne_zero.mpr hstart)
  · rintro ⟨later, hlater, rfl⟩
    exact hlater.append [c]

theorem mem_of_append_eq {front rest before after : List Char} {c : Char}
    (h : front ++ rest = before ++ c :: after) (hlt : before.length < front.length) :
    c ∈ front := by
  have hget : (front ++ rest)[before.length]? = some c := by simp [h]
  rw [List.getElem?_append_left hlt] at hget
  exact List.mem_of_getElem? hget

/-- Placeholders do not overlap. -/
theorem IsPlaceholder.length_le_of_append_eq {raw path raw' path' rest before after : List Char}
    (h : IsPlaceholder raw path) (h' : IsPlaceholder raw' path') (hbefore : before ≠ [])
    (heq : raw ++ rest = before ++ raw' ++ after) : raw.length ≤ before.length := by
  obtain ⟨inside, rfl, -, hne, hinside⟩ := h.exists_inside
  obtain ⟨inside', rfl, -, -, -⟩ := h'.exists_inside
  rw [List.append_assoc, chars_placeholder_append, chars_placeholder_append] at heq
  match before, hbefore with
  | [_], _ =>
    -- the second brace of the one is the first brace of the other, and then an inside starts
    obtain ⟨c, inside, rfl⟩ := List.exists_cons_of_ne_nil hne
    obtain rfl : c = '\x7b' := Option.some.inj (congrArg (·[2]?) heq)
    exact absurd rfl (hinside _ List.mem_cons_self).1
  | _ :: _ :: before, _ =>
    refine Nat.not_lt.mp fun hlt => ?_
    have hbehind : inside ++ ['\x7d', '\x7d'] ++ rest =
        before ++ '\x7b' :: ('\x7b' :: (inside' ++ '\x7d' :: '\x7d' :: after)) := by
      simpa using (List.cons.inj (List.cons.inj heq).2).2
    have hshort : before.length < (inside ++ ['\x7d', '\x7d']).length := by
      simp only [length_chars_placeholder, List.length_cons, List.length_append,
        List.length_nil] at hlt ⊢
      omega
    have hmem := mem_of_append_eq hbehind hshort
    simp only [List.mem_append, List.mem_cons, List.not_mem_nil, or_false] at hmem
    rcases hmem with hmem | hmem | hmem
    · exact (hinside _ hmem).1 rfl
    · exact absurd hmem (by decide)
    · exact absurd hmem (by decide)

/-- Behind a placeholder at the front, the others are those in what follows it. -/
theorem occurs_append {inside rest : List Char}
    (h : IsPlaceholder (Segment.placeholder inside).chars (Text.trimChars inside))
    (occurrence : Occurrence) :
    Occurs ((Segment.placeholder inside).chars ++ rest) occurrence ↔
      occurrence = .atFront inside ∨ ∃ later, Occurs rest later ∧
        later.shift (Segment.placeholder inside).chars.length = occurrence := by
  constructor
  · intro hoccurs
    by_cases hstart : occurrence.start = 0
    · obtain ⟨inside', rest', hsome, hoccurrence⟩ := hoccurs.placeholder?_eq hstart
      rw [placeholder?_eq_some_iff.mpr ⟨rfl, h⟩] at hsome
      obtain ⟨rfl, rfl⟩ := Prod.mk.inj (Option.some.inj hsome)
      exact Or.inl hoccurrence
    · -- any other one starts behind the first, since the two do not overlap
      refine Or.inr (hoccurs.exists_shift _ ?_)
      obtain ⟨hplaceholder, before, after, hsource, hlength⟩ := hoccurs
      rw [← hlength]
      refine h.length_le_of_append_eq hplaceholder ?_ hsource
      rintro rfl
      exact hstart hlength.symm
  · rintro (rfl | ⟨later, hlater, rfl⟩)
    · exact ⟨by simpa [Occurrence.atFront] using h, [], rest, rfl, rfl⟩
    · exact hlater.append _

/-! ## The placeholders among some segments -/

/-- The placeholders among some segments, and where they stand in the text that the segments are
written as. -/
def occurrences : List Segment → List Occurrence
  | [] => []
  | segment :: segments =>
    let later := (occurrences segments).map (·.shift segment.chars.length)
    match segment.path? with
    | none => later
    | some path => ⟨0, segment.chars, path⟩ :: later

@[simp] theorem occurrences_text (content : List Char) (segments : List Segment) :
    occurrences (.text content :: segments) =
      (occurrences segments).map (·.shift content.length) := rfl

@[simp] theorem occurrences_placeholder (inside : List Char) (segments : List Segment) :
    occurrences (.placeholder inside :: segments) =
      .atFront inside ::
        (occurrences segments).map (·.shift (Segment.placeholder inside).chars.length) := rfl

theorem Occurrence.shift_shift (more length : Nat) (occurrence : Occurrence) :
    (occurrence.shift length).shift more = occurrence.shift (length + more) := by
  simp only [shift, Occurrence.mk.injEq, and_true]
  omega

theorem occurrences_prepend (c : Char) (segments : List Segment) :
    occurrences (prepend c segments) = (occurrences segments).map (·.shift 1) := by
  match segments with
  | [] => rfl
  | .text content :: segments =>
    simp only [prepend, occurrences_text, List.map_map, List.length_cons]
    exact List.map_congr_left fun occurrence _ => (occurrence.shift_shift 1 content.length).symm
  | .placeholder inside :: segments => rfl

theorem cut_of_placeholder? {cs inside rest : List Char}
    (h : placeholder? cs = some (inside, rest)) : cut cs = .placeholder inside :: cut rest := by
  cases cs with
  | nil => simp [placeholder?] at h
  | cons c cs =>
      rw [cut]
      split
      · next h' =>
        obtain ⟨rfl, rfl⟩ := Prod.mk.inj (Option.some.inj (h.symm.trans h'))
        rfl
      · next h' =>
        rw [h] at h'
        contradiction

theorem cut_cons {c : Char} {cs : List Char} (h : placeholder? (c :: cs) = none) :
    cut (c :: cs) = prepend c (cut cs) := by
  rw [cut]
  split
  · next h' =>
    rw [h] at h'
    contradiction
  · rfl

end Title

end SurveyLogic
