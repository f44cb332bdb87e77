import SurveyLogic.Survey.Format
import SurveyLogic.Proofs.Json.Renamed
import SurveyLogic.Proofs.Json.RoundTrip

/-!
# Definitions survive their text

The tree of a definition has texts and names in it and no numbers, so it is read back from its text
as it is.  The reader of the tree is an inverse of its writer.  It is so as well when the conditions
of some questions are called `visibleWhen`: the trees that arise from the renaming are read as the
same definition, and replacing the name in the text makes such a tree.
-/

namespace SurveyLogic

open Json

/-! ## The tree of a definition -/

theorem Fallback.worded_toJson (fallback : Fallback) : fallback.toJson.Worded := by
  cases fallback with
  | empty | keep => rfl
  | text value => exact ⟨⟨"text", rfl, by decide⟩, rfl, trivial⟩

theorem Options.worded_toJson (options : Options) : options.toJson.Worded :=
  ⟨⟨"placeholder_fallback", rfl, by decide⟩, options.placeholderFallback.worded_toJson, trivial⟩

theorem QuestionDefinition.worded_toJson (question : QuestionDefinition) :
    question.toJson.Worded := by
  obtain ⟨name, title, visibleWhen⟩ := question
  refine ⟨⟨"name", rfl, by decide⟩, rfl, ⟨"title", rfl, by decide⟩, rfl, ?_⟩
  cases visibleWhen with
  | none => trivial
  | some condition => exact ⟨⟨"visible_when", rfl, by decide⟩, rfl, trivial⟩

theorem allWorded_questions (questions : List QuestionDefinition) :
    AllWorded (questions.map (·.toJson)) := by
  induction questions with
  | nil => trivial
  | cons question questions ih => exact ⟨question.worded_toJson, ih⟩

theorem Definition.worded_toJson (definition : Definition) : definition.toJson.Worded :=
  ⟨⟨"options", rfl, by decide⟩, definition.options.worded_toJson,
    ⟨"questions", rfl, by decide⟩, allWorded_questions definition.questions, trivial⟩

/-! ## Reading it, with conditions under either name -/

section Renamed

variable {json : Json}

theorem Fallback.ofJson?_renamed {fallback : Fallback}
    (h : Renamed "visible_when" "visibleWhen" fallback.toJson json) :
    Fallback.ofJson? json = some fallback := by
  cases fallback with
  | empty | keep =>
    obtain rfl := h.eq_text
    rfl
  | text value =>
    simp only [toJson, ofMembers, List.map_cons, List.map_nil] at h
    cases h with
    | object h =>
      obtain ⟨content, others, rfl, hcontent, hothers⟩ := h.cons_of_ne (by decide)
      obtain rfl := hcontent.eq_text
      cases hothers with
      | nil => rfl

theorem Options.ofJson?_renamed {options : Options}
    (h : Renamed "visible_when" "visibleWhen" options.toJson json) :
    Options.ofJson? json = some options := by
  simp only [toJson, ofMembers, List.map_cons, List.map_nil] at h
  cases h with
  | object h =>
    obtain ⟨fallback, others, rfl, hfallback, hothers⟩ := h.cons_of_ne (by decide)
    cases hothers with
    | nil =>
      have hread := Fallback.ofJson?_renamed hfallback
      simp [Options.ofJson?, fields?, field?, orDefault, hread]

/-- The condition of a question is read under either name. -/
theorem QuestionDefinition.ofJson?_renamed {question : QuestionDefinition}
    (h : Renamed "visible_when" "visibleWhen" question.toJson json) :
    QuestionDefinition.ofJson? json = some question := by
  obtain ⟨name, title, visibleWhen⟩ := question
  simp only [toJson, ofMembers, List.cons_append, List.nil_append, List.map_cons] at h
  cases h with
  | object h =>
    obtain ⟨_, _, rfl, hname, hbehindName⟩ := h.cons_of_ne (by decide)
    obtain ⟨_, _, rfl, htitle, hbehindTitle⟩ := hbehindName.cons_of_ne (by decide)
    obtain rfl := hname.eq_text
    obtain rfl := htitle.eq_text
    cases visibleWhen with
    | none =>
      cases hbehindTitle with
      | nil => rfl
    | some condition =>
      cases hbehindTitle with
      | cons hkey hcondition hend =>
        obtain rfl := hcondition.eq_text
        cases hend with
        | nil =>
          -- the one key that may be another is looked for under both names
          rcases hkey with rfl | ⟨-, rfl⟩
          · rfl
          · rfl

theorem questionsOfJson?_renamed {questions : List QuestionDefinition} {elements : List Json}
    (h : RenamedAll "visible_when" "visibleWhen" (questions.map (·.toJson)) elements) :
    elements.mapM QuestionDefinition.ofJson? = some questions := by
  induction questions generalizing elements with
  | nil =>
    cases h with
    | nil => rfl
  | cons question questions ih =>
    cases h with
    | cons hfirst hothers =>
      simp [List.mapM_cons, QuestionDefinition.ofJson?_renamed hfirst, ih hothers]

theorem Definition.ofJson?_renamed {definition : Definition}
    (h : Renamed "visible_when" "visibleWhen" definition.toJson json) :
    Definition.ofJson? json = some definition := by
  simp only [toJson, ofMembers, List.map_cons, List.map_nil] at h
  cases h with
  | object h =>
    obtain ⟨_, _, rfl, hoptions, hbehindOptions⟩ := h.cons_of_ne (by decide)
    obtain ⟨_, _, rfl, hquestions, hbehindQuestions⟩ := hbehindOptions.cons_of_ne (by decide)
    cases hquestions with
    | array hquestions =>
      cases hbehindQuestions with
      | nil =>
        have hread := Options.ofJson?_renamed hoptions
        have hreadAll := questionsOfJson?_renamed hquestions
        simp [Definition.ofJson?, fields?, field?, orDefault, questionsOfJson?, hread, hreadAll]

end Renamed

/-! ## Texts -/

namespace Definition

/-- A definition is read from its text, also when its conditions are called `visibleWhen` there. -/
theorem parse?_of_replaced {definition : Definition} {text : String}
    (h : Text.Replaced (keyText "visible_when") (keyText "visibleWhen") definition.toText.toList
      text.toList) : parse? text = some definition := by
  rw [← List.append_nil definition.toText.toList] at h
  obtain ⟨json, others, hrenamed, hworded, htext, hothers⟩ :=
    renamed_of_replaced (by decide) (by decide) definition.toJson definition.worded_toJson
      endsValue_nil h
  -- nothing was behind the text, so the renamed value is all that is read
  rw [hothers.eq_nil (keyText_ne_nil _), List.append_nil, String.toList_inj] at htext
  rw [htext, parse?, parse?_toText hworded, Option.bind_some, Definition.ofJson?_renamed hrenamed]

/-- A text is replaced by the text of the definition that it writes. -/
def rewrite? (text : String) : Option String := (parse? text).map toText

/-- The name of conditions replaced by the other one that a reader takes. -/
def withOtherName (text : String) : String :=
  String.ofList
    (Text.replaceAll (keyText "visible_when") (keyText "visibleWhen") text.toList)

theorem parse?_toText (definition : Definition) : parse? definition.toText = some definition :=
  parse?_of_replaced (Text.Replaced.refl _)

theorem replaced_withOtherName (text : String) :
    Text.Replaced (keyText "visible_when") (keyText "visibleWhen") text.toList
      (withOtherName text).toList := by
  rw [withOtherName, String.toList_ofList]
  exact Text.replaced_replaceAll (keyText_ne_nil _) _

theorem parse?_withOtherName (definition : Definition) :
    parse? (withOtherName definition.toText) = some definition :=
  parse?_of_replaced (replaced_withOtherName _)

theorem rewrite?_bind (text : String) : (rewrite? text).bind rewrite? = rewrite? text := by
  unfold rewrite?
  cases parse? text with
  | none => rfl
  | some definition =>
    rw [Option.map_some, Option.bind_some, parse?_toText definition, Option.map_some]

/-- **A definition survives its text.**  It is read back from the text that it is written as, and
so is one that was read from any other text, which makes writing again what was read idempotent.
The name of the conditions may be replaced in the text, of some or of all of them. -/
theorem text_round_trip :
    (∀ definition : Definition, parse? definition.toText = some definition) ∧
    (∀ (text : String) (definition : Definition), parse? text = some definition →
      parse? definition.toText = some definition ∧ rewrite? definition.toText = rewrite? text) ∧
    (∀ text : String, (rewrite? text).bind rewrite? = rewrite? text) ∧
    (∀ definition : Definition, parse? (withOtherName definition.toText) = some definition) ∧
    ∀ (definition : Definition) (text : String),
      Text.Replaced (keyText "visible_when") (keyText "visibleWhen") definition.toText.toList
        text.toList → parse? text = some definition := by
  refine ⟨parse?_toText, ?_, rewrite?_bind, parse?_withOtherName, fun _ _ => parse?_of_replaced⟩
  intro text definition h
  refine ⟨parse?_toText definition, ?_⟩
  rw [rewrite?, rewrite?, parse?_toText, h]

/-- A name and a text that look like the name of a condition, and characters that are escaped. -/
def quotedDefinition : Definition where
  options := ⟨.text "\"visible_when\":"⟩
  questions := [⟨"visible_when", "ä\x01\"", some ""⟩]

/-- A text of it with fields in another order and an array for an object. -/
def quotedText : String :=
  "\x7b\"questions\":[\x7b\"visibleWhen\":\"\",\"title\":\"\\u00e4\\u0001\\\"\"," ++
  "\"name\":\"visible_when\"\x7d],\"options\":[\x7b\"text\":\"\\\"visible_when\\\":\"\x7d]\x7d"

theorem text_round_trip_quoted :
    parse? quotedText = some quotedDefinition ∧
    parse? quotedDefinition.toText = some quotedDefinition ∧
    withOtherName quotedDefinition.toText =
      "\x7b\"options\":\x7b\"placeholder_fallback\":" ++
      "\x7b\"text\":\"\\\"visible_when\\\":\"\x7d\x7d," ++
      "\"questions\":[\x7b\"name\":\"visible_when\",\"title\":\"ä\\u0001\\\"\"," ++
      "\"visibleWhen\":\"\"\x7d]\x7d" ∧
    parse? (withOtherName quotedDefinition.toText) = some quotedDefinition := by
  obtain ⟨-, hread, -, -, hreplaced⟩ := text_round_trip
  have hquoted : parse? quotedText = some quotedDefinition := by decide +kernel
  exact ⟨hquoted, (hread _ _ hquoted).1, by decide +kernel,
    hreplaced _ _ (replaced_withOtherName _)⟩

end Definition

end SurveyLogic
