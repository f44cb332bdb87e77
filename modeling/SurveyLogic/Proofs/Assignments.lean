import SurveyLogic.CommandLine
import SurveyLogic.Proofs.Atomicity
import SurveyLogic.Proofs.Grammar.Modes
import SurveyLogic.Proofs.MoreAnswers
import SurveyLogic.Proofs.Structure
import SurveyLogic.Proofs.Title.Paths

/-!
# Assignments on the command line

An assignment on the command line is split at its first `=`, and the text behind the sign is
compiled and evaluated by itself, without any answer.  A binding with the same text is scanned as a
whole, parsed as an assignment and evaluated in the environment at hand.  If the text behind the
sign has a value, both give the name that value (`assignment_binds`).

The tokens of the whole are those of the name, the sign and those of the text, since no text that
compiles starts with a second `=`, which would make one sign of both (`Lexeme.scan_assignment`).
The value is parsed from the same tokens at other positions (`Compiled.binding_of_assignment`).  And
what has a value without any answer keeps it whatever answers there are (`Expr.outcome_of_empty`).
-/

namespace SurveyLogic

/-! ## Splitting at the sign -/

namespace Command

theorem splitAssignment_of_name {name : String} (hequals : '=' ∉ name.toList)
    (hname : Text.trimChars name.toList ≠ []) (text : String) :
    splitAssignment (name ++ "=" ++ text) =
      .ok (String.ofList (Text.trimChars name.toList), valueOfText text) := by
  have hfront : ∀ c ∈ name.toList, decide (c ≠ '=') = true := by
    intro c hc
    rw [decide_eq_true_iff]
    rintro rfl
    exact hequals hc
  have hsign : ∀ c ∈ ('=' :: text.toList).head?, decide (c ≠ '=') = false := by simp
  obtain ⟨htake, hdrop⟩ := Text.takeWhile_append_of_head? hfront hsign
  have hchars : (name ++ "=" ++ text).toList = name.toList ++ '=' :: text.toList := by simp
  unfold splitAssignment
  rw [hchars, hdrop, htake]
  dsimp only
  rw [if_neg hname, String.ofList_toList]

theorem splitAssignment_of_isPath {name : String} (hname : Text.isPath name.toList = true)
    (text : String) : splitAssignment (name ++ "=" ++ text) = .ok (name, valueOfText text) := by
  have hequals : '=' ∉ name.toList := by
    intro hmem
    rcases Text.isNameRest_of_isPath hname hmem with hdot | hrest
    · exact absurd hdot (by decide)
    · exact absurd hrest (by decide)
  have htrim : Text.trimChars name.toList = name.toList := Text.trimChars_of_isPath hname
  rw [splitAssignment_of_name hequals (by rw [htrim]; exact Text.ne_nil_of_isPath hname), htrim,
    String.ofList_toList]

theorem valueOfText_of_ok {text : String} {compiled : Compiled} {value : Value}
    (hcompiled : Compiled.condition text = .ok compiled)
    (hvalue : (compiled.evaluate .empty).1 = .ok value) : valueOfText text = value := by
  unfold valueOfText
  rw [hcompiled]
  dsimp only
  rw [hvalue]

/-- A text without a value of its own stands for itself. -/
theorem valueOfText_of_none {text : String}
    (h : ∀ compiled value, Compiled.condition text = .ok compiled →
      (compiled.evaluate .empty).1 ≠ .ok value) : valueOfText text = .text text := by
  unfold valueOfText
  cases hcompiled : Compiled.condition text with
  | error error => rfl
  | ok compiled =>
      dsimp only
      cases hvalue : (compiled.evaluate .empty).1 with
      | error error => rfl
      | ok value => exact absurd hvalue (h compiled value hcompiled)

end Command

/-! ## The tokens around the sign -/

theorem Symbol.ofPair?_equals {d : Char} (h : d ≠ '=') : ofPair? '=' d = none := by
  unfold ofPair?
  split <;> simp_all

/-- A `=` in front is a sign by itself, or with the next character, and opens no phrase. -/
theorem Scanned.not_opens {rest : List Char} {tokens : List Token}
    (h : Scanned ('=' :: rest) tokens) :
    ∃ token more, tokens = token :: more ∧ token.opens = false := by
  have hfirst : ∃ sign spelling after,
      Piece.first? '=' rest = some (.token (.symbol sign) spelling, after) ∧
        (Token.symbol sign).opens = false := by
    by_cases hnext : ∀ d ∈ rest.head?, d ≠ '='
    · exact ⟨.assign, _, _,
        Piece.first?_symbol rfl fun d hd => Symbol.ofPair?_equals (hnext d hd), by decide⟩
    · obtain ⟨after, rfl⟩ : ∃ after, rest = '=' :: after := by
        cases rest with
        | nil => simp at hnext
        | cons d after => exact ⟨after, by simpa using hnext⟩
      refine ⟨.equal, ['=', '='], after, ?_, by decide⟩
      rw [first?_of_other (by decide) (by decide) (by decide)]
      rfl
  obtain ⟨sign, spelling, after, hfirst, hopens⟩ := hfirst
  obtain ⟨-, htokens⟩ := h
  rw [Piece.cut_of_first? hfirst] at htokens
  exact ⟨_, _, htokens.symm, hopens⟩

/-- No condition starts with a `=`. -/
theorem Compiled.head_ne_equals {text : String} {compiled : Compiled}
    (h : condition text = .ok compiled) : ∀ d ∈ text.toList.head?, d ≠ '=' := by
  obtain ⟨lexemes, hscan, hparse⟩ := parse_of_condition h
  obtain ⟨first, more, rfl, hopens⟩ := (Expr.sentence_of_parse hparse).1.exists_cons
  have hscanned := Lexeme.scanned_of_scan hscan
  rintro d hd rfl
  obtain ⟨rest, hrest⟩ := List.head?_eq_some_iff.mp hd
  rw [hrest] at hscanned
  obtain ⟨_, _, heq, hnot⟩ := hscanned.not_opens
  obtain ⟨rfl, -⟩ := List.cons.inj heq
  rw [hopens] at hnot
  contradiction

section Binding

variable {name text : String} (hname : Text.isPath name.toList = true)
  (hreserved : ∀ word ∈ Text.segments name, ∀ token, (word, token) ∉ reservedWords)

include hname hreserved

/-- The whole is scanned into a member chain, the sign and the tokens of the text. -/
theorem Lexeme.scan_assignment {lexemes : List Lexeme} (htext : scan text = .ok lexemes)
    (hequals : ∀ d ∈ text.toList.head?, d ≠ '=') :
    ∃ before target position after,
      scan (name ++ "=" ++ text) = .ok (before ++ ⟨.symbol .assign, position⟩ :: after) ∧
      DerivesMember before target ∧ target.path? = some (Text.segments name) ∧
      after.map (·.token) = lexemes.map (·.token) := by
  obtain ⟨chain, hchain, hscanned⟩ := Expr.exists_chain_of_isPath hname hreserved
  have hsign : Scanned ('=' :: text.toList) (.symbol .assign :: lexemes.map (·.token)) :=
    (scanned_of_scan htext).symbol rfl fun d hd => Symbol.ofPair?_equals (hequals d hd)
  have hend : ∀ d ∈ ('=' :: text.toList).head?, Text.isNameRest d = false :=
    Text.forall_mem_head?_cons (by decide) _
  have hchars : (name ++ "=" ++ text).toList = name.toList ++ '=' :: text.toList := by simp
  have hwhole : Scanned (name ++ "=" ++ text).toList
      (chain.tokens ++ .symbol .assign :: lexemes.map (·.token)) := by
    rw [hchars]
    exact hscanned hend hsign
  obtain ⟨whole, hscan, htokens⟩ := hwhole.scan
  obtain ⟨before, behind, rfl, hbefore, hbehind⟩ := List.map_eq_append_iff.mp htokens
  obtain ⟨⟨_, position⟩, after, rfl, rfl, hafter⟩ := List.map_eq_cons_iff.mp hbehind
  obtain ⟨target, hderives, hpath⟩ := Expr.exists_target_of_tokens hchain hbefore
  exact ⟨before, target, position, after, hscan, hderives, hpath, hafter⟩

/-! ## The binding -/

/-- The whole is a binding that assigns to the path of the name what the text compiles to, but for
the positions. -/
theorem Compiled.binding_of_assignment {compiled : Compiled}
    (hlength : (Text.segments name).length + 1 ≤ Expr.maxHeight)
    (htext : condition text = .ok compiled) (hheight : compiled.tree.height + 2 ≤ Expr.maxHeight) :
    ∃ target value position,
      binding (name ++ "=" ++ text) = .ok ⟨name ++ "=" ++ text, .assign target value position⟩ ∧
      target.path? = some (Text.segments name) ∧ value.assignmentFree = true ∧
      value.bare = compiled.tree.bare := by
  obtain ⟨lexemes, hscan, hparse⟩ := parse_of_condition htext
  obtain ⟨before, target, position, after, hwhole, htarget, hpath, htokens⟩ :=
    Lexeme.scan_assignment hname hreserved hscan (head_ne_equals htext)
  -- the tokens behind the sign are those of the text, at positions further on
  obtain ⟨value, hvalue, hbare⟩ : ∃ value, Expr.parse after = .ok value ∧
      value.bare = compiled.tree.bare := by
    have hsame := Expr.parse_congr htokens
    rw [hparse] at hsame
    cases hafter : Expr.parse after with
    | error error =>
        rw [hafter] at hsame
        contradiction
    | ok value =>
        rw [hafter] at hsame
        exact ⟨value, rfl, (Expr.sameStructure_iff _ _).mp hsame⟩
  have hsameHeight : value.height = compiled.tree.height :=
    Expr.eq_of_bare_eq Expr.height Expr.height_moved hbare
  refine ⟨target, value, position, ?_, hpath,
    Expr.assignmentFree_of_derives (Expr.sentence_of_parse hvalue).1, hbare⟩
  unfold binding
  rw [hwhole, ok_bind, Expr.parseBinding_of_parse htarget position after hvalue
    (by rw [hsameHeight]; exact hheight) hpath hlength]
  rfl

end Binding

/-- **An assignment on the command line is a binding.**  Let the text behind the sign compile, with
a tree that leaves two levels free, and have a value without any answer, and let the segments of the
name be no reserved words and leave one level free.  Then splitting gives the name and that value,
and evaluating the whole as a binding gives the same value and leaves, in every environment, what
setting the name to it leaves.  A text that does not compile or has no value without answers is
taken as it stands, whatever path the name is. -/
theorem assignment_binds (name : String) (hname : Text.isPath name.toList = true) (text : String) :
    ((Text.segments name).length + 1 ≤ Expr.maxHeight →
      (∀ word ∈ Text.segments name, ∀ token, (word, token) ∉ reservedWords) →
      ∀ compiled value, Compiled.condition text = .ok compiled →
        compiled.tree.height + 2 ≤ Expr.maxHeight → (compiled.evaluate .empty).1 = .ok value →
        Command.splitAssignment (name ++ "=" ++ text) = .ok (name, value) ∧
        ∀ env, evaluateSource (name ++ "=" ++ text) env = (.ok value, env.set name value)) ∧
    ((∀ compiled value, Compiled.condition text = .ok compiled →
        (compiled.evaluate .empty).1 ≠ .ok value) →
      Command.splitAssignment (name ++ "=" ++ text) = .ok (name, .text text)) := by
  rw [Command.splitAssignment_of_isPath hname]
  constructor
  · intro hlength hreserved compiled value hcompiled hheight hvalue
    refine ⟨by rw [Command.valueOfText_of_ok hcompiled hvalue], fun env => ?_⟩
    obtain ⟨target, tree, position, hbinding, hpath, hfree, hbare⟩ :=
      Compiled.binding_of_assignment hname hreserved hlength hcompiled hheight
    have hempty : (tree.eval.outcome .empty).1 = .ok value :=
      Expr.outcome_eval_of_bare_eq hbare hvalue
    have houtcome : (Expr.assign target tree position).eval.outcome env =
        (.ok value, env.set name value) := by
      rw [Expr.eval_assign hpath, Evaluation.outcome_bind,
        Expr.outcome_of_empty hfree hempty env, Text.joinSegments_segments]
      rfl
    unfold evaluateSource Compiled.evaluate
    rw [hbinding]
    dsimp only
    rw [houtcome]
  · intro hnone
    rw [Command.valueOfText_of_none hnone]

/-- The tree of `true or nights`, whose right side is not looked at. -/
def decidedTree : Expr := .logical .or (.truth true 0) (.name "nights" 8) 5

/-- The text `nights` compiles, but has no value without answers. -/
theorem assignment_binds_stay :
    Command.splitAssignment ("trip.stay" ++ "=" ++ "true or nights") =
      .ok ("trip.stay", .truth true) ∧
    (∀ env, evaluateSource ("trip.stay" ++ "=" ++ "true or nights") env =
      (.ok (.truth true), env.set "trip.stay" (.truth true))) ∧
    Command.splitAssignment ("trip.stay" ++ "=" ++ "nights") =
      .ok ("trip.stay", .text "nights") := by
  have hpath : Text.isPath "trip.stay".toList = true := by decide
  have hreserved : ∀ word ∈ Text.segments "trip.stay", ∀ token, (word, token) ∉ reservedWords := by
    have hnone : ∀ word ∈ Text.segments "trip.stay", word ∉ reservedWords.map (·.1) := by decide
    exact fun word hword token hmem => hnone word hword (List.mem_map_of_mem hmem)
  have hdecided : (Compiled.condition "true or nights").toOption.map
      (fun compiled => compiled.tree.sameStructure decidedTree) = some true := by decide +kernel
  obtain ⟨compiled, hcompiled, hsame⟩ := exists_of_toOption_map hdecided
  have hbare : compiled.tree.bare = decidedTree.bare := (Expr.sameStructure_iff _ _).mp hsame
  have hheight : compiled.tree.height = 2 :=
    (Expr.eq_of_bare_eq Expr.height Expr.height_moved hbare).trans rfl
  have hvalue : (compiled.evaluate .empty).1 = .ok (.truth true) :=
    Expr.outcome_eval_of_bare_eq hbare rfl
  obtain ⟨hsplit, hbinds⟩ := (assignment_binds "trip.stay" hpath "true or nights").1 (by decide)
    hreserved compiled (.truth true) hcompiled (by rw [hheight]; decide) hvalue
  refine ⟨hsplit, hbinds, (assignment_binds "trip.stay" hpath "nights").2 ?_⟩
  have hunbound : (Compiled.condition "nights").toOption.map
      (fun compiled => (compiled.evaluate .empty).1.toOption.isSome) = some false := by
    decide +kernel
  intro compiled value hcompiled hvalue
  simp [hcompiled, hvalue, Except.toOption] at hunbound

end SurveyLogic
