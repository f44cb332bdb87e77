import SurveyLogic.Compiled
import SurveyLogic.Proofs.Confinement
import SurveyLogic.Proofs.Grammar.Modes
import SurveyLogic.Proofs.Printing.Derived
import SurveyLogic.Proofs.Scanning.Spelling
import SurveyLogic.Proofs.Store
import SurveyLogic.Proofs.Title.Occurrences

/-!
# Paths in titles and in conditions

A path in a placeholder is taken apart at its dots, and the answer is looked up segment by segment.
A path in a condition is scanned into names and dots, read as a member chain and evaluated.  Both
are the same path and find the same answer.

Reading goes through the member chain that one would write for the path (`Expr.ofPath`): its text
is the path, so its tokens are those of the path, and they derive it again.  What a tree with a path
evaluates to is `Expr.outcome_eval_of_path?`, whatever positions it has.
-/

namespace SurveyLogic

/-! ## Segments -/

namespace Text

/-- A text is its pieces with dots between them. -/
theorem eq_of_splitAtDots {cs piece : List Char} {pieces : List (List Char)}
    (h : splitAtDots cs = piece :: pieces) : cs = piece ++ pieces.flatMap ('.' :: ·) := by
  induction cs generalizing piece pieces with
  | nil =>
      obtain ⟨rfl, rfl⟩ := List.cons.inj h
      rfl
  | cons c cs ih =>
      obtain ⟨first, others, hrest⟩ := List.exists_cons_of_ne_nil (splitAtDots_ne_nil cs)
      by_cases hdot : c = '.'
      · subst hdot
        rw [splitAtDots, if_pos rfl] at h
        obtain ⟨rfl, rfl⟩ := List.cons.inj h
        rw [hrest, List.nil_append, List.flatMap_cons, List.cons_append, ← ih hrest]
      · rw [splitAtDots, if_neg hdot, hrest] at h
        obtain ⟨rfl, rfl⟩ := List.cons.inj h
        rw [List.cons_append, ← ih hrest]

theorem toList_of_segments {path root : String} {rest : List String}
    (h : segments path = root :: rest) :
    path.toList = root.toList ++ rest.flatMap ('.' :: ·.toList) := by
  obtain ⟨piece, pieces, hpieces⟩ := List.exists_cons_of_ne_nil (splitAtDots_ne_nil path.toList)
  rw [segments, hpieces] at h
  obtain ⟨rfl, rfl⟩ := List.cons.inj h
  rw [eq_of_splitAtDots hpieces, List.flatMap_map]
  simp only [String.toList_ofList]

theorem isName_of_mem_segments {path word : String} (h : isPath path.toList = true)
    (hword : word ∈ segments path) : isName word.toList = true := by
  obtain ⟨piece, hpiece, rfl⟩ := List.mem_map.mp hword
  rw [String.toList_ofList]
  exact List.all_eq_true.mp h piece hpiece

theorem toList_joinSegments (root : String) (rest : List String) :
    (joinSegments (root :: rest)).toList = root.toList ++ rest.flatMap ('.' :: ·.toList) := by
  unfold joinSegments
  induction rest generalizing root with
  | nil => rw [String.intercalate_singleton, List.flatMap_nil, List.append_nil]
  | cons next rest ih =>
      rw [String.intercalate_cons_cons, String.toList_append, String.toList_append, ih,
        List.append_assoc]
      rfl

/-- Splitting a path is undone by joining its segments. -/
theorem joinSegments_segments (path : String) : joinSegments (segments path) = path := by
  obtain ⟨rest, hsegments⟩ := segments_eq_cons path
  rw [← String.toList_inj, hsegments, toList_joinSegments, toList_of_segments hsegments]

end Text

/-! ## The member chain of a path -/

namespace Expr

/-- The member chain that goes on from an object. -/
def access (object : Expr) (properties : List String) : Expr :=
  properties.foldl (fun object property => .member object property 0) object

/-- The member chain with the given segments. -/
def ofPath (root : String) (rest : List String) : Expr := access (.name root 0) rest

theorem toText_access (object : Expr) (properties : List String) :
    (access object properties).toText.toList =
      object.toText.toList ++ properties.flatMap ('.' :: ·.toList) := by
  induction properties generalizing object with
  | nil => exact (List.append_nil _).symm
  | cons property properties ih =>
      refine (ih (.member object property 0)).trans ?_
      simp [toText]

theorem path?_access {object : Expr} {front : List String} (h : object.path? = some front)
    (properties : List String) : (access object properties).path? = some (front ++ properties) := by
  induction properties generalizing object front with
  | nil => rw [List.append_nil]; exact h
  | cons property properties ih =>
      have hmember : (member object property 0).path? = some (front ++ [property]) := by
        rw [path?, h]
        rfl
      rw [List.append_cons]
      exact ih hmember

theorem writable_access {object : Expr} (hpath : object.path?.isSome = true)
    (hobject : object.writable = true) {properties : List String}
    (h : ∀ word ∈ properties, (Token.name word).writable = true) :
    (access object properties).writable = true := by
  induction properties generalizing object with
  | nil => exact hobject
  | cons property properties ih =>
      rw [List.forall_mem_cons] at h
      refine ih ?_ ?_ h.2
      · simpa [path?] using hpath
      · rw [writable, hpath, hobject, h.1]
        rfl

/-! ## Reading a path as a condition -/

/-- Other positions, and other trees for numbers, leave the path of a tree as it is. -/
theorem path?_relabel {leaf : Number → Nat → Expr} {place : Nat → Nat} :
    ∀ tree : Expr, tree.path?.isSome = true → (tree.relabel leaf place).path? = tree.path?
  | name _ _, _ => rfl
  | member object property _, h => by
    have hobject : object.path?.isSome = true := by simpa [path?] using h
    rw [relabel, path?, path?_relabel object hobject, path?]
  | number .., h | text .., h | truth .., h | array .., h | unary .., h | binary .., h
  | logical .., h | group .., h | assign .., h | between .., h => by
    simp [path?] at h

theorem ReadBackAs.path?_eq {tree again : Expr} (h : tree.ReadBackAs again)
    (hpath : tree.path?.isSome = true) (hagain : again.path?.isSome = true) :
    again.path? = tree.path? := by
  have hreread : tree.reread.path? = tree.path? := path?_relabel tree hpath
  calc again.path? = again.bare.path? := (path?_relabel again hagain).symm
    _ = tree.reread.bare.path? := congrArg path? h
    _ = tree.reread.path? := path?_relabel _ (by rw [hreread]; exact hpath)
    _ = tree.path? := hreread

end Expr

/-- The tokens of a member chain derive a tree with its path. -/
theorem Expr.exists_target_of_tokens {chain : Expr} {path : List String}
    (hchain : chain.path? = some path) {lexemes : List Lexeme}
    (h : lexemes.map (·.token) = chain.tokens) :
    ∃ target, DerivesMember lexemes target ∧ target.path? = some path := by
  have hsome : chain.path?.isSome = true := by rw [hchain]; rfl
  obtain ⟨target, hderives, hagain⟩ := derivesMember_of_tokens chain hsome lexemes h
  exact ⟨target, hderives,
    (hagain.path?_eq hsome (path?_of_derivesMember hderives)).trans hchain⟩

/-- A path whose segments are names is the text of a member chain, and is scanned into its
tokens. -/
theorem Expr.exists_chain_of_isPath {path : String} (hpath : Text.isPath path.toList = true)
    (hreserved : ∀ word ∈ Text.segments path, ∀ token, (word, token) ∉ reservedWords) :
    ∃ chain : Expr, chain.path? = some (Text.segments path) ∧
      ∀ {rest : List Char} {tokens : List Token}, (∀ d ∈ rest.head?, Text.isNameRest d = false) →
        Scanned rest tokens → Scanned (path.toList ++ rest) (chain.tokens ++ tokens) := by
  obtain ⟨others, hsegments⟩ := Text.segments_eq_cons path
  have hwritable : ∀ word ∈ Text.root path :: others, (Token.name word).writable = true := by
    intro word hword
    rw [← hsegments] at hword
    rw [Token.writable, Text.isName_of_mem_segments hpath hword,
      Token.ofWord_of_not_reserved (hreserved word hword), decide_eq_true rfl]
    rfl
  rw [List.forall_mem_cons] at hwritable
  -- the chain is written at position 0 throughout; its text and its tokens are what counts
  let chain := ofPath (Text.root path) others
  have hchain : chain.path? = some (Text.segments path) := by
    rw [hsegments]
    have hroot : (name (Text.root path) 0).path? = some [Text.root path] := rfl
    exact path?_access hroot others
  have hchainWritable : chain.writable = true := by
    have hroot : (name (Text.root path) 0).writable = true := hwritable.1
    exact writable_access rfl hroot hwritable.2
  have htext : chain.toText.toList = path.toList := by
    rw [Text.toList_of_segments hsegments]
    exact toText_access _ others
  refine ⟨chain, hchain, fun hnext hrest => ?_⟩
  rw [← htext]
  exact scanned_path chain (by rw [hchain]; rfl) hchainWritable hnext hrest

/-- A path whose segments are names is read as a member chain, if that is not too high. -/
theorem Compiled.condition_of_isPath {path : String} (hpath : Text.isPath path.toList = true)
    (hlength : (Text.segments path).length ≤ Expr.maxHeight)
    (hreserved : ∀ word ∈ Text.segments path, ∀ token, (word, token) ∉ reservedWords) :
    ∃ tree, condition path = .ok ⟨path, tree⟩ ∧ tree.path? = some (Text.segments path) := by
  obtain ⟨chain, hchain, hscanned⟩ := Expr.exists_chain_of_isPath hpath hreserved
  have hpathScanned : Scanned path.toList chain.tokens := by
    have hnext : ∀ d ∈ ([] : List Char).head?, Text.isNameRest d = false := by simp
    have h := hscanned hnext scanned_nil
    rwa [List.append_nil, List.append_nil] at h
  obtain ⟨lexemes, hscan, htokens⟩ := hpathScanned.scan
  obtain ⟨tree, hderives, htree⟩ := Expr.exists_target_of_tokens hchain htokens
  have hroom : tree.roomNeeded ≤ Expr.maxHeight := by
    rw [Reader.roomNeeded_of_derivesMember hderives, ← Expr.length_of_path? hderives htree]
    exact hlength
  have hparse : Expr.parse lexemes = .ok tree :=
    Expr.parse_of_sentence ((Derives.member hderives).of_within (Level.within_or _)) hroom
  refine ⟨tree, ?_, htree⟩
  unfold condition
  rw [hscan, ok_bind, hparse]
  rfl

/-! ## What a path reads -/

namespace Expr

variable {root property : String} {rest : List String} {position : Nat}

theorem exists_cons_of_path? {tree : Expr} {path : List String} (h : tree.path? = some path) :
    ∃ root rest, path = root :: rest := by
  cases tree with
  | name word position => exact ⟨word, [], (Option.some.inj h).symm⟩
  | member object property position =>
      obtain ⟨front, -, rfl⟩ := Option.map_eq_some_iff.mp h
      cases front with
      | nil => exact ⟨property, [], rfl⟩
      | cons root front => exact ⟨root, front ++ [property], rfl⟩
  | _ => contradiction

/-- The last segment is the property, and the root is that of the object. -/
theorem path?_member {object : Expr}
    (h : (member object property position).path? = some (root :: rest)) :
    ∃ front, object.path? = some (root :: front) ∧ rest = front ++ [property] := by
  obtain ⟨path, hobject, heq⟩ := Option.map_eq_some_iff.mp h
  obtain ⟨first, front, rfl⟩ := exists_cons_of_path? hobject
  obtain ⟨rfl, rfl⟩ := List.cons.inj heq
  exact ⟨front, hobject, rfl⟩

theorem namesRead_of_path? : ∀ (tree : Expr) {rest : List String},
    tree.path? = some (root :: rest) → tree.namesRead = [root]
  | name word _, rest, h => by
    obtain ⟨rfl, -⟩ := List.cons.inj (Option.some.inj h)
    rfl
  | member object property _, rest, h => by
    obtain ⟨front, hobject, -⟩ := path?_member h
    exact namesRead_of_path? object hobject

/-- The root is looked up, and the other segments are followed from there. -/
theorem outcome_eval_of_path? : ∀ (tree : Expr) {rest : List String},
    tree.path? = some (root :: rest) → ∃ position, ∀ env,
      (tree.eval.outcome env).1 = (env.lookup root position).map (·.resolve rest)
  | name word position, rest, h => by
    obtain ⟨rfl, rfl⟩ := List.cons.inj (Option.some.inj h)
    refine ⟨position, fun env => ?_⟩
    rw [eval, Evaluation.outcome_read]
    cases env.lookup word position <;> rfl
  | member object property _, rest, h => by
    obtain ⟨front, hobject, rfl⟩ := path?_member h
    obtain ⟨position, hroot⟩ := outcome_eval_of_path? object hobject
    refine ⟨position, fun env => ?_⟩
    have hfirst := hroot env
    rw [eval, Evaluation.outcome_bind]
    rcases houtcome : object.eval.outcome env with ⟨result, after⟩
    rw [houtcome] at hfirst
    obtain rfl : result = _ := hfirst
    -- the object has the value behind all segments but the last, unless its root is undefined
    cases env.lookup root position with
    | error error => rfl
    | ok value => exact congrArg Except.ok (Value.resolve_append front [property] value).symm

end Expr

/-- A name is found where a path finds the value of its root. -/
theorem Environment.resolve?_of_segments {path root : String} {rest : List String}
    (h : Text.segments path = root :: rest) (env : Environment) :
    env.resolve? path = (env.get? root).map (·.resolve rest) := by
  unfold resolve?
  rw [h]

/-! ## The placeholder of a path -/

/-- A path between double braces is the only placeholder of a title that is nothing else. -/
theorem Title.placeholders_of_isPath {path : String} (h : Text.isPath path.toList = true) :
    (parse ("\x7b\x7b" ++ path ++ "\x7d\x7d")).placeholders = [path] := by
  have htrim : Text.trimChars path.toList = path.toList := Text.trimChars_of_isPath h
  have hsource : ("\x7b\x7b" ++ path ++ "\x7d\x7d").toList =
      (Segment.placeholder path.toList).chars ++ [] := by
    simp [Segment.chars]
  -- the title is its first placeholder, and nothing is left behind it
  have hfront : placeholder? ("\x7b\x7b" ++ path ++ "\x7d\x7d").toList =
      some (path.toList, []) :=
    placeholder?_eq_some_iff.mpr
      ⟨hsource, isPlaceholder_of_inside (by rw [htrim]; exact h)⟩
  unfold parse placeholders
  rw [cut_of_placeholder? hfront, cut, List.filterMap_cons, Segment.path?, htrim,
    String.ofList_toList]
  rfl

/-- **A placeholder and a condition read the same answer.**  A path with at most as many segments as
a tree has levels, none of them a reserved word, is a condition.  It has the segments of the path,
and its only root is that of the placeholder.  In every environment it has the value that stands at
the path, and the root is undefined if there is none. -/
theorem path_reads_alike (path : String) (hpath : Text.isPath path.toList = true)
    (hlength : (Text.segments path).length ≤ Expr.maxHeight)
    (hreserved : ∀ word ∈ Text.segments path, ∀ token, (word, token) ∉ reservedWords) :
    ∃ compiled, Compiled.condition path = .ok compiled ∧
      compiled.tree.path? = some (Text.segments path) ∧
      compiled.roots = [Text.root path] ∧
      (Title.parse ("\x7b\x7b" ++ path ++ "\x7d\x7d")).placeholders = [path] ∧
      (Title.parse ("\x7b\x7b" ++ path ++ "\x7d\x7d")).roots = [Text.root path] ∧
      ∀ env : Environment,
        (∀ value, (compiled.evaluate env).1 = .ok value ↔ env.resolve? path = some value) ∧
        ((∃ position, (compiled.evaluate env).1 =
          .error (.undefinedVariable (Text.root path) position)) ↔ env.resolve? path = none) := by
  obtain ⟨rest, hsegments⟩ := Text.segments_eq_cons path
  obtain ⟨tree, hcondition, htree⟩ := Compiled.condition_of_isPath hpath hlength hreserved
  have hplaceholders := Title.placeholders_of_isPath hpath
  have hroot : tree.path? = some (Text.root path :: rest) := by rw [htree, hsegments]
  obtain ⟨position, heval⟩ := Expr.outcome_eval_of_path? tree hroot
  refine ⟨⟨path, tree⟩, hcondition, htree, ?_, hplaceholders, ?_, fun env => ?_⟩
  · unfold Compiled.roots Expr.roots
    rw [Expr.namesRead_of_path? tree hroot]
    rfl
  · unfold Title.roots
    rw [hplaceholders]
    rfl
  · have hvalue : (Compiled.evaluate ⟨path, tree⟩ env).1 =
        (env.lookup (Text.root path) position).map (·.resolve rest) := heval env
    rw [hvalue, env.resolve?_of_segments hsegments, Environment.lookup]
    cases env.get? (Text.root path) with
    | none => simp [Except.map]
    | some value => simp [Except.map]

/-- An answer with a record in it.  At `note.text` there is a text, into which `note.text.x` reaches
for nothing. -/
def nestedAnswers : Environment := ⟨[("note", .record [("text", .text "late")])]⟩

theorem path_reads_alike_note :
    (∃ compiled, Compiled.condition "note.text" = .ok compiled ∧ compiled.roots = ["note"] ∧
      (Title.parse "\x7b\x7bnote.text\x7d\x7d").roots = ["note"] ∧
      (compiled.evaluate nestedAnswers).1 = .ok (.text "late")) ∧
    (∃ compiled, Compiled.condition "note.text.x" = .ok compiled ∧
      (compiled.evaluate nestedAnswers).1 = .ok .missing) ∧
    ∃ compiled position, Compiled.condition "other.text" = .ok compiled ∧
      (compiled.evaluate nestedAnswers).1 = .error (.undefinedVariable "other" position) := by
  have hreserved : ∀ words : List String, (∀ word ∈ words, word ∉ reservedWords.map (·.1)) →
      ∀ word ∈ words, ∀ token, (word, token) ∉ reservedWords :=
    fun words h word hword token hmem => h word hword (List.mem_map_of_mem hmem)
  refine ⟨?_, ?_, ?_⟩
  · obtain ⟨compiled, hcondition, -, hroots, -, htitle, hreads⟩ :=
      path_reads_alike "note.text" (by decide) (by decide) (hreserved _ (by decide))
    exact ⟨compiled, hcondition, hroots, htitle, ((hreads nestedAnswers).1 _).mpr rfl⟩
  · obtain ⟨compiled, hcondition, -, -, -, -, hreads⟩ :=
      path_reads_alike "note.text.x" (by decide) (by decide) (hreserved _ (by decide))
    exact ⟨compiled, hcondition, ((hreads nestedAnswers).1 _).mpr rfl⟩
  · obtain ⟨compiled, hcondition, -, -, -, -, hreads⟩ :=
      path_reads_alike "other.text" (by decide) (by decide) (hreserved _ (by decide))
    obtain ⟨position, herror⟩ := (hreads nestedAnswers).2.mpr rfl
    exact ⟨compiled, position, hcondition, herror⟩

end SurveyLogic
