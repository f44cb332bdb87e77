import SurveyLogic.Evaluation.Eval
import SurveyLogic.Expr.Shape
import SurveyLogic.Title

/-!
# Reads are confined to the recorded roots

Two environments *agree* on some names when they hold the same under each of them.  An evaluation
step is *confined* to names when, started in two agreeing environments, it has the same outcome in
both and leaves agreeing environments behind.  `Expr.confined_eval` proves this of a tree and its
names by closure: each way of building a step keeps confinement, and an assignment keeps it because
what it writes under a root is made from what stood under that root.

Titles are simpler, since rendering writes nothing: `Title.render_congr`.
-/

namespace SurveyLogic

/-! ## Paths and their roots -/

namespace Text

/-- The first piece ends at the first dot. -/
theorem splitAtDots_eq_cons (cs : List Char) :
    ∃ pieces, splitAtDots cs = cs.takeWhile (· != '.') :: pieces := by
  induction cs with
  | nil => exact ⟨[], rfl⟩
  | cons c cs ih =>
      obtain ⟨pieces, hpieces⟩ := ih
      by_cases hdot : c = '.'
      · exact ⟨splitAtDots cs, by simp [splitAtDots, hdot]⟩
      · exact ⟨pieces, by simp [splitAtDots, hdot, hpieces]⟩

theorem segments_eq_cons (path : String) : ∃ rest, segments path = root path :: rest := by
  obtain ⟨pieces, hpieces⟩ := splitAtDots_eq_cons path.toList
  exact ⟨pieces.map String.ofList, by simp [segments, root, hpieces]⟩

end Text

namespace Environment

/-- Writing at a path is writing under its root. -/
theorem set_eq_define_root (path : String) (value : Value) (env : Environment) :
    ∃ rest, env.set path value = env.define (Text.root path)
      (value.assign rest ((env.get? (Text.root path)).getD .missing)) := by
  obtain ⟨rest, hrest⟩ := Text.segments_eq_cons path
  exact ⟨rest, by simp only [set, hrest]⟩

theorem get?_define_of_ne {name other : String} (hne : other ≠ name) (value : Value)
    (env : Environment) : (env.define name value).get? other = env.get? other :=
  Keyed.get?_insert_of_ne hne value env.bindings

theorem get?_set_of_ne {path name : String} (hne : name ≠ Text.root path) (value : Value)
    (env : Environment) : (env.set path value).get? name = env.get? name := by
  obtain ⟨rest, hset⟩ := env.set_eq_define_root path value
  rw [hset]
  exact get?_define_of_ne hne _ env

/-! ## Agreement -/

/-- The same binding, or none, under each of the names. -/
def AgreeOn (names : List String) (a b : Environment) : Prop :=
  ∀ name ∈ names, a.get? name = b.get? name

variable {names : List String} {a b : Environment}

theorem AgreeOn.symm (h : AgreeOn names a b) : AgreeOn names b a :=
  fun name hname => (h name hname).symm

theorem AgreeOn.trans {c : Environment} (h : AgreeOn names a b) (h' : AgreeOn names b c) :
    AgreeOn names a c :=
  fun name hname => (h name hname).trans (h' name hname)

theorem AgreeOn.mono {fewer : List String} (h : AgreeOn names a b) (hsub : fewer ⊆ names) :
    AgreeOn fewer a b :=
  fun name hname => h name (hsub hname)

/-- A write under a root outside the names goes unnoticed. -/
theorem agreeOn_set {path : String} (hroot : Text.root path ∉ names) (value : Value)
    (env : Environment) : AgreeOn names (env.set path value) env := by
  intro name hname
  exact get?_set_of_ne (fun heq => hroot (heq ▸ hname)) value env

/-- The same write keeps agreement, also when its root is among the names: what it makes of the
old value is the same on both sides. -/
theorem AgreeOn.set (h : AgreeOn names a b) (path : String) (value : Value) :
    AgreeOn names (a.set path value) (b.set path value) := by
  intro name hname
  by_cases hroot : name = Text.root path
  · subst hroot
    obtain ⟨rest, hrest⟩ := Text.segments_eq_cons path
    simp only [Environment.set, hrest, h _ hname]
    simp [define, get?]
  · rw [get?_set_of_ne hroot, get?_set_of_ne hroot]
    exact h name hname

theorem AgreeOn.lookup (h : AgreeOn names a b) {name : String} (hname : name ∈ names)
    (position : Nat) : a.lookup name position = b.lookup name position := by
  simp only [Environment.lookup, h name hname]

theorem AgreeOn.resolve? (h : AgreeOn names a b) {path : String}
    (hroot : Text.root path ∈ names) : a.resolve? path = b.resolve? path := by
  obtain ⟨rest, hrest⟩ := Text.segments_eq_cons path
  simp only [Environment.resolve?, hrest, h _ hroot]

end Environment

/-! ## Confined steps -/

namespace Evaluation

open Environment

variable {α β : Type} {names : List String}

/-- Environments that agree on the names give the same outcome and still agree after it. -/
def Confined (names : List String) (step : Evaluation α) : Prop :=
  ∀ a b, AgreeOn names a b →
    (step.outcome a).1 = (step.outcome b).1 ∧ AgreeOn names (step.outcome a).2 (step.outcome b).2

theorem Confined.pure (value : α) : Confined names (Pure.pure value : Evaluation α) :=
  fun _ _ h => ⟨rfl, h⟩

theorem Confined.ofResult (result : Except RuntimeError α) : Confined names (ofResult result) :=
  fun _ _ h => ⟨rfl, h⟩

theorem Confined.read {result : Environment → Except RuntimeError α}
    (hresult : ∀ a b, AgreeOn names a b → result a = result b) : Confined names (read result) :=
  fun a b h => ⟨by simpa using hresult a b h, h⟩

theorem Confined.write_set (path : String) (value : Value) :
    Confined names (write (·.set path value)) :=
  fun _ _ h => ⟨rfl, h.set path value⟩

theorem Confined.bind {step : Evaluation α} {next : α → Evaluation β}
    (hstep : Confined names step) (hnext : ∀ value, Confined names (next value)) :
    Confined names (step >>= next) := by
  intro a b h
  obtain ⟨hfirst, hafter⟩ := hstep a b h
  simp only [outcome_bind]
  rcases ha : step.outcome a with ⟨ra, ea⟩
  rcases hb : step.outcome b with ⟨rb, eb⟩
  rw [ha, hb] at hfirst hafter
  obtain rfl : ra = rb := hfirst
  cases ra with
  | error error => exact ⟨rfl, hafter⟩
  | ok value => exact hnext value ea eb hafter

end Evaluation

/-! ## Trees -/

namespace Expr

open Evaluation

mutual

/-- A tree reads nothing but its names. -/
theorem confined_eval {names : List String} :
    ∀ tree : Expr, tree.namesRead ⊆ names → Confined names tree.eval
  | number _ _, _ | text _ _, _ | truth _ _, _ => .pure _
  | name word position, hsub =>
    .read fun _ _ h => h.lookup (hsub (List.mem_singleton_self word)) position
  | member object _ _, hsub => (confined_eval object hsub).bind fun _ => .pure _
  | array elements _, hsub => (confined_evalAll elements hsub).bind fun _ => .pure _
  | unary _ operand _, hsub => (confined_eval operand hsub).bind fun _ => .ofResult _
  | binary _ left right _, hsub =>
    have hboth := List.append_subset.mp hsub
    (confined_eval left hboth.1).bind fun _ =>
      (confined_eval right hboth.2).bind fun _ => .ofResult _
  | logical operator left right _, hsub => by
    obtain ⟨hleft, hright⟩ := List.append_subset.mp hsub
    -- the right side is run in the environment that the left one leaves
    cases operator <;>
    · refine (confined_eval left hleft).bind fun value => ?_
      split
      all_goals first
        | exact .pure _
        | exact (confined_eval right hright).bind fun _ => .pure _
  | group inner _, hsub => confined_eval inner hsub
  | assign target value _, hsub => by
    unfold eval
    split
    · exact (confined_eval value hsub).bind fun _ => (Confined.write_set _ _).bind fun _ => .pure _
    · exact .ofResult _
  | between subject lower upper _, hsub =>
    have hsubject := List.append_subset.mp hsub
    have hbounds := List.append_subset.mp hsubject.2
    (confined_eval subject hsubject.1).bind fun _ =>
      (confined_eval lower hbounds.1).bind fun _ =>
        (confined_eval upper hbounds.2).bind fun _ => .ofResult _

theorem confined_evalAll {names : List String} :
    ∀ trees : List Expr, namesReadByAll trees ⊆ names → Confined names (evalAll trees)
  | [], _ => .pure _
  | tree :: trees, hsub =>
    have hboth := List.append_subset.mp hsub
    (confined_eval tree hboth.1).bind fun _ =>
      (confined_evalAll trees hboth.2).bind fun _ => .pure _

end

/-- The outcome in two environments that agree on the roots. -/
theorem outcome_eval_congr {tree : Expr} {a b : Environment}
    (h : Environment.AgreeOn tree.roots a b) :
    (tree.eval.outcome a).1 = (tree.eval.outcome b).1 := by
  have hread : Environment.AgreeOn tree.namesRead a b :=
    h.mono fun _ hname => Names.mem_ofList.mpr hname
  exact (confined_eval tree (List.Subset.refl _) a b hread).1

end Expr

/-! ## Titles -/

namespace Title

theorem root_mem_roots {title : Title} {path : String} (hpath : path ∈ title.placeholders) :
    Text.root path ∈ title.roots :=
  Names.mem_ofList.mpr (List.mem_map_of_mem hpath)

/-- A title is rendered alike in two environments that agree on its roots. -/
theorem render_congr {title : Title} {a b : Environment}
    (h : Environment.AgreeOn title.roots a b) (fallback : Fallback) :
    title.render a fallback = title.render b fallback := by
  unfold render
  congr 1
  refine List.map_congr_left fun segment hsegment => ?_
  unfold renderSegment
  cases hpath : segment.path? with
  | none => rfl
  | some path =>
      have hplaceholder : path ∈ title.placeholders :=
        List.mem_filterMap.mpr ⟨segment, hsegment, hpath⟩
      simp only [h.resolve? (root_mem_roots hplaceholder)]

end Title

/-! ## Both together -/

/-- **Reads are confined to the recorded roots.**  In two environments that agree on the roots of a
tree, assignments anywhere in it included, evaluating it has the same outcome, value or error, and
leaves environments that still agree on them.  A title comes out alike, whatever its fallback, in
two environments that agree on the roots of its placeholders. -/
theorem reads_confined :
    (∀ (tree : Expr) (a b : Environment), Environment.AgreeOn tree.roots a b →
      (tree.eval.outcome a).1 = (tree.eval.outcome b).1 ∧
      Environment.AgreeOn tree.roots (tree.eval.outcome a).2 (tree.eval.outcome b).2) ∧
    (∀ (title : Title) (fallback : Fallback) (a b : Environment),
      Environment.AgreeOn title.roots a b → title.render a fallback = title.render b fallback) := by
  refine ⟨fun tree a b h => ?_, fun title fallback a b h => Title.render_congr h fallback⟩
  have hread : tree.namesRead ⊆ tree.roots := fun _ hname => Names.mem_ofList.mpr hname
  exact Expr.confined_eval tree hread a b h

/-- The tree of `(note.x = color) and note.x + gone` with an assignment inside.  The right side
reads what the left one has written, and then fails. -/
def noteTree : Expr :=
  .logical .and (.group (.assign (.member (.name "note" 1) "x" 5) (.name "color" 10) 8) 0)
    (.binary .add (.member (.name "note" 21) "x" 25) (.name "gone" 30) 28) 17

/-- Two answers, of which the tree overwrites the first. -/
def noteAnswers : Environment := ⟨[("color", .text "red"), ("note", .text "none yet")]⟩

theorem reads_confined_note :
    Environment.AgreeOn noteTree.roots noteAnswers (noteAnswers.define "other" .missing) ∧
    (noteTree.eval.outcome (noteAnswers.define "other" .missing)).1 =
      .error (.undefinedVariable "gone" 30) ∧
    Environment.AgreeOn noteTree.roots (noteTree.eval.outcome noteAnswers).2
      (noteTree.eval.outcome (noteAnswers.define "other" .missing)).2 ∧
    (Title.parse "Why {{color}}?").render (noteAnswers.define "other" .missing) .keep =
      "Why red?" := by
  have hroots : noteTree.roots = ["color", "gone", "note"] := by decide
  have htitle : (Title.parse "Why {{color}}?").roots = ["color"] := by decide +kernel
  have hagree : ∀ names : List String, "other" ∉ names →
      Environment.AgreeOn names noteAnswers (noteAnswers.define "other" .missing) := by
    intro names hother name hname
    have hne : name ≠ "other" := fun heq => hother (heq ▸ hname)
    exact (Environment.get?_define_of_ne hne _ _).symm
  have htree := hagree noteTree.roots (by rw [hroots]; decide)
  obtain ⟨houtcome, hafter⟩ := reads_confined.1 noteTree _ _ htree
  have hrender := reads_confined.2 (Title.parse "Why {{color}}?") .keep _ _
    (hagree _ (by rw [htitle]; decide))
  refine ⟨htree, ?_, hafter, ?_⟩
  · rw [← houtcome]
    rfl
  · rw [← hrender]
    decide +kernel

end SurveyLogic
