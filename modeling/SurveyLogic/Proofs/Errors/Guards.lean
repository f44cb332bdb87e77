import SurveyLogic.Proofs.Errors.Raised
import SurveyLogic.Proofs.Grammar.CorrectPrefix
import SurveyLogic.Proofs.Scanning.Munch
import SurveyLogic.Proofs.Silence

/-!
# Errors that no source has

Three errors guard against trees that are put together by hand: an assignment to something that is
neither a name nor a member chain, when it is built and when it is evaluated, and an operator
outside its family.  The parsers build no such trees, and an operator is never applied outside its
family, so that no source has one of these errors.  A tree put together by hand has none either, as
long as its assignments are to names and member chains (`Expr.TargetsNamed`).
-/

namespace SurveyLogic

/-- The errors of trees that no source has. -/
def RuntimeError.Guard : RuntimeError → Prop
  | unsupportedOperator _ _ | unsupportedTarget _ => True
  | undefinedVariable _ _ | divisionByZero _ | kindMismatch _ _ => False

namespace Expr

/-! ## Assignments in a tree -/

/-- No node of the tree is an assignment. -/
def NoAssignment (tree : Expr) : Prop :=
  ∀ target value position, ¬ PartOf (.assign target value position) tree

/-- Every assignment in the tree is to a name or a member chain. -/
def TargetsNamed (tree : Expr) : Prop :=
  ∀ target value position, PartOf (.assign target value position) tree → target.path?.isSome = true

theorem NoAssignment.targetsNamed {tree : Expr} (h : tree.NoAssignment) : tree.TargetsNamed :=
  fun target value position hpart => absurd hpart (h target value position)

/-- An assignment at the root only. -/
theorem targetsNamed_assign {target value : Expr} {position : Nat}
    (hpath : target.path?.isSome = true) (htarget : target.NoAssignment)
    (hvalue : value.NoAssignment) : (assign target value position).TargetsNamed := by
  intro target' value' position' hpart
  cases hpart with
  | self => exact hpath
  | @inside part _ hmem hpart =>
      -- below the root there is no assignment at all
      obtain rfl | rfl : part = target ∨ part = value := by simpa [parts] using hmem
      · exact absurd hpart (htarget _ _ _)
      · exact absurd hpart (hvalue _ _ _)

theorem assignmentFree_of_mem {trees : List Expr} (h : allAssignmentFree trees = true) :
    ∀ tree ∈ trees, tree.assignmentFree = true := by
  induction trees with
  | nil => simp
  | cons first trees ih =>
      obtain ⟨hfirst, hrest⟩ := Bool.and_eq_true_iff.mp h
      exact List.forall_mem_cons.mpr ⟨hfirst, ih hrest⟩

theorem assignmentFree_of_mem_parts {tree : Expr} (h : tree.assignmentFree = true) :
    ∀ part ∈ tree.parts, part.assignmentFree = true := by
  cases tree with
  | array elements position => exact assignmentFree_of_mem h
  | _ => simp_all [assignmentFree, parts]

theorem noAssignment_of_assignmentFree {tree : Expr} (h : tree.assignmentFree = true) :
    tree.NoAssignment := by
  intro target value position hpart
  induction hpart with
  | self => contradiction
  | inside hmem _ ih => exact ih (assignmentFree_of_mem_parts h _ hmem)

/-- **A tree whose assignments are to names and member chains runs into no guard.** -/
theorem not_guard_of_targetsNamed {tree : Expr} (h : tree.TargetsNamed) {env : Environment}
    {error : RuntimeError} (herror : (tree.eval.outcome env).1 = .error error) : ¬ error.Guard := by
  obtain ⟨node, hnode, hraises⟩ := failsOnly_eval tree env error herror
  cases hraises with
  | target value position hpath =>
      -- the one guard that a tree can run into
      have hsome := h _ _ _ hnode
      rw [hpath] at hsome
      contradiction
  | _ => exact id

/-! ## Accepted sources -/

/-- The tree is a condition, or an assignment of one to a name or a member chain. -/
inductive AssignsAtRoot : Expr → Prop
  | condition {tree : Expr} : tree.NoAssignment → AssignsAtRoot tree
  | assign {target value : Expr} {position : Nat} : target.path?.isSome = true →
    target.NoAssignment → value.NoAssignment → AssignsAtRoot (.assign target value position)

theorem AssignsAtRoot.targetsNamed {tree : Expr} (h : tree.AssignsAtRoot) : tree.TargetsNamed := by
  cases h with
  | condition htree => exact htree.targetsNamed
  | assign hpath htarget hvalue => exact targetsNamed_assign hpath htarget hvalue

theorem BindingSentence.assignsAtRoot {tokens : List Lexeme} {tree : Expr}
    (h : BindingSentence tokens tree) : tree.AssignsAtRoot := by
  cases h with
  | assign position htarget hvalue =>
      exact .assign (path?_of_derivesMember htarget)
        (noAssignment_of_assignmentFree (assignmentFree_of_derivesMember htarget))
        (noAssignment_of_assignmentFree (assignmentFree_of_derives hvalue))
  | condition _ hsentence =>
      exact .condition (noAssignment_of_assignmentFree (assignmentFree_of_derives hsentence))

/-- A parser blames a token or the end, never a target. -/
theorem ne_invalidAssignmentTarget_of_blamed {Language : List Lexeme → Prop}
    {tokens : List Lexeme} {error : SyntaxError} (h : Blamed Language tokens error)
    (position : Nat) : error ≠ .invalidAssignmentTarget position := by
  rintro rfl
  exact h

end Expr

namespace Compiled

variable {source : String} {compiled : Compiled} {error : SyntaxError}

/-- In both modes a rejected source is not scanned or not parsed. -/
theorem scan_or_parse_of_rejected
    (h : condition source = .error error ∨ binding source = .error error) :
    Lexeme.scan source = .error error ∨ ∃ lexemes, Lexeme.scan source = .ok lexemes ∧
      (Expr.parse lexemes = .error error ∨ Expr.parseBinding lexemes = .error error) := by
  rcases h with h | h
  · rcases error_of_not_compiled Expr.parse h with hscan | ⟨lexemes, hscan, hparse⟩
    · exact Or.inl hscan
    · exact Or.inr ⟨lexemes, hscan, Or.inl hparse⟩
  · rcases error_of_not_compiled Expr.parseBinding h with hscan | ⟨lexemes, hscan, hparse⟩
    · exact Or.inl hscan
    · exact Or.inr ⟨lexemes, hscan, Or.inr hparse⟩

theorem blamed_of_rejected {lexemes : List Lexeme}
    (h : Expr.parse lexemes = .error error ∨ Expr.parseBinding lexemes = .error error) :
    Expr.Blamed Expr.IsCondition lexemes error := by
  rcases h with h | h
  · exact Expr.blamed_of_parseWithin (by decide) h
  · exact Expr.blamed_of_parseBinding h

theorem noAssignment_of_condition (h : condition source = .ok compiled) :
    compiled.tree.NoAssignment :=
  Expr.noAssignment_of_assignmentFree (assignmentFree_of_condition h)

theorem assignsAtRoot_of_accepted
    (h : condition source = .ok compiled ∨ binding source = .ok compiled) :
    compiled.tree.AssignsAtRoot := by
  rcases h with hcondition | hbinding
  · exact .condition (noAssignment_of_condition hcondition)
  · obtain ⟨lexemes, -, hparse⟩ := parseBinding_of_binding hbinding
    exact (Expr.bindingSentence_of_parseBinding hparse).1.assignsAtRoot

end Compiled

/-- **No source runs into a guard.**  Compiling it never fails because of an assignment's target.
The tree of a condition has no assignment in it, and that of a binding at most one, at the root and
to a name or a member chain.  No tree whose assignments are all of this kind, made from a source or
by hand, fails because of an operator or a target that is not supported. -/
theorem guards_unreachable :
    (∀ source position, Compiled.condition source ≠ .error (.invalidAssignmentTarget position) ∧
      Compiled.binding source ≠ .error (.invalidAssignmentTarget position)) ∧
    (∀ source compiled, Compiled.condition source = .ok compiled → compiled.tree.NoAssignment) ∧
    (∀ source compiled, Compiled.binding source = .ok compiled → compiled.tree.AssignsAtRoot) ∧
    (∀ source compiled,
      Compiled.condition source = .ok compiled ∨ Compiled.binding source = .ok compiled →
      ∀ env error, (compiled.evaluate env).1 = .error error → ¬ error.Guard) ∧
    (∀ tree : Expr, tree.TargetsNamed → ∀ env error, (tree.eval.outcome env).1 = .error error →
      ¬ error.Guard) := by
  have hcompile : ∀ source position,
      ¬ (Compiled.condition source = .error (.invalidAssignmentTarget position) ∨
        Compiled.binding source = .error (.invalidAssignmentTarget position)) := by
    intro source position h
    rcases Compiled.scan_or_parse_of_rejected h with hscan | ⟨lexemes, -, hparse⟩
    · obtain ⟨_, _, _, -, -, -, herror⟩ := (Lexeme.scan_eq_error_iff _ _).mp hscan
      contradiction
    · exact Expr.ne_invalidAssignmentTarget_of_blamed (Compiled.blamed_of_rejected hparse) _ rfl
  refine ⟨fun source position => not_or.mp (hcompile source position),
    fun source compiled h => Compiled.noAssignment_of_condition h,
    fun source compiled h => Compiled.assignsAtRoot_of_accepted (Or.inr h), ?_,
    fun tree h env error herror => Expr.not_guard_of_targetsNamed h herror⟩
  intro source compiled h env error herror
  exact Expr.not_guard_of_targetsNamed (Compiled.assignsAtRoot_of_accepted h).targetsNamed herror

/-- The tree of `(a = 1 / 0)`, which no source has: there an assignment does not stand in
parentheses. -/
def groupedTree : Expr :=
  .group (.assign (.name "a" 1) (.binary .divide (.number .one 5) (.number .zero 9) 7) 3) 0

/-- A binding and a tree made by hand, both of which fail in the value of their assignment. -/
theorem guards_unreachable_division :
    Compiled.binding "1 = a" ≠ .error (.invalidAssignmentTarget 0) ∧
    (∃ compiled, Compiled.condition "a = 1" = .ok compiled ∧ compiled.tree.NoAssignment) ∧
    (∃ compiled, Compiled.binding "a = 1 / 0" = .ok compiled ∧ compiled.tree.AssignsAtRoot ∧
      (compiled.evaluate .empty).1 = .error (.divisionByZero 6) ∧
      ¬ (RuntimeError.divisionByZero 6).Guard) ∧
    groupedTree.TargetsNamed ∧
    (groupedTree.eval.outcome .empty).1 = .error (.divisionByZero 7) ∧
    ¬ (RuntimeError.divisionByZero 7).Guard := by
  obtain ⟨hcompile, hcondition, hbinding, hsource, htree⟩ := guards_unreachable
  have haccepted : (Compiled.condition "a = 1").toOption.map (·.source) = some "a = 1" := by
    decide +kernel
  have hfailing : (Compiled.binding "a = 1 / 0").toOption.map
      (fun compiled => error? (compiled.evaluate .empty).1) = some (some (.divisionByZero 6)) := by
    decide +kernel
  obtain ⟨compiled, hcompiled, -⟩ := exists_of_toOption_map haccepted
  obtain ⟨failing, hfails, hseen⟩ := exists_of_toOption_map hfailing
  have herror := eq_error_of_seen hseen
  have hgrouped : groupedTree.TargetsNamed := by
    intro target value position hpart
    cases hpart with
    | @inside part _ hmem hpart =>
        obtain rfl := List.mem_singleton.mp hmem
        refine Expr.targetsNamed_assign rfl ?_ ?_ _ _ _ hpart
        all_goals exact Expr.noAssignment_of_assignmentFree rfl
  have houtcome : (groupedTree.eval.outcome .empty).1 = .error (.divisionByZero 7) :=
    eq_error_of_seen (by decide +kernel)
  exact ⟨(hcompile _ _).2, ⟨compiled, hcompiled, hcondition _ _ hcompiled⟩,
    ⟨failing, hfails, hbinding _ _ hfails, herror, hsource _ _ (Or.inr hfails) _ _ herror⟩,
    hgrouped, houtcome, htree _ hgrouped _ _ houtcome⟩

end SurveyLogic
