import SurveyLogic.Evaluation.Eval
import SurveyLogic.Expr.Parse
import SurveyLogic.Token.Scan

/-!
# Compiled sources

A condition or a binding together with its tree, and a cache that compiles each condition once.
The cache carries the proof that it holds nothing but what compiling gives, so that asking it is the
same as compiling: `Cache.compile_fst`.
-/

namespace SurveyLogic

structure Compiled where
  source : String
  tree : Expr

namespace Compiled

/-- Compiles a condition. -/
def condition (source : String) : Except SyntaxError Compiled := do
  let tokens ← Lexeme.scan source
  return ⟨source, ← Expr.parse tokens⟩

/-- Compiles a binding: an assignment or a condition. -/
def binding (source : String) : Except SyntaxError Compiled := do
  let tokens ← Lexeme.scan source
  return ⟨source, ← Expr.parseBinding tokens⟩

section Modes

variable {source : String} {compiled : Compiled} {error : SyntaxError}

/-- A source that is compiled is scanned and parsed. -/
theorem exists_of_compiled (parser : List Lexeme → Except SyntaxError Expr)
    (h : (do return ⟨source, ← parser (← Lexeme.scan source)⟩) = Except.ok compiled) :
    ∃ lexemes, Lexeme.scan source = .ok lexemes ∧ parser lexemes = .ok compiled.tree := by
  obtain ⟨lexemes, hscan, hmore⟩ := exists_of_bind_eq_ok h
  obtain ⟨tree, hparse, hok⟩ := exists_of_bind_eq_ok hmore
  obtain rfl := Except.ok.inj hok
  exact ⟨lexemes, hscan, hparse⟩

/-- A source that is not compiled is not scanned or not parsed. -/
theorem error_of_not_compiled (parser : List Lexeme → Except SyntaxError Expr)
    (h : (do return (⟨source, ← parser (← Lexeme.scan source)⟩ : Compiled)) = .error error) :
    Lexeme.scan source = .error error ∨
      ∃ lexemes, Lexeme.scan source = .ok lexemes ∧ parser lexemes = .error error := by
  rcases error_of_bind_eq_error h with hscan | ⟨lexemes, hscan, hmore⟩
  · exact Or.inl hscan
  · rcases error_of_bind_eq_error hmore with hparse | ⟨tree, -, hok⟩
    · exact Or.inr ⟨lexemes, hscan, hparse⟩
    · contradiction

theorem parse_of_condition (h : condition source = .ok compiled) :
    ∃ lexemes, Lexeme.scan source = .ok lexemes ∧ Expr.parse lexemes = .ok compiled.tree :=
  exists_of_compiled Expr.parse h

theorem parseBinding_of_binding (h : binding source = .ok compiled) :
    ∃ lexemes, Lexeme.scan source = .ok lexemes ∧ Expr.parseBinding lexemes = .ok compiled.tree :=
  exists_of_compiled Expr.parseBinding h

end Modes

/-- The names that the source reads. -/
def roots (compiled : Compiled) : Names := compiled.tree.roots

/-- The value in an environment, and the environment after it. -/
def evaluate (compiled : Compiled) (env : Environment) :
    Except RuntimeError Value × Environment :=
  compiled.tree.eval.outcome env

/-- The same source and the same tree, positions included. -/
def same (a b : Compiled) : Bool := a.source == b.source && a.tree.same b.tree

end Compiled

/-! ## Sources evaluated at once -/

/-- Why a source has no value: it is not well formed, or its evaluation failed. -/
inductive SourceError
  | malformed (error : SyntaxError)
  | failed (error : RuntimeError)

def SourceError.message : SourceError → String
  | .malformed error => error.message
  | .failed error => error.message

/-- Compiles a binding and evaluates it. -/
def evaluateSource (source : String) (env : Environment) :
    Except SourceError Value × Environment :=
  match Compiled.binding source with
  | .error error => (.error (.malformed error), env)
  | .ok compiled =>
    match compiled.evaluate env with
    | (.ok value, after) => (.ok value, after)
    | (.error error, after) => (.error (.failed error), after)

/-! ## The cache -/

/-- Conditions compiled before, under their sources. -/
structure Cache where
  entries : List (String × Compiled)
  coherent : ∀ source compiled, Keyed.get? source entries = some compiled →
    Compiled.condition source = .ok compiled

namespace Cache

def empty : Cache := ⟨[], by simp [Keyed.get?]⟩

def size (cache : Cache) : Nat := cache.entries.length

/-- Compiles a condition, unless that was done before.  Failures are not kept. -/
def compile (cache : Cache) (source : String) : Except SyntaxError Compiled × Cache :=
  match Keyed.get? source cache.entries with
  | some compiled => (.ok compiled, cache)
  | none =>
    match hcompiled : Compiled.condition source with
    | .error error => (.error error, cache)
    | .ok compiled =>
      (.ok compiled, ⟨Keyed.insert source compiled cache.entries, by
        intro other found hfound
        by_cases hother : other = source
        · -- the entry just made
          subst hother
          rw [Keyed.get?_insert_self] at hfound
          rw [hcompiled, Option.some.inj hfound]
        · -- an entry from before
          rw [Keyed.get?_insert_of_ne hother] at hfound
          exact cache.coherent other found hfound⟩)

/-- The cache answers what compiling answers. -/
theorem compile_fst (cache : Cache) (source : String) :
    (cache.compile source).1 = Compiled.condition source := by
  unfold compile
  split
  · next compiled hfound => exact (cache.coherent source compiled hfound).symm
  · split
    · next hcompiled => exact hcompiled.symm
    · next hcompiled => exact hcompiled.symm

end Cache

end SurveyLogic
