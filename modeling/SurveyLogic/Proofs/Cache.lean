import Mathlib.Data.Finset.Card
import SurveyLogic.Compiled

/-!
# The cache is invisible

Asking a cache for a condition is the same as compiling it, whatever it was asked before
(`Cache.compile_fst`).  What a request leaves in the cache is the condition of its source if that
compiles, and nothing otherwise (`Cache.held?_compile`).  So after any number of requests a cache
that was empty holds the sources among them that compile, each once: `cache_invisible`.
-/

namespace SurveyLogic

namespace Cache

/-! ## Requests -/

/-- The condition that the cache holds for a source. -/
def held? (source : String) (cache : Cache) : Option Compiled := Keyed.get? source cache.entries

/-- Asks for conditions one after the other: the answers in order, and the cache after them. -/
def compileAll (cache : Cache) : List String → List (Except SyntaxError Compiled) × Cache
  | [] => ([], cache)
  | source :: sources =>
    let (answer, after) := cache.compile source
    let (answers, last) := after.compileAll sources
    (answer :: answers, last)

/-! ## One request -/

/-- A condition is put into the cache when it is compiled for the first time. -/
theorem entries_compile (cache : Cache) (source : String) : (cache.compile source).2.entries =
    match cache.held? source, Compiled.condition source with
    | none, .ok compiled => Keyed.insert source compiled cache.entries
    | _, _ => cache.entries := by
  unfold compile held?
  split
  · next hfound => rw [hfound]
  · next hnone =>
      rw [hnone]
      split
      · next herror => simp only [herror]
      · next hcompiled => simp only [hcompiled]

/-- What was held before is what compiling would find, so a request leaves the same in the cache
whether it was the first one or not. -/
theorem held?_compile (cache : Cache) (source other : String) :
    (cache.compile source).2.held? other =
      if other = source then (Compiled.condition source).toOption else cache.held? other := by
  have hcoherent := cache.coherent source
  rw [held?, entries_compile]
  by_cases heq : other = source
  · subst heq
    rw [if_pos rfl]
    cases hfound : cache.held? other with
    | some compiled =>
        rw [hcoherent compiled hfound]
        exact hfound
    | none =>
        cases Compiled.condition other with
        | error error => exact hfound
        | ok compiled => exact Keyed.get?_insert_self _ _ _
  · rw [if_neg heq]
    split
    · exact Keyed.get?_insert_of_ne heq _ _
    · rfl

theorem ordered_compile {cache : Cache} (h : Keyed.Ordered cache.entries) (source : String) :
    Keyed.Ordered (cache.compile source).2.entries := by
  rw [entries_compile]
  split
  · exact Keyed.ordered_insert h _ _
  · exact h

/-! ## All requests -/

theorem compileAll_fst (cache : Cache) (sources : List String) :
    (cache.compileAll sources).1 = sources.map Compiled.condition := by
  induction sources generalizing cache with
  | nil => rfl
  | cons source sources ih =>
      rw [compileAll, List.map_cons, ← cache.compile_fst, ← ih (cache.compile source).2]

theorem held?_compileAll (cache : Cache) (sources : List String) (other : String) :
    (cache.compileAll sources).2.held? other =
      if other ∈ sources then (Compiled.condition other).toOption else cache.held? other := by
  induction sources generalizing cache with
  | nil => simp [compileAll]
  | cons source sources ih =>
      refine (ih (cache.compile source).2).trans ?_
      rw [held?_compile]
      by_cases hlater : other ∈ sources
      · simp [hlater]
      · by_cases heq : other = source
        · simp [heq]
        · simp [hlater, heq]

theorem ordered_compileAll {cache : Cache} (h : Keyed.Ordered cache.entries)
    (sources : List String) : Keyed.Ordered (cache.compileAll sources).2.entries := by
  induction sources generalizing cache with
  | nil => exact h
  | cons source sources ih => exact ih (ordered_compile h source)

/-- The size counts the sources that are held. -/
theorem size_eq_card {cache : Cache} (h : Keyed.Ordered cache.entries) {sources : Finset String}
    (hheld : ∀ source, source ∈ sources ↔ (cache.held? source).isSome) :
    cache.size = sources.card := by
  have hnames : (cache.entries.map (·.1)).toFinset = sources := by
    ext source
    rw [List.mem_toFinset, hheld, Option.isSome_iff_exists, List.mem_map]
    simp [held?, Keyed.get?_eq_some_iff h]
  rw [← hnames, List.toFinset_card_of_nodup h.nodup_names, List.length_map, size]

end Cache

/-- **The cache is invisible.**  Whatever is asked for in whatever order, every answer is what
compiling that source answers, be it a condition or an error.  A cache that was empty before then
holds what compiling gives for the sources that compile, and nothing for the others.  Its size is
the number of distinct sources that compile. -/
theorem cache_invisible (sources : List String) :
    (Cache.empty.compileAll sources).1 = sources.map Compiled.condition ∧
    (∀ source compiled, (Cache.empty.compileAll sources).2.held? source = some compiled ↔
      source ∈ sources ∧ Compiled.condition source = .ok compiled) ∧
    (Cache.empty.compileAll sources).2.size =
      (sources.filter fun source => (Compiled.condition source).toOption.isSome).toFinset.card := by
  have hheld : ∀ source, (Cache.empty.compileAll sources).2.held? source =
      if source ∈ sources then (Compiled.condition source).toOption else none :=
    Cache.held?_compileAll Cache.empty sources
  refine ⟨Cache.compileAll_fst _ sources, fun source compiled => ?_, ?_⟩
  · rw [hheld, Option.ite_none_right_eq_some]
    refine and_congr_right fun _ => ?_
    cases Compiled.condition source <;> simp [Except.toOption]
  · have hempty : Keyed.Ordered Cache.empty.entries := List.Pairwise.nil
    refine Cache.size_eq_card (Cache.ordered_compileAll hempty sources) fun source => ?_
    rw [List.mem_toFinset, List.mem_filter, hheld]
    split <;> simp [*]

end SurveyLogic
