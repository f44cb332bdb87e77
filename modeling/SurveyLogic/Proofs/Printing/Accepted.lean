import SurveyLogic.Proofs.Printing.Binding

/-!
# Sources read, written and read again

Every tree that is read from a source is writable: its tokens come from a text, and its operands sit
at the levels of their rules.  So it can be read back from its own text
(`Compiled.binding_of_accepted`).  What comes back is the same tree, up to positions, unless a
numeral of the source was too large for a finite number.
-/

namespace SurveyLogic

/-! ## Scanned tokens are writable -/

theorem Number.nearestMagnitude_le (numerator denominator : Nat) :
    nearestMagnitude numerator denominator ≤ infiniteMagnitude :=
  Nat.min_le_left _ _

theorem Decimal.nearestMagnitude_le (decimal : Decimal) :
    decimal.nearestMagnitude ≤ Number.infiniteMagnitude := by
  unfold nearestMagnitude
  dsimp only
  split
  · exact Nat.zero_le _
  · split
    · split
      · exact Nat.le_refl _
      · exact Number.nearestMagnitude_le _ _
    · split
      · exact Nat.zero_le _
      · exact Number.nearestMagnitude_le _ _

/-- A numeral has no sign and is no NaN, though it may be infinite. -/
theorem Token.writable_ofNumeral (whole fraction : List Char) :
    (Token.number (.ofNumeral whole fraction)).writable = true := by
  have hle := (Decimal.ofDigits whole fraction 0).nearestMagnitude_le
  unfold Number.ofNumeral Decimal.nearest
  generalize (Decimal.ofDigits whole fraction 0).nearestMagnitude = magnitude at *
  have hlt : magnitude < 2 ^ 63 := by
    unfold Number.infiniteMagnitude at hle
    omega
  have hbits : (Number.ofMagnitude false magnitude).bits.toNat = magnitude := by
    simp only [Number.ofMagnitude, Bool.false_eq_true, if_false]
    exact UInt64.toNat_ofNat_of_lt' (Nat.lt_of_lt_of_le hlt (by decide))
  have hmagnitude : (Number.ofMagnitude false magnitude).magnitude = magnitude := by
    rw [Number.magnitude, hbits, Nat.mod_eq_of_lt hlt]
  have hnan : (Number.ofMagnitude false magnitude).isNaN = false := by
    rw [Number.isNaN, hmagnitude, decide_eq_false_iff_not]
    omega
  have hsign : (Number.ofMagnitude false magnitude).isNegative = false := by
    rw [Number.isNegative, hbits, decide_eq_false_iff_not]
    omega
  rw [writable, hnan, hsign]
  rfl

theorem Token.eq_of_ofWord_eq_name {word word' : String} (h : Token.ofWord word = .name word') :
    word' = word := by
  unfold ofWord at h
  split at h <;> first
    | contradiction
    | exact (Token.name.inj h).symm

theorem Token.writable_ofWord {word : String} (h : Text.isName word.toList = true) :
    (Token.ofWord word).writable = true := by
  cases hword : Token.ofWord word with
  | name word' =>
      obtain rfl := eq_of_ofWord_eq_name hword
      rw [writable, h, Bool.true_and, decide_eq_true_iff]
      exact hword
  | number value =>
      unfold ofWord at hword
      split at hword <;> contradiction
  | text value =>
      unfold ofWord at hword
      split at hword <;> contradiction
  | truth value => rfl
  | keyword word => rfl
  | symbol sign => rfl

/-- A text without one of the quotes can be written in it. -/
theorem Token.writable_text {quote : Char} {content : List Char}
    (hquote : quote = '"' ∨ quote = '\'') (hcontent : quote ∉ content) :
    (Token.text (String.ofList content)).writable = true := by
  rw [writable, String.toList_ofList, Bool.not_eq_true', Bool.and_eq_false_iff]
  rcases hquote with rfl | rfl
  · exact Or.inl (by simpa using hcontent)
  · exact Or.inr (by simpa using hcontent)

theorem Piece.exists_of_numeral (cs : List Char) :
    ∃ whole fraction chars,
      (numeral cs).1 = .token (.number (.ofNumeral whole fraction)) chars := by
  unfold numeral
  dsimp only
  split
  · split
    · exact ⟨_, _, _, rfl⟩
    · exact ⟨_, _, _, rfl⟩
  · exact ⟨_, _, _, rfl⟩

theorem Piece.exists_of_symbol {c : Char} {cs : List Char} {token : Token}
    (h : (symbol c cs).1.token? = some token) : ∃ sign, token = .symbol sign := by
  have hsingle : ∀ cs, (symbol.single c cs).1.token? = some token →
      ∃ sign, token = .symbol sign := by
    intro cs h
    unfold symbol.single at h
    split at h
    · exact ⟨_, (Option.some.inj h).symm⟩
    · contradiction
  unfold symbol at h
  split at h
  · split at h
    · exact ⟨_, (Option.some.inj h).symm⟩
    · exact hsingle _ h
  · exact hsingle _ h

theorem Token.writable_of_first? {c : Char} {cs rest : List Char} {piece : Piece} {token : Token}
    (h : Piece.first? c cs = some (piece, rest)) (htoken : piece.token? = some token) :
    token.writable = true := by
  unfold Piece.first? at h
  split at h
  · obtain ⟨whole, fraction, chars, hpiece⟩ := Piece.exists_of_numeral (c :: cs)
    rw [Option.some.inj h] at hpiece
    obtain rfl : piece = _ := hpiece
    obtain rfl := Option.some.inj htoken
    exact writable_ofNumeral whole fraction
  · split at h
    · next hstart =>
        obtain ⟨rfl, -⟩ := Prod.mk.inj (Option.some.inj h)
        obtain rfl := Option.some.inj htoken
        apply writable_ofWord
        rw [String.toList_ofList]
        exact Piece.isName_word hstart
    · split at h
      · next hquote =>
          unfold Piece.literal? at h
          dsimp only at h
          split at h
          · contradiction
          · obtain ⟨rfl, -⟩ := Prod.mk.inj (Option.some.inj h)
            obtain rfl := Option.some.inj htoken
            refine writable_text hquote fun hmem => ?_
            -- what is between two quotes has none of them in it
            have hall := List.all_eq_true.mp (List.all_takeWhile (p := (· ≠ c)) (l := cs)) c hmem
            simp at hall
      · obtain ⟨rfl, -⟩ := Prod.mk.inj (Option.some.inj h)
        obtain ⟨sign, rfl⟩ := Piece.exists_of_symbol htoken
        rfl

theorem Token.writable_of_cut (cs : List Char) :
    ∀ token ∈ (Piece.cut cs).1.filterMap Piece.token?, token.writable = true := by
  fun_induction Piece.cut cs with
  | case1 => simp
  | case2 => simp
  | case3 c cs piece rest hfirst tail ih =>
      intro token hmem
      rw [List.mem_filterMap] at hmem
      obtain ⟨other, hother, htoken⟩ := hmem
      rcases List.mem_cons.mp hother with rfl | htail
      · exact writable_of_first? hfirst htoken
      · exact ih token (List.mem_filterMap.mpr ⟨other, htail, htoken⟩)

theorem Token.writable_of_scan {source : String} {lexemes : List Lexeme}
    (h : Lexeme.scan source = .ok lexemes) : ∀ lexeme ∈ lexemes, lexeme.token.writable = true := by
  unfold Lexeme.scan at h
  dsimp only at h
  split at h
  · obtain rfl := Except.ok.inj h
    intro lexeme hmem
    apply writable_of_cut source.toList
    rw [← map_token_place 0]
    exact List.mem_map_of_mem hmem
  · contradiction

/-! ## Derived trees are writable -/

namespace Expr

theorem writable_of_derivesMember {lexemes : List Lexeme} {tree : Expr}
    (h : DerivesMember lexemes tree) (hlexemes : ∀ lexeme ∈ lexemes, lexeme.token.writable = true) :
    tree.writable = true := by
  induction h with
  | name word position => exact hlexemes _ List.mem_cons_self
  | @property tokens object property position after hobject ih =>
      have hbefore := ih fun lexeme hmem => hlexemes lexeme (List.mem_append_left _ hmem)
      have hproperty := hlexemes ⟨.name property, after⟩ (by simp)
      simp only [writable, Bool.and_eq_true]
      exact ⟨⟨path?_of_derivesMember hobject, hbefore⟩, hproperty⟩

theorem level_of_path? {tree : Expr} (h : tree.path?.isSome = true) : tree.level = .unary := by
  cases tree <;> first
    | rfl
    | simp [path?] at h

theorem sitsAt_of_level {tree : Expr} {level : Level} (h : tree.level.Within level) :
    tree.sitsAt level = true :=
  decide_eq_true h

theorem sitsAt_of_operand {tree : Expr} {level : Level} (h : tree.sitsAt level.operand = true) :
    tree.sitsAt level = true := by
  have hwithin : tree.level.Within level.operand := of_decide_eq_true h
  exact sitsAt_of_level (hwithin.trans level.operand_within)

mutual

/-- **A derived tree is writable** and sits at its level, if its tokens can be written. -/
theorem writable_of_derives {level : Level} {lexemes : List Lexeme} {tree : Expr} :
    Derives level lexemes tree → (∀ lexeme ∈ lexemes, lexeme.token.writable = true) →
    tree.sitsAt level = true ∧ tree.writable = true
  | .number .., hlexemes | .text .., hlexemes | .truth .., hlexemes =>
    ⟨rfl, hlexemes _ List.mem_cons_self⟩
  | .member h, hlexemes => by
    refine ⟨?_, writable_of_derivesMember h hlexemes⟩
    rw [sitsAt, level_of_path? (path?_of_derivesMember h)]
    rfl
  | .group _ _ h, hlexemes => by
    have hinner := writable_of_derives h fun lexeme hmem => hlexemes lexeme (by simp [hmem])
    exact ⟨rfl, hinner.2⟩
  | .emptyArray .., _ => ⟨rfl, rfl⟩
  | .array _ _ h, hlexemes => by
    have hinner := allWritable_of_derivesAll h fun lexeme hmem => hlexemes lexeme (by simp [hmem])
    exact ⟨rfl, hinner⟩
  | .unary _ h, hlexemes => by
    have hoperand := writable_of_derives h fun lexeme hmem => hlexemes lexeme (by simp [hmem])
    refine ⟨rfl, ?_⟩
    rw [writable, hoperand.1, hoperand.2]
    rfl
  | .power _ hbase hexponent, hlexemes => by
    have hleft := writable_of_derives hbase fun lexeme hmem => hlexemes lexeme (by simp [hmem])
    have hright := writable_of_derives hexponent fun lexeme hmem => hlexemes lexeme (by simp [hmem])
    refine ⟨rfl, ?_⟩
    simp only [writable, Bool.and_eq_true]
    exact ⟨⟨⟨hleft.1, hright.1⟩, hleft.2⟩, hright.2⟩
  | .binary hoperator htighter _ _ hbefore hafter, hlexemes => by
    have hleft := writable_of_derives hbefore fun lexeme hmem => hlexemes lexeme (by simp [hmem])
    have hright := writable_of_derives hafter fun lexeme hmem => hlexemes lexeme (by simp [hmem])
    obtain ⟨hpower, rfl⟩ := Level.mem_operators_iff.mp hoperator
    obtain ⟨-, rfl⟩ := Level.tighter?_eq_some_iff.mp htighter
    -- the grammar has derived the operands at the levels where the writer wants them
    refine ⟨sitsAt_of_level (Level.within_refl _), ?_⟩
    simp only [writable, Bool.and_eq_true, BinaryOperator.leftLevel, BinaryOperator.rightLevel,
      if_neg hpower]
    exact ⟨⟨⟨hleft.1, hright.1⟩, hleft.2⟩, hright.2⟩
  | .between _ _ _ hbefore hfirst hsecond, hlexemes => by
    have hsubject := writable_of_derives hbefore fun lexeme hmem => hlexemes lexeme (by simp [hmem])
    have hlower := writable_of_derives hfirst fun lexeme hmem => hlexemes lexeme (by simp [hmem])
    have hupper := writable_of_derives hsecond fun lexeme hmem => hlexemes lexeme (by simp [hmem])
    refine ⟨rfl, ?_⟩
    simp only [writable, Bool.and_eq_true]
    exact ⟨⟨⟨⟨⟨hsubject.1, hlower.1⟩, hupper.1⟩, hsubject.2⟩, hlower.2⟩, hupper.2⟩
  | .and _ hbefore hafter, hlexemes | .or _ hbefore hafter, hlexemes => by
    have hleft := writable_of_derives hbefore fun lexeme hmem => hlexemes lexeme (by simp [hmem])
    have hright := writable_of_derives hafter fun lexeme hmem => hlexemes lexeme (by simp [hmem])
    refine ⟨rfl, ?_⟩
    simp only [writable, Bool.and_eq_true]
    exact ⟨⟨⟨hleft.1, hright.1⟩, hleft.2⟩, hright.2⟩
  | .operand htighter h, hlexemes => by
    have htight := writable_of_derives h hlexemes
    obtain ⟨-, rfl⟩ := Level.tighter?_eq_some_iff.mp htighter
    exact ⟨sitsAt_of_operand htight.1, htight.2⟩

theorem allWritable_of_derivesAll {lexemes : List Lexeme} {trees : List Expr} :
    DerivesAll lexemes trees → (∀ lexeme ∈ lexemes, lexeme.token.writable = true) →
    allWritable trees = true
  | .one h, hlexemes => by
    have htree := writable_of_derives h hlexemes
    rw [allWritable, htree.2]
    rfl
  | .more _ h hothers, hlexemes => by
    have htree := writable_of_derives h fun lexeme hmem => hlexemes lexeme (by simp [hmem])
    have hrest := allWritable_of_derivesAll hothers fun lexeme hmem =>
      hlexemes lexeme (by simp [hmem])
    rw [allWritable, htree.2, hrest]
    rfl

end

/-! ## Accepted sources -/

theorem writableRoot_of_writable {tree : Expr} (h : tree.writable = true) :
    tree.writableRoot = true := by
  cases tree with
  | assign target value position => simp [writable] at h
  | _ => exact h

theorem writableRoot_of_parse {lexemes : List Lexeme} {tree : Expr}
    (h : parse lexemes = .ok tree) (hlexemes : ∀ lexeme ∈ lexemes, lexeme.token.writable = true) :
    tree.writableRoot = true ∧ tree.roomNeeded ≤ maxHeight := by
  obtain ⟨hsentence, hroom⟩ := sentence_of_parse h
  exact ⟨writableRoot_of_writable (writable_of_derives hsentence hlexemes).2, hroom⟩

theorem writableRoot_of_parseBinding {lexemes : List Lexeme} {tree : Expr}
    (h : parseBinding lexemes = .ok tree)
    (hlexemes : ∀ lexeme ∈ lexemes, lexeme.token.writable = true) :
    tree.writableRoot = true ∧ tree.roomNeeded ≤ maxHeight := by
  obtain ⟨hsentence, hroom⟩ := bindingSentence_of_parseBinding h
  refine ⟨?_, hroom⟩
  cases hsentence with
  | assign position htarget hvalue =>
      have hpath := writable_of_derivesMember htarget fun lexeme hmem =>
        hlexemes lexeme (List.mem_append_left _ hmem)
      have hwritable := writable_of_derives hvalue fun lexeme hmem =>
        hlexemes lexeme (List.mem_append_right _ (List.mem_cons_of_mem _ hmem))
      rw [writableRoot, path?_of_derivesMember htarget, hpath, hwritable.2]
      rfl
  | condition _ hsentence =>
      exact writableRoot_of_writable (writable_of_derives hsentence hlexemes).2

end Expr

namespace Compiled

/-- The tree of an accepted source is writable, and there is room for it. -/
theorem writableRoot_of_accepted {source : String} {compiled : Compiled}
    (h : condition source = .ok compiled ∨ binding source = .ok compiled) :
    compiled.tree.writableRoot = true ∧ compiled.tree.roomNeeded ≤ Expr.maxHeight := by
  rcases h with hcondition | hbinding
  · obtain ⟨lexemes, hscan, hparse⟩ := parse_of_condition hcondition
    exact Expr.writableRoot_of_parse hparse (Token.writable_of_scan hscan)
  · obtain ⟨lexemes, hscan, hparse⟩ := parseBinding_of_binding hbinding
    exact Expr.writableRoot_of_parseBinding hparse (Token.writable_of_scan hscan)

/-- **An accepted source, written and read again.**  The text of its tree is always accepted as a
binding.  The tree is the one before, up to positions, exactly if its numbers are finite; an
infinite number comes back as the name `inf`. -/
theorem binding_of_accepted {source : String} {compiled : Compiled}
    (h : condition source = .ok compiled ∨ binding source = .ok compiled) :
    ∃ again, binding compiled.tree.toText = .ok again ∧
      again.tree.sameStructure compiled.tree.reread = true ∧
      (again.tree.sameStructure compiled.tree = true ↔ compiled.tree.numbersFinite = true) := by
  obtain ⟨hwritable, hroom⟩ := writableRoot_of_accepted h
  obtain ⟨again, hbinding, hagain⟩ := Expr.binding_of_writableRoot hwritable hroom
  refine ⟨⟨_, again⟩, hbinding, ?_, ?_⟩
  · exact (Expr.sameStructure_iff _ _).mpr hagain
  · rw [Expr.sameStructure_iff, ← Expr.bare_reread_iff]
    dsimp only
    rw [hagain]

/-- The digits of `10 ^ 309`, which is beyond the largest finite number. -/
def hugeDigits : List Char := '1' :: List.replicate 309 '0'

/-- A source of digits alone is the number they write. -/
theorem condition_digits {digits : List Char} (hne : digits ≠ [])
    (hdigits : ∀ c ∈ digits, Text.isDigit c = true) :
    ∃ position, condition (String.ofList digits) =
      .ok ⟨String.ofList digits, .number (.ofNumeral digits []) position⟩ := by
  have htext : (String.ofList digits).toList = numeralChars digits [] ++ [] := by
    simp [numeralChars]
  have hscanned : Scanned (String.ofList digits).toList [.number (.ofNumeral digits [])] := by
    rw [htext]
    exact scanned_nil.numeral hne hdigits (by simp) (by simp)
  obtain ⟨lexemes, hscan, htokens⟩ := hscanned.scan
  obtain ⟨⟨_, position⟩, rfl, rfl⟩ := List.map_eq_singleton_iff.mp htokens
  have hsentence : Sentence _ _ :=
    (Derives.number (.ofNumeral digits []) position).of_within (Level.within_or _)
  have hroom : 1 ≤ Expr.maxHeight := by decide
  refine ⟨position, ?_⟩
  unfold condition
  rw [hscan, ok_bind, Expr.parse_of_sentence hsentence hroom]
  rfl

theorem binding_of_accepted_huge : ∃ compiled,
    condition (String.ofList hugeDigits) = .ok compiled ∧
    compiled.tree.toText = "inf" ∧ compiled.tree.numbersFinite = false ∧
    ∃ again, binding compiled.tree.toText = .ok again ∧
      again.tree.sameStructure compiled.tree.reread = true ∧
      again.tree.sameStructure compiled.tree = false := by
  have hne : hugeDigits ≠ [] := List.cons_ne_nil _ _
  have hdigits : ∀ c ∈ hugeDigits, Text.isDigit c = true := by
    intro c hc
    rcases List.mem_cons.mp hc with rfl | hzero
    · rfl
    · rw [List.eq_of_mem_replicate hzero]
      rfl
  obtain ⟨position, hcondition⟩ := condition_digits hne hdigits
  have hinfinite : (Number.ofNumeral hugeDigits []).isFinite = false := by decide +kernel
  have htext : (Number.ofNumeral hugeDigits []).toText = "inf" := by decide +kernel
  obtain ⟨again, hbinding, hreread, hsame⟩ := binding_of_accepted (Or.inl hcondition)
  refine ⟨_, hcondition, htext, hinfinite, again, hbinding, hreread, ?_⟩
  rw [Expr.numbersFinite, hinfinite] at hsame
  simpa using hsame

end Compiled

end SurveyLogic
