import SurveyLogic.Proofs.Printing.Binding

/-!
# Trees in normal form and their texts

Reading undoes writing on the trees in normal form, made by hand or read from a source
(`Expr.binding_toText`).  So a text stands for one tree in normal form, up to positions.
-/

namespace SurveyLogic.Expr

/-- A tree in normal form can be read in the room there is. -/
theorem NormalForm.roomNeeded_le {tree : Expr} (h : tree.NormalForm) :
    tree.roomNeeded ≤ maxHeight := by
  -- only an empty array needs more room than its height
  rcases h.fits with hlow | ⟨hheight, hempty⟩
  · exact Nat.le_trans tree.roomNeeded_le hlow
  · have hroom := roomNeeded_eq_height tree hempty
    omega

theorem NormalForm.exists_binding {tree : Expr} (h : tree.NormalForm) :
    ∃ again, Compiled.binding tree.toText = .ok ⟨tree.toText, again⟩ ∧ again.bare = tree.bare := by
  obtain ⟨again, hbinding, hagain⟩ := binding_of_writableRoot h.writable h.roomNeeded_le
  refine ⟨again, hbinding, ?_⟩
  calc again.bare = tree.reread.bare := hagain
    _ = tree.bare := (bare_reread_iff tree).mpr h.finite

/-- **Reading undoes writing.**  A tree in normal form is read back from its text as a binding, up
to positions; so two trees in normal form with the same text are the same up to positions. -/
theorem binding_toText {tree : Expr} (h : tree.NormalForm) :
    (∃ compiled, Compiled.binding tree.toText = .ok compiled ∧
      compiled.tree.sameStructure tree = true) ∧
    ∀ other : Expr, other.NormalForm → other.toText = tree.toText →
      other.sameStructure tree = true := by
  obtain ⟨again, hbinding, hagain⟩ := h.exists_binding
  refine ⟨⟨_, hbinding, (sameStructure_iff again tree).mpr hagain⟩, ?_⟩
  intro other hother htext
  obtain ⟨again', hbinding', hagain'⟩ := hother.exists_binding
  rw [htext, hbinding] at hbinding'
  obtain rfl : again = again' := by simpa using hbinding'
  rw [sameStructure_iff, ← hagain', hagain]

/-- The tree of `order.total-net = n is between 1 and 1 and not "it's"`. -/
def orderTree : Expr :=
  .assign (.member (.name "order" 0) "total-net" 0)
    (.logical .and (.between (.name "n" 0) (.number .one 0) (.number .one 0) 0)
      (.unary .not (.text "it's" 0) 0) 0) 0

theorem binding_toText_order : orderTree.NormalForm ∧
    (∃ compiled, Compiled.binding orderTree.toText = .ok compiled ∧
      compiled.tree.sameStructure orderTree = true) ∧
    (∀ other : Expr, other.NormalForm → other.toText = orderTree.toText →
      other.sameStructure orderTree = true) := by
  have hnormal : orderTree.NormalForm := ⟨by decide, by decide, Or.inl (by decide)⟩
  exact ⟨hnormal, binding_toText hnormal⟩

end SurveyLogic.Expr
