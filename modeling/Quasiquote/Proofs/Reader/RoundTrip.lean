import Quasiquote.Proofs.Reader.Reading

namespace Quasiquote

namespace Value

theorem areWritable_iff {items : List Value} :
    areWritable items = true ↔ ∀ v ∈ items, v.isWritable = true := by
  induction items with
  | nil => simp [areWritable]
  | cons v vs ih => simp [areWritable, ih]

theorem IsLegible.isWritable {v : Value} (h : v.IsLegible) : v.isWritable = true := by
  cases h with
  | int hlength =>
      unfold Value.int Value.isWritable Number.isWritable Number.textBound
      unfold Atom.digitLimit at hlength
      generalize hlimit : 4300 = k at hlength ⊢
      exact decide_eq_true ((Text.length_toDigits_le_iff (by omega)).mp hlength)
  | _ => rfl

theorem isWritable_of_leaves (v : Value) :
    (∀ w ∈ v.leaves, w.isWritable = true) → v.isWritable = true := by
  induction v using treeInduction with
  | leaf v hleaf =>
      intro h
      exact h v (by simp [leaves_of_isLeaf hleaf])
  | list items ih =>
      intro h
      rw [isWritable, areWritable_iff]
      exact fun v hv => ih v hv fun w hw => h w (mem_leaves_list hv hw)

theorem IsReadable.isWritable {v : Value} (h : v.IsReadable) : v.isWritable = true :=
  isWritable_of_leaves v fun w hw => (h.legible w hw).isWritable

theorem IsReadable.lexes_source {v : Value} (h : v.IsReadable) : Lexes v.source v.tokens :=
  (isPrinting_source v h.isToken).lexes

theorem IsReadable.lexes_layout {v : Value} (h : v.IsReadable) (style : LineStyle) (column : Int) :
    Lexes (v.layout style column) v.tokens :=
  (isPrinting_layout style v h.isToken column).lexes

/-- A readable tree is read back from its source text and from each of its layouts, and these have
the tokens of the source text. There is a layout exactly if the blanks in front of each of its lines
can be counted and the memory has room for them. -/
theorem readOne_laidOut {v : Value} (h : v.IsReadable) :
    Reader.readOne v.source = .ok v ∧ ∀ hasRoom style column,
      ((∃ text, v.laidOutWithin hasRoom style column = .ok text) ↔
        ∀ c ∈ v.lineColumns style column, IsCountable c ∧ hasRoom c = true) ∧
      ∀ text, v.laidOutWithin hasRoom style column = .ok text →
        Reader.readOne text = .ok v ∧
          ∃ ts, Reader.tokens text = .ok ts ∧ Reader.tokens v.source = .ok ts := by
  refine ⟨Reader.readOne_of_lexes h.lexes_source h, fun hasRoom style column => ⟨?_, ?_⟩⟩
  · simp only [laidOutWithin_eq_ok_iff, h.isWritable, true_and, exists_and_left, exists_eq, and_true]
  · intro text htext
    obtain ⟨-, -, rfl⟩ := laidOutWithin_eq_ok_iff.mp htext
    have hlexes := h.lexes_layout style column
    exact ⟨Reader.readOne_of_lexes hlexes h, v.tokens, Reader.tokens_of_lexes hlexes,
      Reader.tokens_of_lexes h.lexes_source⟩

/-- The tree `(a ~b "c")`. -/
def escaping : Value :=
  list [sym ⟨"a", none⟩, list [sym .unquote, sym ⟨"b", none⟩], str "c"]

theorem isReadable_escaping : escaping.IsReadable := by
  have hsym (name : String) (hword : (Symbol.mk name none).text.toList.all isSymbolChar = true)
      (hne : (Symbol.mk name none).text.toList ≠ [])
      (hread : Atom.ofWord (Symbol.mk name none).text = .ok (sym ⟨name, none⟩)) :
      (sym ⟨name, none⟩).IsReadable :=
    (IsLegible.sym (isWord_of_all hne hword) hread).isReadable
  have hlong : ¬escaping.IsFused := by
    rintro ⟨s, hs, -⟩
    simp [escaping] at hs
  refine isReadable_list hlong ?_
  simp only [List.forall_mem_cons, List.not_mem_nil, false_implies, implies_true, and_true]
  refine ⟨hsym "a" (by decide) (by decide) rfl, isReadable_list ?_ ?_, (IsLegible.str "c").isReadable⟩
  · rintro ⟨s, hs, hhead⟩
    cases hs
    exact absurd hhead (by decide)
  · simp only [List.forall_mem_cons, List.not_mem_nil, false_implies, implies_true, and_true]
    exact ⟨hsym "unquote" (by decide) (by decide) rfl, hsym "b" (by decide) (by decide) rfl⟩

theorem readOne_laidOut_escaping :
    escaping.IsReadable ∧ escaping.laidOut ⟨0, 2⟩ 0 = .ok "(a\n  ~b\n  \"c\")".toList ∧
      Reader.readOne "(a\n  ~b\n  \"c\")".toList = .ok escaping :=
  have hlaidOut : escaping.laidOut ⟨0, 2⟩ 0 = .ok "(a\n  ~b\n  \"c\")".toList := rfl
  ⟨isReadable_escaping, hlaidOut,
    (((readOne_laidOut isReadable_escaping).2 _ ⟨0, 2⟩ 0).2 _ hlaidOut).1⟩

/-- A readable tree that has no layout: its second line begins farther to the right than texts
reach. -/
theorem not_laidOut_far : escaping.IsReadable ∧
    escaping.laidOut ⟨1, 2⟩ 9223372036854775808 = .error (.arithmetic .farColumn) :=
  ⟨isReadable_escaping, rfl⟩

end Value

end Quasiquote
