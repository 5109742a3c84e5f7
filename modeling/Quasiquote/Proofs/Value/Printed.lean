import Quasiquote.Proofs.Template.Shape
import Quasiquote.Value.Source

namespace Quasiquote

namespace Value

/-- Whether a value is no list. -/
def IsLeaf : Value → Prop
  | list _ => False
  | _ => True

theorem treeInduction {P : Value → Prop} (leaf : ∀ v, v.IsLeaf → P v)
    (list : ∀ items, (∀ v ∈ items, P v) → P (list items)) : ∀ v, P v := by
  intro v
  induction h : sizeOf v using Nat.strongRecOn generalizing v with
  | ind n ih =>
      subst h
      cases v with
      | list items => exact list items fun w hw => ih _ (sizeOf_lt_of_mem_list hw) w rfl
      | _ => exact leaf _ trivial

mutual

/-- The values at the leaves of a tree, from left to right. -/
def leaves : Value → List Value
  | list items => leavesOfItems items
  | v => [v]
termination_by structural v => v

def leavesOfItems : List Value → List Value
  | [] => []
  | v :: vs => v.leaves ++ leavesOfItems vs
termination_by structural vs => vs

end

theorem leavesOfItems_eq_flatMap (items : List Value) :
    leavesOfItems items = items.flatMap leaves := by
  induction items with
  | nil => rfl
  | cons v vs ih => rw [leavesOfItems, ih, List.flatMap_cons]

theorem leaves_list (items : List Value) : (list items).leaves = items.flatMap leaves := by
  rw [leaves, leavesOfItems_eq_flatMap]

theorem mem_leaves_list {v w : Value} {items : List Value} (hv : v ∈ items) (hw : w ∈ v.leaves) :
    w ∈ (list items).leaves := by
  rw [leaves_list]
  exact List.mem_flatMap_of_mem hv hw

theorem leaves_of_isLeaf {v : Value} (h : v.IsLeaf) : v.leaves = [v] := by
  cases v with
  | list items => exact h.elim
  | _ => rfl

/-- Whether a value stands in a tree, at any depth. -/
inductive Within (w : Value) : Value → Prop
  | self : Within w w
  | item {v : Value} {items : List Value} (h : Within w v) (hv : v ∈ items) : Within w (list items)

theorem within_of_mem_leaves {v w : Value} : w ∈ v.leaves → Within w v := by
  induction v using treeInduction with
  | leaf v hleaf =>
      intro hw
      rw [leaves_of_isLeaf hleaf, List.mem_singleton] at hw
      exact hw ▸ .self
  | list items ih =>
      intro hw
      rw [leaves_list] at hw
      obtain ⟨v, hv, hw⟩ := List.mem_flatMap.mp hw
      exact (ih v hv hw).item hv

theorem mem_leaves_of_within {v w : Value} (hw : w.IsLeaf) (h : Within w v) : w ∈ v.leaves := by
  induction h with
  | self => simp [leaves_of_isLeaf hw]
  | item _ hv ih => exact mem_leaves_list hv ih

theorem within_list_iff {w : Value} {items : List Value} :
    Within w (list items) ↔ w = list items ∨ ∃ v ∈ items, Within w v := by
  constructor
  · rintro (_ | ⟨h, hv⟩)
    · exact Or.inl rfl
    · exact Or.inr ⟨_, hv, h⟩
  · rintro (rfl | ⟨v, hv, h⟩)
    · exact .self
    · exact h.item hv

theorem within_leaf_iff {v w : Value} (hv : v.IsLeaf) : Within w v ↔ w = v := by
  constructor
  · rintro (_ | ⟨h, hw⟩)
    · rfl
    · exact hv.elim
  · rintro rfl
    exact .self

/-- Whether a list is printed with a mark in front of its second item. -/
def IsMarked (items : List Value) : Prop :=
  ∃ s mark v, items = [sym s, v] ∧ readerMark? s = some mark

theorem printedInduction {P : Value → Prop}
    (leaf : ∀ v, v.IsLeaf → P v)
    (marked : ∀ s mark v, readerMark? s = some mark → P v → P (list [sym s, v]))
    (plain : ∀ items, ¬IsMarked items → (∀ v ∈ items, P v) → P (list items)) :
    ∀ v, P v := by
  intro v
  induction v using treeInduction with
  | leaf v hleaf => exact leaf v hleaf
  | list items ih =>
      by_cases h : IsMarked items
      · obtain ⟨s, mark, v, rfl, hmark⟩ := h
        exact marked s mark v hmark (ih v (by simp))
      · exact plain items h ih

theorem sources_eq_map (items : List Value) : sources items = items.map source := by
  induction items with
  | nil => rfl
  | cons v vs ih => rw [sources, ih, List.map_cons]

theorem source_marked {s : Symbol} {mark : List Char} (h : readerMark? s = some mark) (v : Value) :
    (list [sym s, v]).source = mark ++ v.source := by
  rw [source, h]

theorem readerMark?_eq_none {s : Symbol} {v : Value} (h : ¬IsMarked [sym s, v]) :
    readerMark? s = none := by
  cases hmark : readerMark? s with
  | none => rfl
  | some mark => exact (h ⟨s, mark, v, rfl, hmark⟩).elim

theorem source_plain {items : List Value} (h : ¬IsMarked items) :
    (list items).source = '(' :: spaced (items.map source) ++ [')'] := by
  rw [← sources_eq_map]
  by_cases hpair : ∃ s v, items = [sym s, v]
  · obtain ⟨s, v, rfl⟩ := hpair
    rw [source, readerMark?_eq_none h]
    simp [spaced, sources, source]
  · rw [source]
    rintro s v rfl
    exact hpair ⟨s, v, rfl⟩

theorem layout_of_isLeaf {v : Value} (h : v.IsLeaf) (hv : ∀ items, v ≠ tuple items)
    (style : LineStyle) (column : Int) : v.layout style column = v.source := by
  cases v with
  | list items => exact h.elim
  | tuple items => exact (hv items rfl).elim
  | _ => rw [layout] <;> simp

/-- A marked tree that does not fit is printed like its second item behind the mark, which moves it
to the right. -/
theorem layout_marked {s : Symbol} {mark : List Char} (h : readerMark? s = some mark) (v : Value)
    (style : LineStyle) (column : Int) :
    (list [sym s, v]).layout style column =
      if column + (list [sym s, v]).source.length ≤ style.width then (list [sym s, v]).source
      else mark ++ v.layout style (column + mark.length) := by
  rw [layout, h]

theorem layout_plain {v : Value} {vs : List Value} (h : ¬IsMarked (v :: vs)) (style : LineStyle)
    (column : Int) :
    (list (v :: vs)).layout style column =
      if column + (list (v :: vs)).source.length ≤ style.width then (list (v :: vs)).source
      else
        '(' :: v.layout style (column + 1) ++ layoutItems style (column + style.indent) vs ++
          [')'] := by
  by_cases hpair : ∃ s w, v :: vs = [sym s, w]
  · obtain ⟨s, w, heq⟩ := hpair
    obtain ⟨rfl, rfl⟩ := List.cons.inj heq
    rw [layout, readerMark?_eq_none h, layout_of_isLeaf (v := sym s) trivial (by simp)]
    rfl
  · rw [layout]
    rintro s w rfl rfl
    exact hpair ⟨s, w, rfl⟩

theorem layout_nil (style : LineStyle) (column : Int) :
    (list []).layout style column = (list []).source := by
  rw [layout] <;> simp

theorem columnFault?_eq_none_iff {hasRoom : Int → Bool} {column : Int} :
    columnFault? hasRoom column = none ↔ IsCountable column ∧ hasRoom column = true := by
  unfold columnFault?
  by_cases hcount : IsCountable column <;> cases hasRoom column <;> simp [hcount]

theorem laidOutWithin_eq_ok_iff {hasRoom : Int → Bool} {v : Value} {style : LineStyle} {column : Int}
    {text : List Char} :
    v.laidOutWithin hasRoom style column = .ok text ↔
      v.isWritable = true ∧
        (∀ c ∈ v.lineColumns style column, IsCountable c ∧ hasRoom c = true) ∧
          text = v.layout style column := by
  simp only [← columnFault?_eq_none_iff]
  rw [laidOutWithin, written, ← List.findSome?_eq_none_iff]
  by_cases hwritable : v.isWritable = true
  · cases hfault : (v.lineColumns style column).findSome? (columnFault? hasRoom) with
    | none => simp [hwritable, hfault, eq_comm, pure, bind, Except.pure, Except.bind]
    | some fault => simp [hwritable, hfault, pure, bind, Except.pure, Except.bind]
  · rw [if_neg hwritable]
    exact ⟨nofun, fun h => absurd h.1 hwritable⟩

end Value

end Quasiquote
