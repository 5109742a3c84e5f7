import Mathlib.Data.List.Basic
import Mathlib.Tactic.SplitIfs
import Quasiquote.Proofs.Value.Printed

/-!
What printed trees are made of. `Value.flat` gives the pieces of a tree on one line and
`Value.pieces` those of its layout: blanks, brackets, marks, and the atoms, which are printed as a
whole. The texts of the pieces make up the source text and the layout, so what stands on a line of a
layout can be told.
-/

namespace Quasiquote

/-- A part of a printed tree. -/
inductive Piece where
  | newline
  /-- The blanks at the beginning of a line. -/
  | blanks (n : Nat)
  | opening
  | mark (text : List Char)
  /-- The blank between two items on one line. -/
  | space
  /-- A value that is printed as a whole: no list, or an empty one. -/
  | atom (v : Value)
  | closing

namespace Piece

def text : Piece → List Char
  | newline => ['\n']
  | blanks n => List.replicate n ' '
  | opening => ['(']
  | mark text => text
  | space => [' ']
  | atom v => v.source
  | closing => [')']

def isNewline : Piece → Bool
  | newline => true
  | _ => false

/-- Whether a piece is indentation, a bracket or a mark. -/
def isFrame : Piece → Bool
  | blanks _ => true
  | opening => true
  | mark _ => true
  | closing => true
  | _ => false

def textOf (ps : List Piece) : List Char := ps.flatMap text

def lines (ps : List Piece) : List (List Piece) := ps.splitOnP isNewline

theorem textOf_append (ps qs : List Piece) : textOf (ps ++ qs) = textOf ps ++ textOf qs :=
  List.flatMap_append

theorem textOf_cons (p : Piece) (ps : List Piece) : textOf (p :: ps) = p.text ++ textOf ps :=
  List.flatMap_cons

theorem lines_append_newline (ps qs : List Piece) :
    lines (ps ++ newline :: qs) = lines ps ++ lines qs :=
  List.splitOnP_append_cons ps qs rfl

theorem lines_of_forall {ps : List Piece} (h : ∀ p ∈ ps, p.isNewline = false) : lines ps = [ps] :=
  List.splitOnP_eq_singleton h

theorem lines_ne_nil (ps : List Piece) : lines ps ≠ [] := List.splitOnP_ne_nil isNewline ps

theorem intercalate_lines (ps : List Piece) :
    List.intercalate ['\n'] ((lines ps).map textOf) = textOf ps := by
  induction ps with
  | nil => rfl
  | cons p ps ih =>
      obtain ⟨line, more, hlines⟩ := List.exists_cons_of_ne_nil (lines_ne_nil ps)
      rw [lines, List.splitOnP_cons_eq_if_modifyHead, ← lines, hlines, textOf_cons, ← ih, hlines]
      cases p with
      | newline =>
          simp only [isNewline, ↓reduceIte, List.map_cons, List.intercalate_cons_cons]
          rfl
      | _ =>
          simp only [isNewline, Bool.false_eq_true, ↓reduceIte, List.modifyHead_cons, List.map_cons,
            textOf_cons]
          cases more with
          | nil => simp [List.intercalate]
          | cons next more =>
              simp only [List.map_cons, List.intercalate_cons_cons, List.append_assoc]

theorem splitOn_textOf (ps : List Piece) :
    (textOf ps).splitOn '\n' = (lines ps).flatMap fun line => (textOf line).splitOn '\n' := by
  rw [← intercalate_lines ps]
  generalize hlines : lines ps = rows
  have hne : rows ≠ [] := hlines ▸ lines_ne_nil ps
  clear hlines
  induction rows with
  | nil => exact (hne rfl).elim
  | cons row rows ih =>
      cases rows with
      | nil => simp [List.intercalate]
      | cons next rows =>
          rw [List.map_cons, List.map_cons, List.intercalate_cons_cons, List.append_assoc,
            List.singleton_append, List.splitOn_append_cons_self, ← List.map_cons,
            ih (List.cons_ne_nil next rows), List.flatMap_cons (x := row)]

theorem infix_intercalate {sep l : List Char} {ls : List (List Char)} (h : l ∈ ls) :
    l <:+: List.intercalate sep ls := by
  induction ls with
  | nil => exact nomatch h
  | cons first ls ih =>
      cases ls with
      | nil => simp_all [List.intercalate]
      | cons next ls =>
          rw [List.intercalate_cons_cons]
          rcases List.mem_cons.mp h with rfl | h
          · exact ((List.prefix_append _ _).trans (List.prefix_append _ _)).isInfix
          · exact (ih h).trans (List.suffix_append _ _).isInfix

theorem infix_of_mem_splitOn {l text : List Char} {c : Char} (h : l ∈ text.splitOn c) :
    l <:+: text := by
  have hinfix : l <:+: List.intercalate [c] (text.splitOn c) := infix_intercalate h
  rwa [List.intercalate_splitOn] at hinfix

end Piece

namespace Value

/-- Whether a value is no list, or an empty one. -/
def IsUnbreakable : Value → Prop
  | list (_ :: _) => False
  | tuple (_ :: _) => False
  | _ => True

/-- Whether a value is printed as its head and its other items in brackets. -/
inductive IsGroup : Value → Value → List Value → Prop
  | list {v : Value} {vs : List Value} (h : ¬IsMarked (v :: vs)) : IsGroup (list (v :: vs)) v vs
  | tuple (v : Value) (vs : List Value) : IsGroup (tuple (v :: vs)) v vs

theorem sizeOf_lt_of_mem_tuple {v : Value} {items : List Value} (h : v ∈ items) :
    sizeOf v < sizeOf (tuple items) := by
  have := List.sizeOf_lt_of_mem h
  simp only [Value.tuple.sizeOf_spec]
  omega

theorem IsGroup.sizeOf_lt {w v : Value} {vs : List Value} (h : IsGroup w v vs) :
    ∀ x ∈ v :: vs, sizeOf x < sizeOf w := by
  cases h with
  | list => exact fun x hx => sizeOf_lt_of_mem_list hx
  | tuple => exact fun x hx => sizeOf_lt_of_mem_tuple hx

theorem groupInduction {P : Value → Prop} (atom : ∀ v, v.IsUnbreakable → P v)
    (marked : ∀ s mark v, readerMark? s = some mark → P v → P (Value.list [sym s, v]))
    (group : ∀ w v vs, IsGroup w v vs → P v → (∀ x ∈ vs, P x) → P w) : ∀ v, P v := by
  intro v
  induction h : sizeOf v using Nat.strongRecOn generalizing v with
  | ind n ih =>
      subst h
      cases v with
      | list items =>
          cases items with
          | nil => exact atom _ trivial
          | cons v vs =>
              by_cases hmarked : IsMarked (v :: vs)
              · obtain ⟨s, mark, w, heq, hmark⟩ := hmarked
                rw [heq] at ih ⊢
                exact marked s mark w hmark (ih _ (sizeOf_lt_of_mem_list (by simp)) w rfl)
              · have hlt := (IsGroup.list hmarked).sizeOf_lt
                exact group _ v vs (.list hmarked) (ih _ (hlt v (by simp)) v rfl)
                  fun x hx => ih _ (hlt x (by simp [hx])) x rfl
      | tuple items =>
          cases items with
          | nil => exact atom _ trivial
          | cons v vs =>
              have hlt := (IsGroup.tuple v vs).sizeOf_lt
              exact group _ v vs (.tuple v vs) (ih _ (hlt v (by simp)) v rfl)
                fun x hx => ih _ (hlt x (by simp [hx])) x rfl
      | _ => exact atom _ trivial

mutual

/-- The pieces of a value on one line. -/
def flat : Value → List Piece
  | list [sym s, v] =>
      match readerMark? s with
      | some mark => .mark mark :: v.flat
      | none => .opening :: .atom (sym s) :: .space :: v.flat ++ [.closing]
  | list (v :: vs) => .opening :: v.flat ++ flatItems vs ++ [.closing]
  | tuple (v :: vs) => .opening :: v.flat ++ flatItems vs ++ [.closing]
  | v => [.atom v]
termination_by structural v => v

def flatItems : List Value → List Piece
  | [] => []
  | v :: vs => .space :: v.flat ++ flatItems vs
termination_by structural vs => vs

end

mutual

/-- The pieces of the layout of a value that starts at a column. -/
def pieces (style : LineStyle) (column : Int) : Value → List Piece
  | list [sym s, v] =>
      if column + (list [sym s, v]).source.length ≤ style.width then (list [sym s, v]).flat
      else
        match readerMark? s with
        | some mark => .mark mark :: v.pieces style (column + mark.length)
        | none =>
            .opening :: .atom (sym s) ::
              itemPieces style (column + style.indent) [v] ++ [.closing]
  | list (v :: vs) =>
      if column + (list (v :: vs)).source.length ≤ style.width then (list (v :: vs)).flat
      else
        .opening :: v.pieces style (column + 1) ++
          itemPieces style (column + style.indent) vs ++ [.closing]
  | tuple (v :: vs) =>
      if column + (tuple (v :: vs)).source.length ≤ style.width then (tuple (v :: vs)).flat
      else
        .opening :: v.pieces style (column + 1) ++
          itemPieces style (column + style.indent) vs ++ [.closing]
  | v => [.atom v]
termination_by structural v => v

def itemPieces (style : LineStyle) (column : Int) : List Value → List Piece
  | [] => []
  | v :: vs =>
      .newline :: .blanks column.toNat :: v.pieces style column ++ itemPieces style column vs
termination_by structural vs => vs

end

open Piece

theorem flat_of_isUnbreakable {v : Value} (h : v.IsUnbreakable) : v.flat = [.atom v] := by
  rcases v with _ | _ | _ | _ | _ | _ | (_ | ⟨v, vs⟩) | (_ | ⟨v, vs⟩) | _ | _ | _
  case list.cons | tuple.cons => exact h.elim
  all_goals rfl

theorem flat_marked {s : Symbol} {mark : List Char} (h : readerMark? s = some mark) (v : Value) :
    (list [sym s, v]).flat = .mark mark :: v.flat := by
  rw [flat, h]

theorem flatItems_eq_flatMap (vs : List Value) :
    flatItems vs = vs.flatMap fun v => .space :: v.flat := by
  induction vs with
  | nil => rfl
  | cons v vs ih => rw [flatItems, ih, List.flatMap_cons]

theorem IsGroup.flat_eq {w v : Value} {vs : List Value} (h : IsGroup w v vs) :
    w.flat = .opening :: v.flat ++ (vs.flatMap fun x => .space :: x.flat) ++ [.closing] := by
  rw [← flatItems_eq_flatMap]
  cases h with
  | tuple => rfl
  | list h =>
      by_cases hpair : ∃ s x, v :: vs = [sym s, x]
      · obtain ⟨s, x, heq⟩ := hpair
        obtain ⟨rfl, rfl⟩ := List.cons.inj heq
        rw [flat, readerMark?_eq_none h]
        simp [flatItems, flat]
      · rw [flat]
        rintro s x rfl rfl
        exact hpair ⟨s, x, rfl⟩

theorem spaced_cons (text : List Char) (texts : List (List Char)) :
    spaced (text :: texts) = text ++ texts.flatMap (' ' :: ·) := by
  induction texts generalizing text with
  | nil => simp [spaced]
  | cons next texts ih =>
      rw [spaced, List.intercalate_cons_cons, ← spaced, ih, List.flatMap_cons, List.append_assoc,
        List.singleton_append, List.cons_append]

theorem IsGroup.source_eq {w v : Value} {vs : List Value} (h : IsGroup w v vs) :
    w.source = '(' :: v.source ++ (vs.flatMap fun x => ' ' :: x.source) ++ [')'] := by
  have hitems : spaced ((v :: vs).map source) =
      v.source ++ vs.flatMap fun x => ' ' :: x.source := by
    rw [List.map_cons, spaced_cons, List.flatMap_map]
  cases h with
  | list h => simp only [source_plain h, hitems, List.cons_append]
  | tuple => simp only [source, sources_eq_map, hitems, List.cons_append]

theorem textOf_flat (v : Value) : textOf v.flat = v.source := by
  induction v using groupInduction with
  | atom v h => rw [flat_of_isUnbreakable h, textOf, List.flatMap_singleton, text]
  | marked s mark v h ih => rw [flat_marked h, textOf_cons, ih, source_marked h, text]
  | group w v vs h ihHead ihItems =>
      have hitems : textOf (vs.flatMap fun x => .space :: x.flat) =
          vs.flatMap fun x => ' ' :: x.source := by
        rw [textOf, List.flatMap_assoc]
        refine List.flatMap_congr fun x hx => ?_
        exact (textOf_cons .space x.flat).trans (congrArg (' ' :: ·) (ihItems x hx))
      rw [h.flat_eq, h.source_eq, List.cons_append, textOf_append, textOf_cons, textOf_append,
        ihHead, hitems]
      rfl

section

variable {style : LineStyle} {column : Int}

theorem layout_of_isUnbreakable {v : Value} (h : v.IsUnbreakable) :
    v.layout style column = v.source := by
  rcases v with _ | _ | _ | _ | _ | _ | (_ | ⟨v, vs⟩) | (_ | ⟨v, vs⟩) | _ | _ | _
  case list.cons | tuple.cons => exact h.elim
  all_goals rw [layout] <;> simp

theorem IsGroup.layout_eq {w v : Value} {vs : List Value} (h : IsGroup w v vs) :
    w.layout style column =
      if column + w.source.length ≤ style.width then w.source
      else
        '(' :: v.layout style (column + 1) ++ layoutItems style (column + style.indent) vs ++
          [')'] := by
  cases h with
  | list h => exact layout_plain h style column
  | tuple => rw [layout]

theorem pieces_of_isUnbreakable {v : Value} (h : v.IsUnbreakable) :
    v.pieces style column = [.atom v] := by
  rcases v with _ | _ | _ | _ | _ | _ | (_ | ⟨v, vs⟩) | (_ | ⟨v, vs⟩) | _ | _ | _
  case list.cons | tuple.cons => exact h.elim
  all_goals rfl

theorem pieces_marked {s : Symbol} {mark : List Char} (h : readerMark? s = some mark) (v : Value) :
    (list [sym s, v]).pieces style column =
      if column + (list [sym s, v]).source.length ≤ style.width then (list [sym s, v]).flat
      else .mark mark :: v.pieces style (column + mark.length) := by
  rw [pieces, h]

theorem IsGroup.pieces_eq {w v : Value} {vs : List Value} (h : IsGroup w v vs) :
    w.pieces style column =
      if column + w.source.length ≤ style.width then w.flat
      else
        .opening :: v.pieces style (column + 1) ++ itemPieces style (column + style.indent) vs ++
          [.closing] := by
  cases h with
  | tuple => rw [pieces]
  | list h =>
      by_cases hpair : ∃ s x, v :: vs = [sym s, x]
      · obtain ⟨s, x, heq⟩ := hpair
        obtain ⟨rfl, rfl⟩ := List.cons.inj heq
        rw [pieces, readerMark?_eq_none h]
        simp [pieces]
      · rw [pieces]
        rintro s x rfl rfl
        exact hpair ⟨s, x, rfl⟩

theorem pieces_of_fits {v : Value} (h : column + v.source.length ≤ style.width) :
    v.pieces style column = v.flat := by
  cases v using groupInduction with
  | atom v hv => rw [pieces_of_isUnbreakable hv, flat_of_isUnbreakable hv]
  | marked s mark v hmark => rw [pieces_marked hmark, if_pos h]
  | group w v vs hgroup => rw [hgroup.pieces_eq, if_pos h]

end

theorem textOf_itemPieces {style : LineStyle} {column : Int} {vs : List Value}
    (h : ∀ v ∈ vs, textOf (v.pieces style column) = v.layout style column) :
    textOf (itemPieces style column vs) = layoutItems style column vs := by
  induction vs with
  | nil => rfl
  | cons v vs ih =>
      rw [itemPieces, layoutItems, List.cons_append, List.cons_append, textOf_cons, textOf_cons,
        textOf_append, h v (by simp), ih fun x hx => h x (by simp [hx])]
      simp [text]

/-- The pieces of a layout make up its text. -/
theorem textOf_pieces (style : LineStyle) (v : Value) :
    ∀ column, textOf (v.pieces style column) = v.layout style column := by
  induction v using groupInduction with
  | atom v h =>
      intro column
      rw [pieces_of_isUnbreakable h, layout_of_isUnbreakable h, textOf, List.flatMap_singleton, text]
  | marked s mark v h ih =>
      intro column
      rw [pieces_marked h, layout_marked h]
      split_ifs
      · exact textOf_flat _
      · rw [textOf_cons, ih, text]
  | group w v vs h ihHead ihItems =>
      intro column
      rw [h.pieces_eq, h.layout_eq]
      split_ifs
      · exact textOf_flat w
      · rw [textOf_append, List.cons_append, textOf_cons, textOf_append, ihHead,
          textOf_itemPieces fun x hx => ihItems x hx _]
        rfl

end Value

end Quasiquote
