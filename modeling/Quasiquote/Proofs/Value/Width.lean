import Quasiquote.Proofs.Value.Piece

namespace Quasiquote

namespace Piece

/-- Whether a line holds a single atom besides indentation, brackets and marks. -/
def IsLone (line : List Piece) : Prop :=
  ∃ v : Value, v.IsUnbreakable ∧ line.filter (!·.isFrame) = [atom v]

/-- Whether a line is short enough, or holds a single atom. -/
def Fits (width : Int) (line : List Piece) : Prop :=
  (textOf line).length ≤ width ∨ IsLone line

def closings (n : Nat) : List Piece := List.replicate n closing

theorem length_textOf_closings (n : Nat) : (textOf (closings n)).length = n := by
  rw [textOf, closings, List.flatMap_replicate]
  simp [text]

theorem filter_of_isFrame {ps : List Piece} (h : ∀ p ∈ ps, p.isFrame = true) :
    ps.filter (!·.isFrame) = [] :=
  List.filter_eq_nil_iff.mpr fun p hp => by simp [h p hp]

theorem isFrame_of_mem_closings {n : Nat} : ∀ p ∈ closings n, p.isFrame = true := by
  intro p hp
  rw [List.eq_of_mem_replicate hp]
  rfl

theorem isNewline_of_isFrame {p : Piece} (h : p.isFrame = true) : p.isNewline = false := by
  cases p with
  | newline => exact nomatch h
  | _ => rfl

theorem isLone_framed {lead ps : List Piece} (hlead : ∀ p ∈ lead, p.isFrame = true) (n : Nat) :
    IsLone (lead ++ ps ++ closings n) ↔ IsLone ps := by
  unfold IsLone
  rw [List.filter_append, List.filter_append, filter_of_isFrame hlead,
    filter_of_isFrame isFrame_of_mem_closings, List.nil_append, List.append_nil]

/-- Whether pieces that come before a value on its line are only indentation, brackets and marks and
end at a column. -/
structure IsLead (lead : List Piece) (column : Int) : Prop where
  isFrame : ∀ p ∈ lead, p.isFrame = true
  length_eq : (textOf lead).length = column

theorem IsLead.append_singleton {lead : List Piece} {column : Int} (h : IsLead lead column)
    (p : Piece) (hp : p.isFrame = true) : IsLead (lead ++ [p]) (column + p.text.length) where
  isFrame := List.forall_mem_append.mpr ⟨h.isFrame, List.forall_mem_singleton.mpr hp⟩
  length_eq := by
    rw [textOf_append, List.length_append, Int.natCast_add, h.length_eq, textOf,
      List.flatMap_singleton]

theorem isLead_blanks {column : Int} (h : 0 ≤ column) : IsLead [.blanks column.toNat] column where
  isFrame := List.forall_mem_singleton.mpr rfl
  length_eq := by
    rw [textOf, List.flatMap_singleton, text, List.length_replicate, Int.toNat_of_nonneg h]

theorem isLead_nil : IsLead [] 0 := ⟨List.forall_mem_nil _, rfl⟩

theorem lines_unframed (ps : List Piece) : lines ([] ++ ps ++ closings 0) = lines ps := by
  rw [List.nil_append, closings, List.replicate_zero, List.append_nil]

end Piece

open Piece

/-- How many closing brackets follow an item on its line, before the items `after` it, where
`closers` follow the list. -/
def closersBehind (closers : Nat) (after : List Value) : Nat :=
  match after with
  | [] => closers + 1
  | _ :: _ => 0

namespace Value

/-- Whether a value is kept on one line if it begins at a column. -/
def IsKept (style : LineStyle) (w : Value) (column : Int) : Prop :=
  column + w.source.length ≤ style.width ∨ w.IsUnbreakable

/-- Whether a value `w` is kept on one line of the layout of a tree, where it begins at the column
`d` and `j` closing brackets follow it. The tree itself begins at a column and has some closing
brackets behind it. -/
inductive Stands (style : LineStyle) (w : Value) (d : Int) (j : Nat) : Value → Int → Nat → Prop
  | here (h : w.IsKept style d) : Stands style w d j w d j
  | marked {s : Symbol} {mark : List Char} {v : Value} {column : Int} {closers : Nat}
      (hmark : readerMark? s = some mark) (hbreak : ¬(list [sym s, v]).IsKept style column)
      (h : Stands style w d j v (column + mark.length) closers) :
      Stands style w d j (list [sym s, v]) column closers
  | head {u v : Value} {vs : List Value} {column : Int} {closers : Nat} (hgroup : IsGroup u v vs)
      (hbreak : ¬u.IsKept style column)
      (h : Stands style w d j v (column + 1) (closersBehind closers vs)) :
      Stands style w d j u column closers
  | item {u v x : Value} {before after : List Value} {column : Int} {closers : Nat}
      (hgroup : IsGroup u v (before ++ x :: after)) (hbreak : ¬u.IsKept style column)
      (h : Stands style w d j x (column + style.indent) (closersBehind closers after)) :
      Stands style w d j u column closers

/-- Whether a value of more than one atom is kept on one line of the layout of a tree, and is too
long there with the closing brackets behind it. -/
def Overhangs (style : LineStyle) (v : Value) : Prop :=
  ∃ w d j, Stands style w d j v 0 0 ∧ style.width < d + w.source.length + j ∧ ¬IsLone w.flat

theorem isNewline_of_mem_flat (v : Value) : ∀ p ∈ v.flat, p.isNewline = false := by
  induction v using groupInduction with
  | atom v h =>
      rw [flat_of_isUnbreakable h]
      exact List.forall_mem_singleton.mpr rfl
  | marked s mark v h ih =>
      rw [flat_marked h]
      exact List.forall_mem_cons.mpr ⟨rfl, ih⟩
  | group w v vs h ihHead ihItems =>
      rw [h.flat_eq]
      intro p hp
      simp only [List.cons_append, List.mem_cons, List.mem_append, List.mem_flatMap,
        List.not_mem_nil, or_false] at hp
      rcases hp with rfl | (hp | ⟨x, hx, rfl | hp⟩) | rfl
      · rfl
      · exact ihHead p hp
      · rfl
      · exact ihItems x hx p hp
      · rfl

section

variable {style : LineStyle} {w v : Value} {d column : Int} {j closers : Nat}

theorem IsKept.pieces_eq (h : v.IsKept style column) : v.pieces style column = v.flat := by
  rcases h with h | h
  · exact pieces_of_fits h
  · rw [pieces_of_isUnbreakable h, flat_of_isUnbreakable h]

theorem pieces_marked_of_not_isKept {s : Symbol} {mark : List Char}
    (hmark : readerMark? s = some mark) (h : ¬(list [sym s, v]).IsKept style column) :
    (list [sym s, v]).pieces style column =
      .mark mark :: v.pieces style (column + mark.length) := by
  rw [pieces_marked hmark, if_neg fun hfits => h (.inl hfits)]

theorem IsGroup.pieces_of_not_isKept {u : Value} {vs : List Value} (hgroup : IsGroup u v vs)
    (h : ¬u.IsKept style column) :
    u.pieces style column =
      .opening :: v.pieces style (column + 1) ++ itemPieces style (column + style.indent) vs ++
        [.closing] := by
  rw [hgroup.pieces_eq, if_neg fun hfits => h (.inl hfits)]

theorem Stands.isKept (h : Stands style w d j v column closers) : w.IsKept style d := by
  induction h with
  | here h => exact h
  | marked _ _ _ ih => exact ih
  | head _ _ _ ih => exact ih
  | item _ _ _ ih => exact ih

theorem mem_lines_items {line : List Piece} (vs : List Value) : ∀ ps : List Piece,
    line ∈ lines (ps ++ itemPieces style column vs ++ closings (closers + 1)) ↔
      line ∈ lines (ps ++ closings (closersBehind closers vs)) ∨
        ∃ before x after, vs = before ++ x :: after ∧
          line ∈ lines (.blanks column.toNat :: x.pieces style column ++
            closings (closersBehind closers after)) := by
  induction vs with
  | nil =>
      intro ps
      simp [itemPieces, closersBehind]
  | cons v vs ih =>
      intro ps
      have hsplit : ps ++ itemPieces style column (v :: vs) ++ closings (closers + 1) =
          ps ++ .newline :: (.blanks column.toNat :: v.pieces style column ++
            itemPieces style column vs ++ closings (closers + 1)) := by
        simp [itemPieces]
      have hnone : closings (closersBehind closers (v :: vs)) = [] := rfl
      rw [hsplit, lines_append_newline, List.mem_append, ih, hnone, List.append_nil]
      refine or_congr_right ⟨?_, ?_⟩
      · rintro (hline | ⟨before, x, after, rfl, hline⟩)
        · exact ⟨[], v, vs, rfl, hline⟩
        · exact ⟨v :: before, x, after, rfl, hline⟩
      · rintro ⟨before, x, after, heq, hline⟩
        obtain ⟨rfl, heq⟩ | ⟨before, rfl, rfl⟩ := List.cons_eq_append_iff.mp heq
        · cases heq
          exact .inl hline
        · exact .inr ⟨before, x, after, rfl, hline⟩

theorem mem_lines_kept {line lead : List Piece} (hlead : ∀ p ∈ lead, p.isFrame = true)
    (h : v.IsKept style column) :
    line ∈ lines (lead ++ v.pieces style column ++ closings closers) ↔
      line = lead ++ v.flat ++ closings closers := by
  rw [h.pieces_eq, lines_of_forall, List.mem_singleton]
  simp only [List.forall_mem_append]
  exact ⟨⟨fun p hp => isNewline_of_isFrame (hlead p hp), isNewline_of_mem_flat v⟩,
    fun p hp => isNewline_of_isFrame (isFrame_of_mem_closings p hp)⟩

theorem mem_lines_group {line lead : List Piece} {u : Value} {vs : List Value}
    (hgroup : IsGroup u v vs) (h : ¬u.IsKept style column) :
    line ∈ lines (lead ++ u.pieces style column ++ closings closers) ↔
      line ∈ lines (lead ++ [.opening] ++ v.pieces style (column + 1) ++
        closings (closersBehind closers vs)) ∨
      ∃ before x after, vs = before ++ x :: after ∧
        line ∈ lines ([.blanks (column + style.indent).toNat] ++
          x.pieces style (column + style.indent) ++ closings (closersBehind closers after)) := by
  have hpieces : lead ++ u.pieces style column ++ closings closers =
      lead ++ [.opening] ++ v.pieces style (column + 1) ++
        itemPieces style (column + style.indent) vs ++ closings (closers + 1) := by
    rw [hgroup.pieces_of_not_isKept h, closings, closings, List.replicate_succ]
    simp
  rw [hpieces, mem_lines_items]
  rfl

theorem isLead_item (hindent : 0 ≤ style.indent) {lead : List Piece}
    (h : IsLead lead column) :
    IsLead [.blanks (column + style.indent).toNat] (column + style.indent) := by
  have := h.length_eq
  exact isLead_blanks (by omega)

theorem IsKept.exists_stands {line lead : List Piece} (h : v.IsKept style column)
    (hlead : IsLead lead column)
    (hline : line ∈ lines (lead ++ v.pieces style column ++ closings closers)) :
    ∃ w d j lead', Stands style w d j v column closers ∧ IsLead lead' d ∧
      line = lead' ++ w.flat ++ closings j :=
  ⟨v, column, closers, lead, .here h, hlead, (mem_lines_kept hlead.isFrame h).mp hline⟩

/-- Each line of a layout is a value that is kept on one line, with indentation, brackets and marks
before it and closing brackets behind it. -/
theorem exists_stands_of_mem_lines (hindent : 0 ≤ style.indent) (v : Value) :
    ∀ {column closers lead line}, IsLead lead column →
      line ∈ lines (lead ++ v.pieces style column ++ closings closers) →
      ∃ w d j lead', Stands style w d j v column closers ∧ IsLead lead' d ∧
        line = lead' ++ w.flat ++ closings j := by
  induction v using groupInduction with
  | atom v h =>
      intro column closers lead line hlead hline
      exact IsKept.exists_stands (.inr h) hlead hline
  | marked s mark v hmark ih =>
      intro column closers lead line hlead hline
      by_cases hkept : (list [sym s, v]).IsKept style column
      · exact hkept.exists_stands hlead hline
      · rw [pieces_marked_of_not_isKept hmark hkept, List.append_cons] at hline
        obtain ⟨w, d, j, lead', hstands, hrest⟩ :=
          ih (hlead.append_singleton (.mark mark) rfl) hline
        exact ⟨w, d, j, lead', .marked hmark hkept hstands, hrest⟩
  | group u v vs hgroup ihHead ihItems =>
      intro column closers lead line hlead hline
      by_cases hkept : u.IsKept style column
      · exact hkept.exists_stands hlead hline
      · rcases (mem_lines_group hgroup hkept).mp hline with hline | ⟨before, x, after, rfl, hline⟩
        · obtain ⟨w, d, j, lead', hstands, hrest⟩ :=
            ihHead (hlead.append_singleton .opening rfl) hline
          exact ⟨w, d, j, lead', .head hgroup hkept hstands, hrest⟩
        · obtain ⟨w, d, j, lead', hstands, hrest⟩ :=
            ihItems x (by simp) (isLead_item hindent hlead) hline
          exact ⟨w, d, j, lead', .item hgroup hkept hstands, hrest⟩

theorem Stands.exists_mem_lines (hindent : 0 ≤ style.indent)
    (h : Stands style w d j v column closers) :
    ∀ {lead}, IsLead lead column →
      ∃ lead', IsLead lead' d ∧ lead' ++ w.flat ++ closings j ∈
        lines (lead ++ v.pieces style column ++ closings closers) := by
  induction h with
  | here hkept =>
      intro lead hlead
      exact ⟨lead, hlead, (mem_lines_kept hlead.isFrame hkept).mpr rfl⟩
  | marked hmark hbreak _ ih =>
      intro lead hlead
      obtain ⟨lead', hlead', hline⟩ := ih (hlead.append_singleton (.mark _) rfl)
      rw [pieces_marked_of_not_isKept hmark hbreak, List.append_cons]
      exact ⟨lead', hlead', hline⟩
  | head hgroup hbreak _ ih =>
      intro lead hlead
      obtain ⟨lead', hlead', hline⟩ := ih (hlead.append_singleton .opening rfl)
      exact ⟨lead', hlead', (mem_lines_group hgroup hbreak).mpr (.inl hline)⟩
  | item hgroup hbreak _ ih =>
      intro lead hlead
      obtain ⟨lead', hlead', hline⟩ := ih (isLead_item hindent hlead)
      exact ⟨lead', hlead', (mem_lines_group hgroup hbreak).mpr (.inr ⟨_, _, _, rfl, hline⟩)⟩

theorem fits_framed {lead : List Piece} (h : IsLead lead d) {width : Int} :
    Fits width (lead ++ w.flat ++ closings j) ↔
      d + w.source.length + j ≤ width ∨ IsLone w.flat := by
  rw [Fits, isLone_framed h.isFrame, textOf_append, textOf_append, List.length_append,
    List.length_append, length_textOf_closings, textOf_flat, Int.natCast_add, Int.natCast_add,
    h.length_eq]

theorem isLone_flat (h : v.IsUnbreakable) : IsLone v.flat := by
  refine ⟨v, h, ?_⟩
  rw [flat_of_isUnbreakable h]
  rfl

theorem exists_lead_of_mem_lines (hindent : 0 ≤ style.indent) {line : List Piece}
    (h : line ∈ lines (v.pieces style 0)) :
    ∃ w d j lead, Stands style w d j v 0 0 ∧ IsLead lead d ∧ line = lead ++ w.flat ++ closings j := by
  rw [← lines_unframed] at h
  exact exists_stands_of_mem_lines hindent v isLead_nil h

theorem fits_of_not_overhangs (hindent : 0 ≤ style.indent) (h : ¬v.Overhangs style) :
    ∀ line ∈ lines (v.pieces style 0), Fits style.width line := by
  intro line hline
  obtain ⟨w, d, j, lead, hstands, hlead, rfl⟩ := exists_lead_of_mem_lines hindent hline
  refine (fits_framed hlead).mpr ?_
  by_contra hfits
  obtain ⟨hwide, hlone⟩ := not_or.mp hfits
  exact h ⟨w, d, j, hstands, Int.not_le.mp hwide, hlone⟩

theorem not_overhangs_of_fits (hindent : 0 ≤ style.indent)
    (h : ∀ line ∈ lines (v.pieces style 0), Fits style.width line) : ¬v.Overhangs style := by
  rintro ⟨w, d, j, hstands, hwide, hlone⟩
  obtain ⟨lead, hlead, hline⟩ := hstands.exists_mem_lines hindent isLead_nil
  rw [lines_unframed] at hline
  rcases (fits_framed hlead).mp (h _ hline) with hle | hlone'
  · exact absurd hwide (Int.not_lt.mpr hle)
  · exact hlone hlone'

/-- A value that is kept on one line has room there, or is an atom, if the closing brackets behind it
are left out. -/
theorem exists_fits_append_closings (hindent : 0 ≤ style.indent) {line : List Piece}
    (h : line ∈ lines (v.pieces style 0)) :
    ∃ body n, line = body ++ closings n ∧ Fits style.width body := by
  obtain ⟨w, d, j, lead, hstands, hlead, rfl⟩ := exists_lead_of_mem_lines hindent h
  refine ⟨lead ++ w.flat, j, rfl, ?_⟩
  have hbody : Fits style.width (lead ++ w.flat ++ closings 0) :=
    (fits_framed hlead).mpr (hstands.isKept.imp (by simp) isLone_flat)
  rwa [closings, List.replicate_zero, List.append_nil] at hbody

/-- The lines of a layout, where atoms are not broken at newlines, are short enough or hold a single
atom exactly if no value that is kept on one line overhangs with the closing brackets behind it. Each
is so in any case if closing brackets at its end are left out. -/
theorem forall_fits_iff {text : List Char} (hindent : 0 ≤ style.indent)
    (h : v.laidOut style 0 = .ok text) :
    text = List.intercalate ['\n'] ((lines (v.pieces style 0)).map textOf) ∧
      ((∀ line ∈ lines (v.pieces style 0), Fits style.width line) ↔ ¬v.Overhangs style) ∧
      (∀ line ∈ lines (v.pieces style 0), ∃ body n,
        line = body ++ closings n ∧ Fits style.width body) ∧
      (¬v.Overhangs style → ∀ line ∈ text.splitOn '\n', line.length ≤ style.width ∨
        ∃ row ∈ lines (v.pieces style 0), IsLone row ∧ line <:+: textOf row) := by
  obtain ⟨-, -, rfl⟩ := laidOutWithin_eq_ok_iff.mp h
  refine ⟨?_, ⟨not_overhangs_of_fits hindent, fits_of_not_overhangs hindent⟩,
    fun line hline => exists_fits_append_closings hindent hline, ?_⟩
  · rw [intercalate_lines, textOf_pieces]
  · intro hnone line hline
    rw [← textOf_pieces, splitOn_textOf] at hline
    obtain ⟨row, hrow, hline⟩ := List.mem_flatMap.mp hline
    have hinfix : line <:+: textOf row := infix_of_mem_splitOn hline
    rcases fits_of_not_overhangs hindent hnone row hrow with hshort | hlone
    · have := hinfix.length_le
      exact .inl (by omega)
    · exact .inr ⟨row, hrow, hlone, hinfix⟩

end

/-- The tree `(a (b c))`. -/
def nested : Value :=
  list [sym ⟨"a", none⟩, list [sym ⟨"b", none⟩, sym ⟨"c", none⟩]]

theorem not_overhangs_nested : nested.laidOut ⟨8, 2⟩ 0 = .ok "(a\n  (b c))".toList ∧
    ¬nested.Overhangs ⟨8, 2⟩ := by
  have hlaidOut : nested.laidOut ⟨8, 2⟩ 0 = .ok "(a\n  (b c))".toList := rfl
  refine ⟨hlaidOut, (forall_fits_iff (by decide) hlaidOut).2.1.mp ?_⟩
  have hlines : lines (nested.pieces ⟨8, 2⟩ 0) =
      [[.opening, .atom (sym ⟨"a", none⟩)],
        [.blanks 2, .opening, .atom (sym ⟨"b", none⟩), .space, .atom (sym ⟨"c", none⟩), .closing,
          .closing]] := rfl
  rw [hlines]
  simp only [List.forall_mem_cons, List.not_mem_nil, false_implies, implies_true, and_true]
  exact ⟨.inl (by decide), .inl (by decide)⟩

/-- With room for seven characters the layout is the same, but its second line has eight characters
and holds two atoms: the bracket that closes the tree is too much. -/
theorem not_fits_nested : nested.laidOut ⟨7, 2⟩ 0 = .ok "(a\n  (b c))".toList ∧
    ∃ line ∈ lines (nested.pieces ⟨7, 2⟩ 0), textOf line = "  (b c))".toList ∧ ¬Fits 7 line := by
  refine ⟨rfl, [.blanks 2, .opening, .atom (sym ⟨"b", none⟩), .space, .atom (sym ⟨"c", none⟩),
    .closing, .closing], .tail _ (.head _), rfl, ?_⟩
  rintro (hshort | ⟨v, -, hatom⟩)
  · exact absurd hshort (by decide)
  · cases hatom

end Value

end Quasiquote
