import Mathlib.Algebra.Order.BigOperators.Group.List
import Quasiquote.Proofs.Reader.Accepted

namespace Quasiquote

namespace Value

/-- The leaves that the tokens of a printed tree stand for. -/
def readLeaves (v : Value) : List Value := v.tokens.flatMap Token.leaves

theorem IsLegible.leaves_leafToken {v : Value} (h : v.IsLegible) : v.leafToken.leaves = [v] := by
  rw [Reader.leaves_of_role (h.role false)]
  exact leaves_of_isLeaf h.isToken.isLeaf

theorem IsInfinite.leaves_leafToken {v : Value} (h : v.IsInfinite) :
    ∃ s, v.leafToken.leaves = [sym s] := by
  obtain ⟨x, negative, rfl, hparts⟩ := h
  have htoken : (num (.float x)).leafToken = ⟨.symbol, if negative then "-inf" else "inf"⟩ := by
    rw [leafToken, source, Number.text, Binary64.text, hparts, String.ofList_toList]
    rintro s ⟨⟩
  refine ⟨⟨if negative then "-inf" else "inf", none⟩, ?_⟩
  rw [htoken]
  cases negative <;> rfl

theorem readLeaves_of_isLeaf {v : Value} (h : v.IsLeaf) : v.readLeaves = v.leafToken.leaves := by
  rw [readLeaves, tokens_of_isLeaf h, List.flatMap_singleton]

theorem leaves_markToken {s : Symbol} {mark : List Char} (h : readerMark? s = some mark) :
    (markToken mark).leaves = [sym s] :=
  Reader.leaves_of_role (Reader.role_markToken h false)

theorem readLeaves_head {s : Symbol} {mark : List Char} (h : readerMark? s = some mark) :
    (sym s).readLeaves = [sym s] := by
  rw [readLeaves_of_isLeaf (v := sym s) trivial]
  unfold readerMark? at h
  split_ifs at h <;> subst s <;> rfl

theorem readLeaves_list {items : List Value} (h : ¬(list items).IsFused) :
    (list items).readLeaves = items.flatMap readLeaves := by
  by_cases hmarked : IsMarked items
  · obtain ⟨s, mark, v, rfl, hmark⟩ := hmarked
    rw [readLeaves, tokens_marked hmark h, List.flatMap_cons, leaves_markToken hmark]
    rw [List.flatMap_cons, readLeaves_head hmark, List.flatMap_singleton]
    rfl
  · have hopening : Token.leaves ⟨.opening, "("⟩ = [] := rfl
    have hclosing : Token.leaves ⟨.closing, ")"⟩ = [] := rfl
    rw [readLeaves, tokens_plain hmarked]
    simp only [List.cons_append, List.flatMap_cons, List.flatMap_append, List.flatMap_nil, hopening,
      hclosing, List.nil_append, List.append_nil, List.flatMap_assoc]
    rfl

def isSplicingHead : Value → Bool
  | sym s => s = .unquoteSplicing
  | _ => false

/-- How many splicing marks there are among some leaves. -/
def splicings (leaves : List Value) : Nat := leaves.countP isSplicingHead

theorem splicings_flatMap (f : Value → List Value) (items : List Value) :
    splicings (items.flatMap f) = (items.map fun v => splicings (f v)).sum := by
  rw [splicings, List.countP_flatMap]
  rfl

theorem IsFused.splicings_lt {v : Value} (h : v.IsFused) :
    splicings v.leaves < splicings v.readLeaves := by
  obtain ⟨s, rfl, hhead⟩ := h
  obtain ⟨rest, hrest⟩ := List.head?_eq_some_iff.mp hhead
  have hs : s ≠ .unquoteSplicing := by
    rintro rfl
    exact absurd hhead (by decide)
  have hleaves : splicings (list [sym .unquote, sym s]).leaves = 0 := by
    have hhead : Symbol.unquote ≠ .unquoteSplicing := by decide
    simp [splicings, leaves_list, leaves_of_isLeaf (v := sym _) trivial, isSplicingHead, hs, hhead]
  have hmark : Token.leaves ⟨.unquote, "~@"⟩ = [sym .unquoteSplicing] := rfl
  rw [hleaves, readLeaves, tokens_fused hrest, List.flatMap_cons, hmark]
  simp [splicings, isSplicingHead]

theorem splicings_le (v : Value) : v.IsAccepted → splicings v.leaves ≤ splicings v.readLeaves := by
  induction v using treeInduction with
  | leaf v hleaf =>
      intro h
      rw [leaves_of_isLeaf hleaf, readLeaves_of_isLeaf hleaf]
      rcases h v (by simp [leaves_of_isLeaf hleaf]) with hv | ⟨x, negative, rfl, -⟩
      · rw [hv.leaves_leafToken]
      · exact Nat.zero_le _
  | list items ih =>
      intro h
      by_cases hfused : (list items).IsFused
      · exact hfused.splicings_lt.le
      · rw [leaves_list, readLeaves_list hfused, splicings_flatMap, splicings_flatMap]
        exact List.sum_le_sum fun v hv => ih v hv (h.item hv)

/-- A mark that runs together with its argument shows in the number of splicing marks, wherever in
a tree it stands. -/
theorem splicings_lt {v w : Value} (hw : Within w v) (hfused : w.IsFused) (h : v.IsAccepted) :
    splicings v.leaves < splicings v.readLeaves := by
  induction hw with
  | self => exact hfused.splicings_lt
  | @item v items hw hv ih =>
      by_cases hlist : (list items).IsFused
      · exact hlist.splicings_lt
      · rw [leaves_list, readLeaves_list hlist, splicings_flatMap, splicings_flatMap]
        exact List.sum_lt_sum _ _ (fun u hu => splicings_le u (h.item hu)) ⟨v, hv, ih (h.item hv)⟩

/-- If no mark runs together with its argument, each leaf has a token of its own. -/
theorem readLeaves_eq (v : Value) : (∀ w, Within w v → ¬w.IsFused) →
    v.readLeaves = v.leaves.flatMap fun w => w.leafToken.leaves := by
  induction v using treeInduction with
  | leaf v hleaf =>
      intro _
      rw [readLeaves_of_isLeaf hleaf, leaves_of_isLeaf hleaf, List.flatMap_singleton]
  | list items ih =>
      intro h
      rw [readLeaves_list (h _ .self), leaves_list, List.flatMap_assoc]
      exact List.flatMap_congr fun v hv => ih v hv fun w hw => h w (hw.item hv)

theorem IsLegible.not_isInfinite {v : Value} (h : v.IsLegible) : ¬v.IsInfinite := by
  rintro ⟨x, negative, rfl, hparts⟩
  cases h with
  | float hfinite => cases hfinite.symm.trans hparts

theorem IsReadable.not_infinite {v w : Value} (h : v.IsReadable) (hw : Within w v) :
    ¬w.IsInfinite := fun hinfinite =>
  (h.legible w (mem_leaves_of_within hinfinite.isToken.isLeaf hw)).not_isInfinite hinfinite

theorem not_isInfinite_of_mem_readLeaves {v w : Value} (h : v.IsAccepted)
    (hfused : ∀ w, Within w v → ¬w.IsFused) (hw : w ∈ v.readLeaves) : ¬w.IsInfinite := by
  rw [readLeaves_eq v hfused] at hw
  obtain ⟨u, hu, hw⟩ := List.mem_flatMap.mp hw
  rcases h u hu with hlegible | hinfinite
  · rw [hlegible.leaves_leafToken, List.mem_singleton] at hw
    rw [hw]
    exact hlegible.not_isInfinite
  · obtain ⟨s, hs⟩ := hinfinite.leaves_leafToken
    rw [hs, List.mem_singleton] at hw
    rw [hw]
    rintro ⟨x, negative, heq, -⟩
    cases heq

theorem IsAccepted.isWritable {v : Value} (h : v.IsAccepted) : v.isWritable = true := by
  refine isWritable_of_leaves v fun w hw => ?_
  rcases h w hw with hlegible | ⟨x, negative, rfl, -⟩
  · exact hlegible.isWritable
  · rfl

end Value

namespace Reader

open Value

/-- The source texts of the forms, each on a line of its own. -/
def printed (forms : List Value) : List Char := List.intercalate ['\n'] (forms.map source)

theorem lexes_printed {forms : List Value} (h : ∀ v ∈ forms, v.IsAccepted) :
    Lexes (printed forms) (forms.flatMap Value.tokens) :=
  lexes_intercalate (by decide) fun v hv => (isPrinting_source v (h v hv).isToken).lexes

theorem readLeaves_of_readAll_printed {forms : List Value} (h : ∀ v ∈ forms, v.IsAccepted)
    (hread : readAll (printed forms) = .ok forms) :
    forms.flatMap leaves = forms.flatMap readLeaves := by
  rw [flatMap_leaves_of_readAll hread, ofText_of_lexes (lexes_printed h), List.flatMap_assoc]
  rfl

/-- Forms that are read can be written, and they are read again from their source texts unless an
escape mark runs together with its argument in one of them, or one of them holds an infinite
float. -/
theorem readAll_printed_iff {text : List Char} {forms : List Value}
    (h : readAll text = .ok forms) :
    (∀ v ∈ forms, v.written source = .ok v.source) ∧
      (readAll (printed forms) = .ok forms ↔
        ∀ v ∈ forms, ∀ w, Within w v → ¬w.IsFused ∧ ¬w.IsInfinite) := by
  have haccepted : ∀ v ∈ forms, v.IsAccepted := isAccepted_of_readAll h
  refine ⟨fun v hv => ?_, fun hread v hv => ?_, fun hforms => ?_⟩
  · rw [written, if_pos (haccepted v hv).isWritable]
    rfl
  · have hleaves := readLeaves_of_readAll_printed haccepted hread
    -- One splicing mark too many cannot be made up for, because no form has one too few.
    have hfused : ∀ u ∈ forms, ∀ w, Within w u → ¬w.IsFused := by
      intro u hu w hw hfused
      have hlt : splicings (forms.flatMap leaves) < splicings (forms.flatMap readLeaves) := by
        rw [splicings_flatMap, splicings_flatMap]
        exact List.sum_lt_sum _ _ (fun v hv => splicings_le v (haccepted v hv))
          ⟨u, hu, splicings_lt hw hfused (haccepted u hu)⟩
      exact hlt.ne (congrArg splicings hleaves)
    refine fun w hw => ⟨hfused v hv w hw, fun hinfinite => ?_⟩
    have hmem := List.mem_flatMap_of_mem hv (mem_leaves_of_within hinfinite.isToken.isLeaf hw)
    rw [hleaves] at hmem
    obtain ⟨u, hu, hmem⟩ := List.mem_flatMap.mp hmem
    exact not_isInfinite_of_mem_readLeaves (haccepted u hu) (hfused u hu) hmem hinfinite
  · refine readAll_of_lexes (lexes_printed haccepted) fun v hv => ⟨fun w hw => ?_, fun w hw => ?_⟩
    · exact (haccepted v hv w hw).resolve_right (hforms v hv w (within_of_mem_leaves hw)).2
    · exact (hforms v hv w hw).1

theorem readAll_printed_escaping :
    readAll "(a (unquote b) \"c\")".toList = .ok [escaping] ∧
      readAll (printed [escaping]) = .ok [escaping] := by
  have hread : readAll "(a (unquote b) \"c\")".toList = .ok [escaping] := rfl
  refine ⟨hread, (readAll_printed_iff hread).2.mpr fun v hv => ?_⟩
  cases List.mem_singleton.mp hv
  exact fun w hw => ⟨isReadable_escaping.not_fused w hw, isReadable_escaping.not_infinite hw⟩

/-- The escape `(unquote @x)` is read, is printed as `~@x`, and comes back as another one. -/
theorem not_readAll_printed_fused :
    readAll "(unquote @x)".toList = .ok [list [sym .unquote, sym ⟨"@x", none⟩]] ∧
      readAll (printed [list [sym .unquote, sym ⟨"@x", none⟩]]) ≠
        .ok [list [sym .unquote, sym ⟨"@x", none⟩]] := by
  have hread : readAll (printed [list [sym .unquote, sym ⟨"@x", none⟩]]) =
      .ok [list [sym .unquoteSplicing, sym ⟨"x", none⟩]] := rfl
  refine ⟨rfl, fun h => ?_⟩
  rw [hread] at h
  simp [Symbol.unquote, Symbol.unquoteSplicing] at h

end Reader

end Quasiquote
