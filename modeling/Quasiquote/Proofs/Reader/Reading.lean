import Quasiquote.Proofs.Reader.Legible

namespace Quasiquote

namespace Value

/-- Whether a tree is read back from what it is printed as: its leaves are, and no escape mark runs
together with its argument. -/
structure IsReadable (v : Value) : Prop where
  legible : ∀ w ∈ v.leaves, w.IsLegible
  not_fused : ∀ w, Within w v → ¬w.IsFused

theorem IsReadable.item {v : Value} {items : List Value} (h : IsReadable (list items))
    (hv : v ∈ items) : IsReadable v where
  legible := fun w hw => h.legible w (mem_leaves_list hv hw)
  not_fused := fun w hw => h.not_fused w (hw.item hv)

theorem IsLegible.isReadable {v : Value} (h : v.IsLegible) : v.IsReadable := by
  have hleaf := h.isToken.isLeaf
  constructor
  · intro w hw
    rw [leaves_of_isLeaf hleaf, List.mem_singleton] at hw
    exact hw ▸ h
  · rintro w hw ⟨s, rfl, -⟩
    rw [within_leaf_iff hleaf] at hw
    subst hw
    exact hleaf

theorem isReadable_list {items : List Value} (hfused : ¬(list items).IsFused)
    (h : ∀ v ∈ items, v.IsReadable) : (list items).IsReadable := by
  constructor
  · intro w hw
    rw [leaves_list] at hw
    obtain ⟨v, hv, hw⟩ := List.mem_flatMap.mp hw
    exact (h v hv).legible w hw
  · intro w hw
    rcases within_list_iff.mp hw with rfl | ⟨v, hv, hw⟩
    · exact hfused
    · exact (h v hv).not_fused w hw

theorem IsReadable.isToken {v : Value} (h : v.IsReadable) : ∀ w ∈ v.leaves, w.IsToken :=
  fun w hw => (h.legible w hw).isToken

end Value

namespace Reader

open Value

/-- Read on after a token, with what it left waiting or completed. -/
def resume (unclosed : Option Nat) :
    List Pending ⊕ Value → List Token → List Value × Option Failure
  | .inl stack, rest => all unclosed stack rest
  | .inr v, rest => (v :: (all unclosed [] rest).1, (all unclosed [] rest).2)

theorem all_cons_of_shift {unclosed : Option Nat} {stack : List Pending} {token : Token}
    {rest : List Token} {state : List Pending ⊕ Value}
    (h : shift (rest.isEmpty && unclosed.isNone) token stack = .ok state) :
    all unclosed stack (token :: rest) = resume unclosed state rest := by
  rw [all, h]
  cases state <;> rfl

theorem role_markToken {s : Symbol} {mark : List Char} (h : readerMark? s = some mark)
    (last : Bool) : role last (markToken mark) = .ok (.mark s) := by
  unfold readerMark? at h
  split_ifs at h with hquote hsyntax hunquote hsplicing <;> cases h <;> subst s <;> rfl

section

variable {last : Bool} {token : Token}

theorem shift_error {failure : Failure} (h : role last token = .error failure)
    (stack : List Pending) : shift last token stack = .error failure := by
  unfold shift
  rw [h]
  rfl

theorem shift_value {v : Value} (h : role last token = .ok (.value v)) (stack : List Pending) :
    shift last token stack = .ok (deliver v stack) := by
  unfold shift
  rw [h]
  rfl

theorem shift_mark {s : Symbol} (h : role last token = .ok (.mark s)) (stack : List Pending) :
    shift last token stack = .ok (.inl (.mark token.text s :: stack)) := by
  unfold shift
  rw [h]
  rfl

theorem shift_opener {closer : String} (h : role last token = .ok (.opener closer))
    (stack : List Pending) :
    shift last token stack = .ok (.inl (.group token.text closer [] :: stack)) := by
  unfold shift
  rw [h]
  rfl

theorem shift_closer {opener closer : String} {reversed : List Value}
    (h : role last token = .ok .closer) (hcloser : token.text = closer) (stack : List Pending) :
    shift last token (.group opener closer reversed :: stack) =
      .ok (deliver (.list reversed.reverse) stack) := by
  unfold shift
  rw [h]
  show (if token.text = closer then _ else _) = _
  rw [if_pos hcloser]
  rfl

end

/-- Whether tokens hand a value to what waits, wherever they stand. -/
def Reads (unclosed : Option Nat) (ts : List Token) (v : Value) : Prop :=
  ∀ stack rest, all unclosed stack (ts ++ rest) = resume unclosed (deliver v stack) rest

section

variable {unclosed : Option Nat}

theorem Reads.atom {token : Token} {v : Value} (h : ∀ last, role last token = .ok (.value v)) :
    Reads unclosed [token] v :=
  fun stack _ => all_cons_of_shift (shift_value (h _) stack)

theorem Reads.marked {token : Token} {s : Symbol} {ts : List Token} {v : Value}
    (h : ∀ last, role last token = .ok (.mark s)) (hv : Reads unclosed ts v) :
    Reads unclosed (token :: ts) (.list [.sym s, v]) := by
  intro stack rest
  rw [List.cons_append, all_cons_of_shift (shift_mark (h _) stack), resume, hv, deliver]

theorem all_items {pieces : List (List Token)} {items : List Value}
    (h : List.Forall₂ (Reads unclosed) pieces items) (opener closer : String)
    (reversed : List Value) (stack : List Pending) (rest : List Token) :
    all unclosed (.group opener closer reversed :: stack) (pieces.flatten ++ rest) =
      all unclosed (.group opener closer (items.reverse ++ reversed) :: stack) rest := by
  induction h generalizing reversed with
  | nil => rfl
  | cons hv _ ih =>
      rw [List.flatten_cons, List.append_assoc, hv]
      show all unclosed (.group opener closer (_ :: reversed) :: stack) _ = _
      rw [ih, List.reverse_cons, List.append_assoc, List.singleton_append]

theorem Reads.group {opening closing : Token}
    (hopening : ∀ last, role last opening = .ok (.opener closing.text))
    (hclosing : ∀ last, role last closing = .ok .closer) {pieces : List (List Token)}
    {items : List Value} (h : List.Forall₂ (Reads unclosed) pieces items) :
    Reads unclosed (opening :: (pieces.flatten ++ [closing])) (.list items) := by
  intro stack rest
  rw [List.cons_append, List.append_assoc, List.singleton_append,
    all_cons_of_shift (shift_opener (hopening _) stack), resume, all_items h, List.append_nil,
    all_cons_of_shift (shift_closer (hclosing _) rfl stack), List.reverse_reverse]

theorem all_flatten {pieces : List (List Token)} {forms : List Value}
    (h : List.Forall₂ (Reads none) pieces forms) : all none [] pieces.flatten = (forms, none) := by
  induction h with
  | nil => rfl
  | cons hv _ ih =>
      rw [List.flatten_cons, hv]
      show (_ :: (all none [] _).1, (all none [] _).2) = _
      rw [ih]

end

theorem forall₂_tokens {unclosed : Option Nat} {items : List Value}
    (h : ∀ v ∈ items, Reads unclosed v.tokens v) :
    List.Forall₂ (Reads unclosed) (items.map Value.tokens) items :=
  List.forall₂_map_left_iff.mpr (List.forall₂_same.mpr h)

/-- The tokens of a readable tree hand the tree to what waits. -/
theorem reads_tokens (unclosed : Option Nat) (v : Value) :
    v.IsReadable → Reads unclosed v.tokens v := by
  induction v using printedInduction with
  | leaf v hleaf =>
      intro h
      rw [tokens_of_isLeaf hleaf]
      exact .atom fun last => (h.legible v (by simp [leaves_of_isLeaf hleaf])).role last
  | marked s mark v hmark ih =>
      intro h
      rw [tokens_marked hmark (h.not_fused _ .self)]
      exact .marked (role_markToken hmark) (ih (h.item (by simp)))
  | plain items hplain ih =>
      intro h
      have hitems := forall₂_tokens fun v hv => ih v hv (h.item hv)
      have hopening (last : Bool) : role last ⟨.opening, "("⟩ = .ok (.opener ")") := rfl
      have hcloser (last : Bool) : role last ⟨.closing, ")"⟩ = .ok .closer := rfl
      rw [tokens_plain hplain, List.flatMap_def]
      exact .group hopening hcloser hitems

theorem all_forms {forms : List Value} (h : ∀ v ∈ forms, v.IsReadable) :
    all none [] (forms.flatMap Value.tokens) = (forms, none) := by
  rw [List.flatMap_def]
  exact all_flatten (forall₂_tokens fun v hv => reads_tokens none v (h v hv))

theorem ofText_of_lexes {cs : List Char} {ts : List Token} (h : Lexes cs ts) :
    Lexemes.ofText cs = ⟨ts, none⟩ := by
  have hscan := h 0 [] breaks_nil
  rw [List.append_nil] at hscan
  rw [Lexemes.ofText, hscan, Lexemes.scan, Lexemes.prepend, LexerState.finish, List.append_nil]

theorem tokens_of_lexes {cs : List Char} {ts : List Token} (h : Lexes cs ts) :
    tokens cs = .ok ts := by
  rw [tokens, ofText_of_lexes h]
  rfl

theorem readAll_eq_ok_iff {text : List Char} {forms : List Value} :
    readAll text = .ok forms ↔
      all (Lexemes.ofText text).unclosed [] (Lexemes.ofText text).tokens = (forms, none) := by
  unfold readAll stream
  split
  case h_1 heq => simp [heq, pure, Except.pure]
  case h_2 heq => simp [heq, throw, throwThe, MonadExceptOf.throw]

theorem readAll_eq_error_iff {text : List Char} {failure : Failure} :
    readAll text = .error failure ↔
      (all (Lexemes.ofText text).unclosed [] (Lexemes.ofText text).tokens).2 = some failure := by
  unfold readAll stream
  split
  case h_1 heq => simp [heq, pure, Except.pure]
  case h_2 heq => simp [heq, throw, throwThe, MonadExceptOf.throw]

theorem readAll_of_lexes {cs : List Char} {forms : List Value}
    (h : Lexes cs (forms.flatMap Value.tokens)) (hforms : ∀ v ∈ forms, v.IsReadable) :
    readAll cs = .ok forms := by
  rw [readAll_eq_ok_iff, ofText_of_lexes h]
  exact all_forms hforms

theorem readOne_of_lexes {cs : List Char} {v : Value} (h : Lexes cs v.tokens)
    (hv : v.IsReadable) : readOne cs = .ok v := by
  have hone : Lexes cs ([v].flatMap Value.tokens) := by simpa using h
  rw [readOne, readAll_of_lexes hone fun w hw => List.mem_singleton.mp hw ▸ hv]
  rfl

end Reader

end Quasiquote
