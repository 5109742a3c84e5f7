import Mathlib.Logic.Relation
import Quasiquote.Proofs.Expansion.Position
import Quasiquote.Proofs.Value.Symbols
import Quasiquote.SpecialForm

namespace Quasiquote

namespace SpecialForm

theorem mem_names_of_ofSymbol? {s : Symbol} {form : SpecialForm} (h : ofSymbol? s = some form) :
    s.mayBeCore = true ∧ (s.name, form) ∈ names := by
  unfold ofSymbol? at h
  split at h
  · rename_i hcore
    refine ⟨hcore, ?_⟩
    obtain ⟨before, after, hnames, -⟩ := List.lookup_eq_some_iff.mp h
    rw [hnames]
    exact List.mem_append_right _ List.mem_cons_self
  · exact nomatch h

theorem ofSymbol?_of_isCore {s : Symbol} {name : String} (h : s.isCore name = true) :
    ofSymbol? s = names.lookup name := by
  unfold Symbol.isCore at h
  simp only [Bool.and_eq_true, decide_eq_true_eq] at h
  rw [ofSymbol?, if_pos h.2, h.1]

theorem isCore_of_ofSymbol? {s : Symbol} {name : String} {form : SpecialForm}
    (hname : ∀ name', (name', form) ∈ names → name' = name) (h : ofSymbol? s = some form) :
    s.isCore name = true := by
  obtain ⟨hcore, hmem⟩ := mem_names_of_ofSymbol? h
  unfold Symbol.isCore
  simp [hcore, hname _ hmem]

/-- Whether the arguments of a form are all code, and nothing else in it is. -/
def IsPlain : SpecialForm → Prop
  | .quote | .syntaxQuote | .scope | .attempt => False
  | _ => True

end SpecialForm

namespace Value

/-- The expressions that are evaluated when a tree is evaluated as a template. -/
def answered : Value → List Value
  | list [sym s, t] =>
      if s.isCore "syntax-quote" then
        ((Template.escapes 1 t).filter fun e => ¬1 < e.level).map (·.arg)
      else []
  | _ => []

/-- The trees right below a tree that are code. -/
def subforms : Value → List Value
  | list (sym s :: args) =>
      sym s :: ((list (sym s :: args)).parts ++ (list (sym s :: args)).answered)
  | v => v.parts

/-- A tree has the given code below it. -/
def Encloses : Value → Value → Prop := Relation.TransGen fun v w => w ∈ v.subforms

/-- A tree is, or has below it, the given code. -/
def HasCode : Value → Value → Prop := Relation.ReflTransGen fun v w => w ∈ v.subforms

theorem HasCode.self (v : Value) : v.HasCode v := .refl

theorem Encloses.hasCode {v w : Value} (h : v.Encloses w) : v.HasCode w := h.to_reflTransGen

theorem HasCode.trans {u v w : Value} (h : u.HasCode v) (h' : v.HasCode w) : u.HasCode w :=
  Relation.ReflTransGen.trans h h'

theorem encloses_of_mem_subforms {v w : Value} (h : w ∈ v.subforms) : v.Encloses w := .single h

theorem mem_subforms_of_mem_parts {v w : Value} (h : w ∈ v.parts) : w ∈ v.subforms := by
  unfold subforms
  split
  · exact List.mem_cons_of_mem _ (List.mem_append_left _ h)
  · exact h

theorem mem_subforms_cases {v w : Value} (h : w ∈ v.subforms) :
    (∃ s args, v = list (sym s :: args) ∧ w = sym s) ∨ w ∈ v.parts ∨
      ∃ s t, v = list [sym s, t] ∧ ∃ e ∈ Template.escapes 1 t, e.arg = w := by
  unfold subforms at h
  split at h
  · rcases List.mem_cons.mp h with rfl | h
    · exact .inl ⟨_, _, rfl, rfl⟩
    rcases List.mem_append.mp h with h | h
    · exact .inr (.inl h)
    unfold answered at h
    split at h
    · rename_i heq
      split at h
      · obtain ⟨e, he, rfl⟩ := List.mem_map.mp h
        exact .inr (.inr ⟨_, _, heq, e, (List.mem_filter.mp he).1, rfl⟩)
      · exact nomatch h
    · exact nomatch h
  · exact .inr (.inl h)

theorem sizeOf_lt_of_mem_subforms {v w : Value} (h : w ∈ v.subforms) : sizeOf w < sizeOf v := by
  rcases mem_subforms_cases h with ⟨s, args, rfl, rfl⟩ | h | ⟨s, t, rfl, e, he, rfl⟩
  · exact sizeOf_lt_of_mem_list List.mem_cons_self
  · exact sizeOf_lt_of_mem_parts h
  · exact Nat.lt_trans (Template.sizeOf_arg_lt_of_mem_escapes he)
      (sizeOf_lt_of_mem_list (by simp))

theorem Encloses.sizeOf_lt {v w : Value} (h : v.Encloses w) : sizeOf w < sizeOf v := by
  induction h with
  | single h => exact sizeOf_lt_of_mem_subforms h
  | tail _ h ih => exact Nat.lt_trans (sizeOf_lt_of_mem_subforms h) ih

theorem symbols_subset_of_mem_parts {v w : Value} (h : w ∈ v.parts) {s : Symbol}
    (hs : s ∈ w.symbols) : s ∈ v.symbols := by
  unfold parts at h
  rcases v.positions_cases with hv | ⟨s', bindings, body, rfl, hl⟩ | ⟨args, rfl⟩ |
    ⟨s', args, rfl, hv, -⟩ | ⟨items, rfl, hv, -⟩
  · rw [hv] at h
    exact nomatch h
  · rw [positions_binding hl] at h
    rcases List.mem_append.mp h with h | h
    · exact mem_symbols_list (by simp) (mem_symbols_list h hs)
    · exact mem_symbols_list (by simp [h]) hs
  · obtain ⟨c, hc, h⟩ := List.mem_flatMap.mp h
    refine mem_symbols_list (List.mem_cons_of_mem _ hc) ?_
    rcases c.clausePositions_cases with ⟨args', rfl⟩ | ⟨args', rfl⟩ | hc
    · have h : w ∈ args' := List.mem_of_mem_tail h
      exact mem_symbols_list (List.mem_cons_of_mem _ h) hs
    · have h : w ∈ args' := h
      exact mem_symbols_list (List.mem_cons_of_mem _ h) hs
    · rw [hc] at h
      rwa [← List.mem_singleton.mp h]
  · rw [hv] at h
    exact mem_symbols_list (List.mem_cons_of_mem _ h) hs
  · rw [hv] at h
    exact mem_symbols_list h hs

theorem symbols_subset_of_mem_subforms {v w : Value} (h : w ∈ v.subforms) {s : Symbol}
    (hs : s ∈ w.symbols) : s ∈ v.symbols := by
  rcases mem_subforms_cases h with ⟨s', args, rfl, rfl⟩ | h | ⟨s', t, rfl, e, he, rfl⟩
  · exact mem_symbols_list List.mem_cons_self hs
  · exact symbols_subset_of_mem_parts h hs
  · have harg := Template.arg_of_mem_escapes (P := fun v => v.symbols ⊆ t.symbols)
      (Q := fun v => v.symbols ⊆ t.symbols)
      (fun items hitems v hv s hs => hitems (mem_symbols_list hv hs)) (fun _ h => h)
      (List.Subset.refl _) he
    exact mem_symbols_list (by simp) (harg hs)

theorem HasCode.symbols_subset {v w : Value} (h : v.HasCode w) {s : Symbol} (hs : s ∈ w.symbols) :
    s ∈ v.symbols := by
  induction h with
  | refl => exact hs
  | tail _ h ih => exact ih (symbols_subset_of_mem_subforms h hs)

theorem HasCode.heading?_ne {v w : Value} {form : SpecialForm} (h : v.HasCode w)
    (hv : ∀ s ∈ v.symbols, SpecialForm.ofSymbol? s ≠ some form) :
    SpecialForm.heading? w ≠ some form := by
  intro hform
  unfold SpecialForm.heading? at hform
  split at hform
  · exact hv _ (h.symbols_subset (mem_symbols_list List.mem_cons_self (by simp [symbols]))) hform
  · exact nomatch hform

section

variable {s : Symbol} {args : List Value} {w : Value}

theorem encloses_head (head : Value) (args : List Value) : (list (head :: args)).Encloses head := by
  apply encloses_of_mem_subforms
  rcases call?_cases (head :: args) with hcall | ⟨s, args', heq⟩
  · refine mem_subforms_of_mem_parts ?_
    rw [parts, positions_of_call?_eq_none hcall]
    exact List.mem_cons_self
  · cases heq
    exact List.mem_cons_self

theorem positions_of_isPlain (h : ∀ form, SpecialForm.ofSymbol? s = some form → form.IsPlain) :
    (list (sym s :: args)).positions = ⟨args, fun ws => list (sym s :: ws)⟩ := by
  have hnot (name : String) {form : SpecialForm}
      (hlookup : SpecialForm.names.lookup name = some form) (hform : ¬form.IsPlain) :
      ¬s.isCore name = true := fun hcore =>
    hform (h form ((SpecialForm.ofSymbol?_of_isCore hcore).trans hlookup))
  have hattempt : s ≠ .attempt := by
    rintro rfl
    exact h .attempt rfl
  unfold positions
  simp only [hnot "quote" rfl id, hnot "syntax-quote" rfl id, hnot "let" rfl id, hattempt,
    Bool.or_self, if_false, Bool.false_eq_true]

theorem parts_of_isPlain (h : ∀ form, SpecialForm.ofSymbol? s = some form → form.IsPlain) :
    (list (sym s :: args)).parts = args := by
  rw [parts, positions_of_isPlain h]

theorem encloses_of_isPlain (h : ∀ form, SpecialForm.ofSymbol? s = some form → form.IsPlain)
    (hw : w ∈ args) : (list (sym s :: args)).Encloses w := by
  refine encloses_of_mem_subforms (mem_subforms_of_mem_parts ?_)
  rwa [parts_of_isPlain h]

theorem encloses_of_scope (hs : SpecialForm.ofSymbol? s = some .scope) {bindings body : List Value}
    (hw : w ∈ bindings ∨ w ∈ body) : (list (sym s :: list bindings :: body)).Encloses w := by
  refine encloses_of_mem_subforms (mem_subforms_of_mem_parts ?_)
  have hlet : s.isCore "let" = true :=
    SpecialForm.isCore_of_ofSymbol? (by simp [SpecialForm.names]) hs
  rw [parts, positions_binding hlet]
  exact List.mem_append.mpr hw

theorem hasCode_of_clause {c : Value} (hw : w ∈ c.clausePositions.forms) : c.HasCode w := by
  have clause {head : Symbol} {forms : List Value} (hhead : SpecialForm.ofSymbol? head = none)
      (hw : w ∈ forms) : (list (sym head :: forms)).HasCode w := by
    refine (encloses_of_isPlain (fun form hform => ?_) hw).hasCode
    rw [hhead] at hform
    exact nomatch hform
  rcases c.clausePositions_cases with ⟨args, rfl⟩ | ⟨args, rfl⟩ | hc
  · exact clause rfl (List.mem_of_mem_tail hw)
  · exact clause rfl hw
  · rw [hc] at hw
    rw [List.mem_singleton.mp hw]
    exact .self c

theorem encloses_of_attempt (hs : SpecialForm.ofSymbol? s = some .attempt) {c : Value}
    (hc : c ∈ args) (hw : w ∈ c.clausePositions.forms) : (list (sym s :: args)).Encloses w := by
  by_cases hbare : s = .attempt
  · subst hbare
    refine encloses_of_mem_subforms (mem_subforms_of_mem_parts ?_)
    rw [parts, positions_attempt]
    exact List.mem_flatMap.mpr ⟨c, hc, hw⟩
  · have hname : s.name = "try" := by
      have hmem := (SpecialForm.mem_names_of_ofSymbol? hs).2
      simpa [SpecialForm.names] using hmem
    have hparts : (list (sym s :: args)).parts = args := by
      unfold parts positions
      simp [Symbol.isCore, hname, hbare]
    refine Relation.TransGen.head' (b := c) (mem_subforms_of_mem_parts ?_) (hasCode_of_clause hw)
    rwa [hparts]

theorem encloses_of_template (hs : SpecialForm.ofSymbol? s = some .syntaxQuote) {t : Value}
    {e : Template.Escape} (he : e ∈ Template.escapes 1 t) (hlevel : ¬1 < e.level) :
    (list [sym s, t]).Encloses e.arg := by
  have hcore : s.isCore "syntax-quote" = true :=
    SpecialForm.isCore_of_ofSymbol? (by simp [SpecialForm.names]) hs
  apply encloses_of_mem_subforms
  refine List.mem_cons_of_mem _ (List.mem_append_right _ ?_)
  rw [answered, if_pos hcore]
  exact List.mem_map_of_mem (List.mem_filter.mpr ⟨he, by simpa using hlevel⟩)

end

end Value
end Quasiquote
