import Quasiquote.Proofs.Evaluation.Alternation
import Quasiquote.Proofs.Evaluation.Locality
import Quasiquote.Proofs.Expansion.Fixpoint
import Quasiquote.Proofs.Value.Renaming

namespace Quasiquote

open Stateful

namespace SpecialForm

/-- The forms that change macros, namespaces or globals. -/
def changing : List SpecialForm := [define, defineMacro, enterNamespace, aliasNamespace]

theorem changesBy_of_not_mem_changing {Change : (Session → Session) → Prop} {form : SpecialForm}
    (h : form ∉ changing) : form.ChangesBy Change := by
  cases form with
  | define | defineMacro | enterNamespace | aliasNamespace => exact absurd (by decide) h
  | _ => trivial

end SpecialForm

namespace Expander

theorem isExpanded_of_hasCode {e : Expander} {caller : Option Namespace} {v : Value}
    (h : ∀ w, v.HasCode w → e.macroFor caller w = none) : e.IsExpanded caller v := by
  induction hsize : sizeOf v using Nat.strongRecOn generalizing v with
  | ind size ih =>
      subst hsize
      refine .intro (h v (.self v)) fun w hw => ?_
      have hbelow := Value.encloses_of_mem_subforms (Value.mem_subforms_of_mem_parts hw)
      exact ih _ hbelow.sizeOf_lt (fun u hu => h u (hbelow.hasCode.trans hu)) rfl

theorem macroFor_eq_none_of_symbols {e : Expander} {caller : Option Namespace} {v w : Value}
    (h : ∀ x ∈ v.symbols, ∀ m ∈ e.registry.macros, m.name ≠ x.name) (hw : v.HasCode w) :
    e.macroFor caller w = none := by
  unfold macroFor
  split
  · rename_i x args
    have hx : x ∈ (Value.list (.sym x :: args)).symbols :=
      Value.mem_symbols_list List.mem_cons_self (by simp [Value.symbols])
    exact Registry.lookup_eq_none (h x (hw.symbols_subset hx))
  · rfl

end Expander

namespace Evaluation

/-- Sessions with the same macros, namespaces and globals. -/
def Alike (s t : Session) : Prop :=
  t.expander = s.expander ∧ t.current = s.current ∧ t.globals = s.globals

theorem Alike.refl (s : Session) : Alike s s := ⟨rfl, rfl, rfl⟩

theorem lasting_alike (s : Session) : Lasting (Alike s) := by
  rintro t u hexpander hcurrent hglobals ⟨h, h', h''⟩
  exact ⟨hexpander.trans h, hcurrent.trans h', hglobals.trans h''⟩

theorem Alike.trans {s t u : Session} (h : Alike s t) (h' : Alike t u) : Alike s u :=
  ⟨h'.1.trans h.1, h'.2.1.trans h.2.1, h'.2.2.trans h.2.2⟩

theorem Alike.currentNamespace {s t : Session} (h : Alike s t) :
    t.currentNamespace = s.currentNamespace := by
  unfold Session.currentNamespace
  rw [h.1, h.2.1]

theorem exists_gives_caughtValue (f : Failure) (s : Session) :
    ∃ err t, Alike s t ∧
      Gives (m := StateT Session Option) (Evaluating.caughtValue f) s (.ok err) t := by
  cases f with
  | thrown v => exact ⟨v, s, ⟨rfl, rfl, rfl⟩, rfl⟩
  | again id f => cases f <;> exact ⟨_, s, ⟨rfl, rfl, rfl⟩, rfl⟩
  | _ => exact ⟨_, { s with identities := s.identities + 1 }, ⟨rfl, rfl, rfl⟩, rfl⟩

/-- A form without macro calls, without forms that change macros, namespaces or globals, and without
renamed names. -/
structure IsOperand (s : Session) (v : Value) : Prop where
  calls (w : Value) : v.HasCode w → s.expander.macroFor (some s.currentNamespace) w = none
  changes {w : Value} {form : SpecialForm} : v.HasCode w → SpecialForm.heading? w = some form →
    form ∉ SpecialForm.changing
  unrenamed : ∀ x ∈ v.symbols, ¬x.HasRenameEnding
  unspliced (items : List Value) : v ≠ .splice items

namespace IsOperand

variable {s t : Session} {v : Value}

theorem single_eq (h : IsOperand s v) : v.single = v := by
  cases v with
  | splice items => exact absurd rfl (h.unspliced items)
  | _ => rfl

theorem of_symbols
    (hmacros : ∀ x ∈ v.symbols, ∀ m ∈ s.expander.registry.macros, m.name ≠ x.name)
    (hforms : ∀ x ∈ v.symbols, ∀ form ∈ SpecialForm.changing, SpecialForm.ofSymbol? x ≠ some form)
    (hnames : ∀ x ∈ v.symbols, ¬x.HasRenameEnding) (hsplice : ∀ items, v ≠ .splice items) :
    IsOperand s v where
  calls _ hw := Expander.macroFor_eq_none_of_symbols hmacros hw
  changes hw hform hmem := hw.heading?_ne (fun x hx => hforms x hx _ hmem) hform
  unrenamed := hnames
  unspliced := hsplice

theorem of_alike (h : IsOperand s v) (ht : Alike s t) : IsOperand t v where
  calls := by
    rw [ht.1, ht.currentNamespace]
    exact h.calls
  changes := h.changes
  unrenamed := h.unrenamed
  unspliced := h.unspliced

theorem steady (h : IsOperand s v) (locals : List Frame) :
    Steady (Alike s) (fun i : Subtype fun locals' => AgreeOn v s.globals locals' locals => i.1)
      v where
  calls hw t ht := (h.of_alike ht).calls _ hw
  changes hw hform := SpecialForm.changesBy_of_not_mem_changing (h.changes hw hform)
  lookups hx := concurs_lookup (fun t ht i => by
    rw [ht.2.2]
    exact i.2) hx

end IsOperand

theorem gives_expanded_self {s : Session} {v : Value}
    (h : s.expander.IsExpanded (some s.currentNamespace) v) :
    Gives (m := StateT Session Option) (expanded v) s (.ok v) s := by
  unfold expanded
  split
  · exact gives_pure.mpr ⟨rfl, rfl⟩
  · exact Evaluating.gives_expanding.mpr ⟨s.expansion, h.gives_expandWithin _ _, rfl⟩

/-- An operand is evaluated to the end, as it stands, and in one way inside all frames that agree on
its bare symbols. -/
theorem IsOperand.exists_outcome {s : Session} {v : Value} (h : IsOperand s v)
    (locals : List Frame) :
    ∃ r t, Alike s t ∧ Call.Outcome ⟨locals, v, s⟩ (r, t) ∧
      ∀ locals', AgreeOn v s.globals locals' locals → ∀ n, sizeOf v ≤ n →
        Gives (m := StateT Session Option) (evalTree n locals' v) s r t := by
  obtain ⟨r, t, ht, hgives⟩ := (h.steady locals).exists_gives (lasting_alike s) (.refl s)
  have hexpanded := gives_expanded_self (Expander.isExpanded_of_hasCode h.calls)
  have htree := hgives locals (fun _ _ _ => rfl) (sizeOf v) (Nat.le_refl _)
  exact ⟨r, t, ht, ⟨sizeOf v, gives_bind.mpr (.inr ⟨v, s, hexpanded, htree⟩)⟩, hgives⟩

end Evaluation
end Quasiquote
