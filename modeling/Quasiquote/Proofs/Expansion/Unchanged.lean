import Quasiquote.Proofs.Expansion.Fixpoint

namespace Quasiquote

open Stateful

namespace Value

/-- The items of a list all stand at positions: no symbol heads it that quotes them, binds some of
them or has clauses among them. -/
def IsOrdinary (items : List Value) : Prop :=
  ∀ s args, items = sym s :: args →
    s.isCore "quote" = false ∧ s.isCore "syntax-quote" = false ∧ s ≠ .attempt ∧
      (s.isCore "let" = true → ∀ bindings body, args ≠ list bindings :: body)

/-- A second tree stands at a position of the first one. -/
inductive HasPosition : Value → Value → Prop
  | here (v : Value) : HasPosition v v
  | item {items : List Value} {v w : Value} : IsOrdinary items → v ∈ items → HasPosition v w →
      HasPosition (list items) w
  /-- The list of bindings in a `let` is no position, but what it lists is. -/
  | binding {s : Symbol} {bindings body : List Value} {v w : Value} : s.isCore "let" = true →
      v ∈ bindings → HasPosition v w → HasPosition (list (sym s :: list bindings :: body)) w
  | body {s : Symbol} {bindings body : List Value} {v w : Value} : s.isCore "let" = true →
      v ∈ body → HasPosition v w → HasPosition (list (sym s :: list bindings :: body)) w
  | form {args : List Value} {v w : Value} : v ∈ args →
      (∀ forms, v ≠ list (sym .handler :: forms)) → (∀ forms, v ≠ list (sym .cleanup :: forms)) →
      HasPosition v w → HasPosition (list (sym .attempt :: args)) w
  /-- Neither the handler of a `try` is a position, nor its head, nor the name that it binds. -/
  | handler {args forms : List Value} {name v w : Value} :
      list (sym .handler :: name :: forms) ∈ args → v ∈ forms → HasPosition v w →
      HasPosition (list (sym .attempt :: args)) w
  | cleanup {args forms : List Value} {v w : Value} : list (sym .cleanup :: forms) ∈ args →
      v ∈ forms → HasPosition v w → HasPosition (list (sym .attempt :: args)) w

theorem IsOrdinary.parts_eq {s : Symbol} {args : List Value} (h : IsOrdinary (sym s :: args)) :
    (list (sym s :: args)).parts = args := by
  obtain ⟨hq, hsq, ha, hl⟩ := h s args rfl
  unfold parts positions
  dsimp only
  rw [hq, hsq, if_neg (by simp)]
  by_cases hcore : s.isCore "let" = true
  · rw [if_pos hcore]
    split
    · exact absurd rfl (hl hcore _ _)
    · rfl
  · rw [if_neg hcore, if_neg ha]

theorem hasPosition_of_mem_clausePositions {args : List Value} {c v w : Value} (hc : c ∈ args)
    (hv : v ∈ c.clausePositions.forms) (h : v.HasPosition w) :
    (list (sym .attempt :: args)).HasPosition w := by
  unfold clausePositions at hv
  split at hv
  · rename_i s forms
    split at hv
    · rename_i hs
      subst hs
      cases forms with
      | nil => exact absurd hv List.not_mem_nil
      | cons name forms => exact .handler hc hv h
    split at hv
    · rename_i hs
      subst hs
      exact .cleanup hc hv h
    · rename_i hh hf
      obtain rfl := List.mem_singleton.mp hv
      refine .form hc (fun forms heq => ?_) (fun forms heq => ?_) h
      · cases heq
        exact hh rfl
      · cases heq
        exact hf rfl
  · rename_i hne
    obtain rfl := List.mem_singleton.mp hv
    exact .form hc (fun forms => hne _ forms) (fun forms => hne _ forms) h

theorem hasPosition_of_mem_parts {u v w : Value} (hv : v ∈ u.parts) (h : v.HasPosition w) :
    u.HasPosition w := by
  unfold parts positions at hv
  split at hv
  · rename_i s args
    split at hv
    · exact absurd hv List.not_mem_nil
    rename_i hquote
    obtain ⟨hq, hsq⟩ : s.isCore "quote" = false ∧ s.isCore "syntax-quote" = false := by
      simpa using hquote
    have ordinary (ha : s ≠ .attempt)
        (hl : s.isCore "let" = true → ∀ bindings body, args ≠ list bindings :: body) :
        IsOrdinary (sym s :: args) := by
      intro s' args' heq
      cases heq
      exact ⟨hq, hsq, ha, hl⟩
    split at hv
    · rename_i hl
      split at hv
      · rcases List.mem_append.mp hv with hv | hv
        · exact .binding hl hv h
        · exact .body hl hv h
      · rename_i hargs
        refine .item (ordinary ?_ fun _ => hargs) (List.mem_cons_of_mem _ hv) h
        rintro rfl
        exact absurd hl (by decide)
    rename_i hl
    split at hv
    · rename_i ha
      subst ha
      obtain ⟨c, hc, hv⟩ := List.mem_flatMap.mp hv
      exact hasPosition_of_mem_clausePositions hc hv h
    · rename_i ha
      exact .item (ordinary ha fun hl' => absurd hl' hl) (List.mem_cons_of_mem _ hv) h
  · rename_i items hitems
    exact .item (fun s args heq => (hitems s args heq).elim) hv h
  · exact absurd hv List.not_mem_nil

end Value

namespace Expander

variable {e : Expander} {caller : Option Namespace} {v w : Value}

theorem isExpanded_sym (e : Expander) (caller : Option Namespace) (s : Symbol) :
    e.IsExpanded caller (.sym s) :=
  .intro rfl fun _ hw => nomatch hw

theorem isExpanded_of_mem_clause {args : List Value} {c : Value}
    (h : e.IsExpanded caller (.list (.sym .attempt :: args))) (hc : c ∈ args)
    (hw : w ∈ c.clausePositions.forms) : e.IsExpanded caller w :=
  h.parts (List.mem_flatMap.mpr ⟨c, hc, hw⟩)

theorem IsExpanded.of_hasPosition (h : e.IsExpanded caller v) (hw : v.HasPosition w) :
    e.IsExpanded caller w := by
  induction hw with
  | here => exact h
  | @item items p w hitems hp _ ih =>
      apply ih
      rcases Value.call?_cases items with hcall | ⟨s, args, rfl⟩
      · refine h.parts ?_
        unfold Value.parts
        rwa [Value.positions_of_call?_eq_none hcall]
      · rcases List.mem_cons.mp hp with rfl | hp
        · exact isExpanded_sym e caller s
        · refine h.parts ?_
          rwa [hitems.parts_eq]
  | binding hl hv _ ih =>
      apply ih
      refine h.parts ?_
      unfold Value.parts
      rw [Value.positions_binding hl]
      exact List.mem_append_left _ hv
  | body hl hv _ ih =>
      apply ih
      refine h.parts ?_
      unfold Value.parts
      rw [Value.positions_binding hl]
      exact List.mem_append_right _ hv
  | @form args p w hp hh hf _ ih =>
      apply ih
      refine isExpanded_of_mem_clause h hp ?_
      rcases p.clausePositions_cases with ⟨forms, heq⟩ | ⟨forms, heq⟩ | hpos
      · exact absurd heq (hh forms)
      · exact absurd heq (hf forms)
      · rw [hpos]
        exact List.mem_singleton_self p
  | handler hc hv _ ih => exact ih (isExpanded_of_mem_clause h hc hv)
  | cleanup hc hv _ ih => exact ih (isExpanded_of_mem_clause h hc hv)

theorem isExpanded_of_hasPosition
    (h : ∀ s args, v.HasPosition (.list (.sym s :: args)) → e.registry.lookup caller s = none) :
    e.IsExpanded caller v := by
  induction hsize : sizeOf v using Nat.strongRecOn generalizing v with
  | ind size ih =>
      subst hsize
      refine .intro ?_ fun w hw => ?_
      · cases hm : e.macroFor caller v with
        | none => rfl
        | some m =>
            obtain ⟨s, args, rfl, hlookup, -⟩ := exists_of_macroFor hm
            rw [h s args (.here _)] at hlookup
            exact nomatch hlookup
      · refine ih _ (Value.sizeOf_lt_of_mem_parts hw) (fun s args hpos => ?_) rfl
        exact h s args (Value.hasPosition_of_mem_parts hw hpos)

/-- A tree has no macro call at its positions exactly if complete expansion never fails for it, gives
it back and leaves the allocator and the log as they are. This holds for every bound, also for none. -/
theorem expandAll_unchanged_iff (e : Expander) (caller : Option Namespace) (v : Value) :
    (∀ s args, v.HasPosition (.list (.sym s :: args)) → e.registry.lookup caller s = none) ↔
      ∀ (bound : Int) (x : ExpansionState) (r : Except Failure Value) (y : ExpansionState),
        Gives (m := StateM ExpansionState) (({ e with maxDepth := bound }).expandAll caller v) x r y ↔
          r = .ok v ∧ y = x := by
  constructor
  · intro h bound x r y
    have hexpanded : ({ e with maxDepth := bound } : Expander).IsExpanded caller v :=
      isExpanded_of_hasPosition h
    have hgives := hexpanded.gives_expandWithin bound.toNat x
    constructor
    · intro h'
      obtain ⟨hr, hy⟩ := Prod.mk.inj (hgives.symm.trans h')
      exact ⟨hr.symm, hy.symm⟩
    · rintro ⟨rfl, rfl⟩
      exact hgives
  · intro h s args hpos
    have hzero := (h 0 {} (.ok v) {}).mpr ⟨rfl, rfl⟩
    have hexpanded := isExpanded_of_gives_expandWithin_zero hzero
    exact (hexpanded.of_hasPosition hpos).macroFor

end Expander

end Quasiquote
