import Quasiquote.Proofs.Evaluation.Tail
import Quasiquote.Proofs.Expansion.Fixpoint

namespace Quasiquote

open Stateful

theorem SpecialForm.ofSymbol?_core (name : String) :
    ofSymbol? ⟨name, some coreNamespace⟩ = ofSymbol? ⟨name, none⟩ :=
  rfl

namespace Value

theorem exists_positions_eq {name : String} (hname : name ≠ "try") (args : List Value) :
    ∃ (forms : List Value) (fillArgs : List Value → List Value), ∀ s : Symbol, s.name = name →
      s.mayBeCore = true →
        (list (sym s :: args)).positions = ⟨forms, fun ws => list (sym s :: fillArgs ws)⟩ := by
  have hcore {s : Symbol} (hs : s.name = name) (hmay : s.mayBeCore = true) (other : String) :
      s.isCore other = decide (name = other) := by
    rw [Symbol.isCore, hs, hmay, Bool.and_true]
  have hattempt {s : Symbol} (hs : s.name = name) : s ≠ .attempt := fun h =>
    hname (hs.symm.trans (congrArg Symbol.name h))
  by_cases hq : name = "quote" ∨ name = "syntax-quote"
  · refine ⟨[], fun _ => args, fun s hs hmay => ?_⟩
    unfold positions
    dsimp only
    rw [hcore hs hmay, hcore hs hmay, if_pos (by simpa using hq)]
  by_cases hl : name = "let"
  · by_cases hb : ∃ bindings body, args = list bindings :: body
    · obtain ⟨bindings, body, rfl⟩ := hb
      refine ⟨_, fun ws => list (ws.take bindings.length) :: ws.drop bindings.length,
        fun s hs hmay => positions_binding ?_ bindings body⟩
      rw [hcore hs hmay, hl]
      rfl
    · refine ⟨args, id, fun s hs hmay => ?_⟩
      unfold positions
      dsimp only
      rw [hcore hs hmay, hcore hs hmay, hcore hs hmay, if_neg (by simpa using hq), if_pos (by simpa)]
      split
      · exact absurd ⟨_, _, rfl⟩ hb
      · rfl
  · refine ⟨args, id, fun s hs hmay => ?_⟩
    unfold positions
    dsimp only
    rw [hcore hs hmay, hcore hs hmay, hcore hs hmay, if_neg (by simpa using hq), if_neg (by simpa),
      if_neg (hattempt hs)]
    rfl

end Value

namespace Expander

/-- Behind two heads, arguments are expanded alike: both expansions fail in the same way, or give the
same arguments behind the heads, and in both cases they leave the same state. -/
def ExpandsAlike (e : Expander) (caller : Option Namespace) (head head' : Symbol)
    (args : List Value) : Prop :=
  ∀ s : ExpansionState, ∃ (r : Except Failure (List Value)) (t : ExpansionState),
    Gives (m := StateM ExpansionState) (e.expandAll caller (.list (.sym head :: args))) s
      (r.map fun args' => .list (.sym head :: args')) t ∧
    Gives (m := StateM ExpansionState) (e.expandAll caller (.list (.sym head' :: args))) s
      (r.map fun args' => .list (.sym head' :: args')) t

/-- Two expanders find macros under the same names. -/
def KnowsSame (e : Expander) (caller : Option Namespace) (e' : Expander) : Prop :=
  ∀ s, (e'.registry.lookup caller s).isSome = (e.registry.lookup caller s).isSome

/-- What a `try` protects from expansion in one of its forms would not be expanded anyway: the head of
a clause names no macro, and there is no macro call in what it binds. -/
def KeepsClause (e : Expander) (caller : Option Namespace) (c : Value) : Prop :=
  (∀ forms, c = .list (.sym .handler :: forms) → e.registry.lookup caller .handler = none ∧
    ∀ name ∈ forms.head?, e.IsExpanded caller name) ∧
  ∀ forms, c = .list (.sym .cleanup :: forms) → e.registry.lookup caller .cleanup = none

/-- Expand a form of a `try`. -/
def expandClauseWithin (e : Expander) (caller : Option Namespace) (n : Nat) (c : Value) :
    Expanding Value := do
  let ws ← c.clausePositions.forms.mapM (e.expandWithin caller n)
  pure (c.clausePositions.fill ws)

variable {e e' : Expander} {caller : Option Namespace} {n : Nat}

theorem IsExpanded.expandWithin_eq {v : Value} (h : e.IsExpanded caller v) (n : Nat) :
    e.expandWithin caller n v = pure v :=
  funext (h.gives_expandWithin n)

theorem KnowsSame.lookup_eq_none (h : e.KnowsSame caller e') {s : Symbol} :
    e'.registry.lookup caller s = none ↔ e.registry.lookup caller s = none := by
  rw [← Option.isNone_iff_eq_none, ← Option.isNone_iff_eq_none, ← Option.not_isSome,
    ← Option.not_isSome, h s]

theorem KnowsSame.symm (h : e.KnowsSame caller e') : e'.KnowsSame caller e :=
  fun s => (h s).symm

theorem KnowsSame.isExpanded (h : e.KnowsSame caller e') {v : Value}
    (hv : e.IsExpanded caller v) : e'.IsExpanded caller v := by
  induction hv with
  | @intro v hm _ ih =>
      refine .intro ?_ ih
      unfold macroFor at hm ⊢
      split at hm
      · exact h.lookup_eq_none.mpr hm
      · rfl

theorem KnowsSame.keepsClause (h : e.KnowsSame caller e') {c : Value}
    (hc : e.KeepsClause caller c) : e'.KeepsClause caller c := by
  refine ⟨fun forms hforms => ?_, fun forms hforms => h.lookup_eq_none.mpr (hc.2 forms hforms)⟩
  obtain ⟨hhead, hname⟩ := hc.1 forms hforms
  exact ⟨h.lookup_eq_none.mpr hhead, fun name hmem => h.isExpanded (hname name hmem)⟩

theorem expandsAlike_of_positions {head head' : Symbol} {args forms : List Value}
    {fillArgs : List Value → List Value} (hm : e.registry.lookup caller head = none)
    (hm' : e.registry.lookup caller head' = none)
    (h : (Value.list (.sym head :: args)).positions =
      ⟨forms, fun ws => .list (.sym head :: fillArgs ws)⟩)
    (h' : (Value.list (.sym head' :: args)).positions =
      ⟨forms, fun ws => .list (.sym head' :: fillArgs ws)⟩) :
    e.ExpandsAlike caller head head' args := by
  intro s
  obtain ⟨r, t, hforms⟩ : ∃ r t, Gives (m := StateM ExpansionState)
      (forms.mapM (e.expandWithin caller e.maxDepth.toNat)) s r t := ⟨_, _, rfl⟩
  have expansion {head : Symbol} (hm : e.registry.lookup caller head = none)
      (h : (Value.list (.sym head :: args)).positions =
        ⟨forms, fun ws => .list (.sym head :: fillArgs ws)⟩) :
      Gives (m := StateM ExpansionState) (e.expandAll caller (.list (.sym head :: args))) s
        ((r.map fillArgs).map fun args' => .list (.sym head :: args')) t := by
    have hnone : e.macroFor caller (.list (.sym head :: args)) = none := hm
    rw [expandAll, expandWithin_of_none hnone, Value.parts, h]
    refine gives_bind_pure.mpr ⟨r, hforms, ?_⟩
    cases r <;> rfl
  exact ⟨r.map fillArgs, t, expansion hm h, expansion hm' h'⟩

theorem mapM_clausePositions (cs : List Value) :
    ((cs.flatMap fun c => c.clausePositions.forms).mapM (e.expandWithin caller n) >>= fun ws =>
        pure (Value.fillClauses cs ws)) = cs.mapM (e.expandClauseWithin caller n) := by
  induction cs with
  | nil => simp [Value.fillClauses]
  | cons c cs ih =>
      rw [List.flatMap_cons, List.mapM_cons, ← ih, expandClauseWithin]
      simp only [bind_assoc, pure_bind]
      exact mapM_append_bind _ _ _ fun us vs =>
        pure (c.clausePositions.fill us :: Value.fillClauses cs vs)

theorem expandWithin_attempt {args : List Value}
    (hm : e.registry.lookup caller .attempt = none) :
    e.expandWithin caller n (.list (.sym .attempt :: args)) =
      args.mapM (e.expandClauseWithin caller n) >>= fun cs =>
        pure (.list (.sym .attempt :: cs)) := by
  have hnone : e.macroFor caller (.list (.sym .attempt :: args)) = none := hm
  rw [expandWithin_of_none hnone, Value.parts, Value.positions_attempt, ← mapM_clausePositions,
    bind_assoc]
  simp only [pure_bind]

theorem expandWithin_coreAttempt {args : List Value}
    (hm : e.registry.lookup caller ⟨"try", some coreNamespace⟩ = none) :
    e.expandWithin caller n (.list (.sym ⟨"try", some coreNamespace⟩ :: args)) =
      args.mapM (e.expandWithin caller n) >>= fun ws =>
        pure (.list (.sym ⟨"try", some coreNamespace⟩ :: ws)) := by
  have hnone : e.macroFor caller (.list (.sym ⟨"try", some coreNamespace⟩ :: args)) = none := hm
  rw [expandWithin_of_none hnone]
  rfl

theorem KeepsClause.expandClauseWithin_eq {c : Value} (h : e.KeepsClause caller c) :
    e.expandClauseWithin caller n c = e.expandWithin caller n c := by
  rcases c.clausePositions_cases with ⟨forms, rfl⟩ | ⟨forms, rfl⟩ | hc
  · obtain ⟨hhead, hname⟩ := h.1 forms rfl
    have hnone : e.macroFor caller (.list (.sym .handler :: forms)) = none := hhead
    rw [expandWithin_of_none hnone]
    cases forms with
    | nil => rfl
    | cons name body =>
        change (body.mapM (e.expandWithin caller n) >>= fun ws =>
          pure (Value.list (.sym .handler :: name :: ws))) =
            ((name :: body).mapM (e.expandWithin caller n) >>= fun ws =>
              pure (Value.list (.sym .handler :: ws)))
        rw [List.mapM_cons, (hname name rfl).expandWithin_eq]
        simp only [bind_assoc, pure_bind]
  · have hnone : e.macroFor caller (.list (.sym .cleanup :: forms)) = none := h.2 forms rfl
    rw [expandWithin_of_none hnone]
    rfl
  · rw [expandClauseWithin, hc]
    simp

theorem expandsAlike_attempt {args : List Value}
    (hbare : e.registry.lookup caller .attempt = none)
    (hcore : e.registry.lookup caller ⟨"try", some coreNamespace⟩ = none)
    (hargs : ∀ c ∈ args, e.KeepsClause caller c) :
    e.ExpandsAlike caller .attempt ⟨"try", some coreNamespace⟩ args := by
  intro s
  obtain ⟨r, t, hr⟩ : ∃ r t, Gives (m := StateM ExpansionState)
      (args.mapM (e.expandWithin caller e.maxDepth.toNat)) s r t := ⟨_, _, rfl⟩
  have hclauses : args.mapM (e.expandClauseWithin caller e.maxDepth.toNat) =
      args.mapM (e.expandWithin caller e.maxDepth.toNat) :=
    mapM_congr fun c hc => (hargs c hc).expandClauseWithin_eq
  refine ⟨r, t, ?_, ?_⟩
  · rw [expandAll, expandWithin_attempt hbare, hclauses]
    exact gives_bind_pure.mpr ⟨r, hr, rfl⟩
  · rw [expandAll, expandWithin_coreAttempt hcore]
    exact gives_bind_pure.mpr ⟨r, hr, rfl⟩

end Expander

/-- The macro of the same name that stands for nothing, whatever it is called with. -/
def Macro.silenced (m : Macro) : Macro where
  name := m.name
  parameters := ⟨[], some "rest", by simp⟩
  body := .nil
  ns := m.ns

/-- The registry with nothing behind its names. -/
def Registry.silenced (r : Registry) : Registry where
  macros := r.macros.map Macro.silenced
  keys_nodup := by
    rw [List.map_map]
    exact r.keys_nodup

theorem Registry.lookup_silenced (r : Registry) (caller : Option Namespace) (s : Symbol) :
    r.silenced.lookup caller s = (r.lookup caller s).map Macro.silenced := by
  unfold lookup
  split
  · exact List.find?_map
  · unfold newest?
    rw [silenced, ← List.map_reverse]
    exact List.find?_map
  · exact List.find?_map

namespace Expander

/-- The expander whose macros stand for nothing. -/
def silenced (e : Expander) : Expander := { e with registry := e.registry.silenced, maxDepth := 1 }

variable {e : Expander} {caller : Option Namespace} {s : ExpansionState}

theorem knowsSame_silenced : e.KnowsSame caller e.silenced := by
  intro s
  rw [silenced, Registry.lookup_silenced, Option.isSome_map]

theorem gives_expandOnce_silenced {v : Value} {m : Macro}
    (h : e.silenced.macroFor caller v = some m) (hs : s.log.traced = false) :
    Gives (m := StateM ExpansionState) (e.silenced.expandOnce caller v) s (.ok .nil) s := by
  obtain ⟨name, args, rfl, hm, hcall⟩ := exists_of_macroFor h
  rw [silenced, Registry.lookup_silenced] at hm
  obtain ⟨m, -, rfl⟩ := Option.map_eq_some_iff.mp hm
  have hbound : bindings m.silenced (.list (.sym name :: args)) args =
      .ok (m.silenced.parameters.bind args) := bindings_eq_ok_iff.mpr ⟨rfl, rfl⟩
  have hfinished := gives_finished (m := m.silenced) (v := .nil) (s := s) (by simp [hs])
  have hlog : s.log.record (.expanded m.silenced.name Value.nil.sequenced.quoted) = s.log := by
    rw [Log.record, if_pos (by simp [LogEvent.isTrace, hs])]
  rw [hlog] at hfinished
  rw [hcall]
  exact (gives_expandCall hbound).mpr (.inr ⟨.nil, s.allocator, rfl, hfinished⟩)

theorem exists_gives_silenced (hs : s.log.traced = false) (v : Value) :
    ∃ w, Gives (m := StateM ExpansionState) (e.silenced.expandWithin caller 1 v) s (.ok w) s ∧
      (w = v → e.silenced.IsExpanded caller v) := by
  induction hsize : sizeOf v using Nat.strongRecOn generalizing v with
  | ind size ih =>
      subst hsize
      cases hm : e.silenced.macroFor caller v with
      | some m =>
          obtain ⟨name, args, rfl, -⟩ := exists_of_macroFor hm
          refine ⟨.nil, ?_, nofun⟩
          rw [expandWithin_succ hm]
          exact gives_bind.mpr (.inr ⟨_, _, gives_expandOnce_silenced hm hs, rfl⟩)
      | none =>
          have hparts : ∀ w ∈ v.parts, ∃ u, Gives (m := StateM ExpansionState)
              (e.silenced.expandWithin caller 1 w) s (.ok u) s ∧
                (u = w → e.silenced.IsExpanded caller w) :=
            fun w hw => ih _ (Value.sizeOf_lt_of_mem_parts hw) w rfl
          obtain ⟨ws, hws, hall⟩ := exists_gives_mapM fun w hw =>
            (hparts w hw).imp fun _ => And.left
          refine ⟨v.positions.fill ws, ?_, fun hfill => .intro hm fun w hw => ?_⟩
          · rw [expandWithin_of_none hm]
            exact gives_bind_pure_ok.mpr ⟨ws, hws, rfl⟩
          · obtain rfl : ws = v.parts := Value.fill_injective hall.length_eq.symm rfl
              (hfill.trans v.fill_parts.symm)
            obtain ⟨u, hu, hexpanded⟩ := hparts w hw
            have hself := List.forall₂_same.mp hall w hw
            exact hexpanded (Except.ok.inj (Prod.mk.inj (hu.symm.trans hself)).1)

theorem eq_nil_of_gives_silenced (hs : s.log.traced = false) {v w : Value} {m : Macro}
    {t : ExpansionState} (hm : e.silenced.macroFor caller v = some m)
    (h : Gives (m := StateM ExpansionState) (e.silenced.expandWithin caller 1 v) s (.ok w) t) :
    w = .nil := by
  rw [expandWithin_succ hm] at h
  obtain ⟨u, _, hu, hw⟩ := gives_bind_ok.mp h
  obtain ⟨hu, -⟩ := Prod.mk.inj (hu.symm.trans (gives_expandOnce_silenced hm hs))
  cases hu
  exact Except.ok.inj (gives_pure.mp hw).1

theorem keepsClause_of_gives (hs : s.log.traced = false) {c w : Value} {t t' : ExpansionState}
    (hclause : Gives (m := StateM ExpansionState) (e.silenced.expandClauseWithin caller 1 c) s
      (.ok w) t)
    (hform : Gives (m := StateM ExpansionState) (e.silenced.expandWithin caller 1 c) s (.ok w) t') :
    e.silenced.KeepsClause caller c := by
  obtain ⟨us, -, hclause⟩ := gives_bind_pure_ok.mp hclause
  have no_macro {items : List Value} (hw : w = .list items) :
      e.silenced.macroFor caller c = none := by
    cases hm : e.silenced.macroFor caller c with
    | none => rfl
    | some m => exact nomatch hw.symm.trans (eq_nil_of_gives_silenced hs hm hform)
  constructor
  · rintro forms rfl
    have hm : e.silenced.macroFor caller (.list (.sym .handler :: forms)) = none :=
      no_macro hclause
    refine ⟨hm, fun name hname => ?_⟩
    obtain ⟨body, rfl⟩ := List.head?_eq_some_iff.mp hname
    rw [expandWithin_of_none hm] at hform
    obtain ⟨ws, hws, rfl⟩ := gives_bind_pure_ok.mp hform
    obtain ⟨b, u, bs, hb, -, rfl⟩ := gives_mapM_cons_ok.mp hws
    obtain rfl : b = name := (List.cons.inj (List.cons.inj (Value.list.inj hclause)).2).1
    obtain ⟨b', hb', hexpanded⟩ := @exists_gives_silenced e caller s hs b
    exact hexpanded (Except.ok.inj (Prod.mk.inj (hb'.symm.trans hb)).1)
  · rintro forms rfl
    exact no_macro hclause

/-- With macros that stand for nothing, the two spellings of a `try` differ wherever a clause is not
one that need not be protected. -/
theorem keepsClause_of_expandsAlike {args : List Value}
    (hbare : e.silenced.registry.lookup caller .attempt = none)
    (hcore : e.silenced.registry.lookup caller ⟨"try", some coreNamespace⟩ = none)
    (h : e.silenced.ExpandsAlike caller .attempt ⟨"try", some coreNamespace⟩ args)
    {c : Value} (hc : c ∈ args) : e.silenced.KeepsClause caller c := by
  have hs : ({} : ExpansionState).log.traced = false := rfl
  have form (v : Value) : ∃ w, Gives (m := StateM ExpansionState)
      (e.silenced.expandWithin caller 1 v) ({} : ExpansionState) (.ok w) ({} : ExpansionState) :=
    (exists_gives_silenced hs v).imp fun _ => And.left
  have clause (c : Value) : ∃ w, Gives (m := StateM ExpansionState)
      (e.silenced.expandClauseWithin caller 1 c) ({} : ExpansionState) (.ok w)
        ({} : ExpansionState) := by
    obtain ⟨ws, hws, -⟩ := exists_gives_mapM fun w (_ : w ∈ c.clausePositions.forms) => form w
    exact ⟨_, gives_bind_pure_ok.mpr ⟨ws, hws, rfl⟩⟩
  have eq_ok {r : Except Failure (List Value)} {head : Symbol} {vs : List Value}
      (hr : r.map (fun args' => Value.list (.sym head :: args')) = .ok (.list (.sym head :: vs))) :
      r = .ok vs := by
    cases r with
    | error f => exact nomatch hr
    | ok args' =>
        cases hr
        rfl
  obtain ⟨us, hus, hclauses⟩ := exists_gives_mapM fun c (_ : c ∈ args) => clause c
  obtain ⟨ws, hws, hforms⟩ := exists_gives_mapM fun c (_ : c ∈ args) => form c
  obtain ⟨r, t, hattempt, hcoreAttempt⟩ := h {}
  rw [expandAll, expandWithin_attempt hbare] at hattempt
  rw [expandAll, expandWithin_coreAttempt hcore] at hcoreAttempt
  have hus' := gives_bind_pure_ok (g := fun cs => Value.list (.sym .attempt :: cs)).mpr
    ⟨us, hus, rfl⟩
  have hws' := gives_bind_pure_ok
    (g := fun cs => Value.list (.sym ⟨"try", some coreNamespace⟩ :: cs)).mpr ⟨ws, hws, rfl⟩
  obtain rfl := eq_ok (Prod.mk.inj (hattempt.symm.trans hus')).1
  obtain rfl := Except.ok.inj (eq_ok (Prod.mk.inj (hcoreAttempt.symm.trans hws')).1)
  have hkept := hclauses.mp (fun c w hclause hform =>
    And.intro (keepsClause_of_gives hs hclause hform) hform) hforms
  exact ((List.forall₂_and_left _ _).mp hkept).1 c hc

/-- A special form expands alike in both spellings, except for `try`: with the macros whose names are
known, whatever they stand for, its two spellings expand alike exactly if every clause is one that
need not be protected. The evaluator runs the same form in any case. -/
theorem expandsAlike_spellings (e : Expander) (caller : Option Namespace) (name : String)
    (hbare : e.registry.lookup caller ⟨name, none⟩ = none)
    (hcore : e.registry.lookup caller ⟨name, some coreNamespace⟩ = none) (args : List Value) :
    (name ≠ "try" →
      e.ExpandsAlike caller ⟨name, none⟩ ⟨name, some coreNamespace⟩ args) ∧
    (name = "try" →
      ((∀ e' : Expander, e.KnowsSame caller e' →
          e'.ExpandsAlike caller ⟨name, none⟩ ⟨name, some coreNamespace⟩ args) ↔
        ∀ c ∈ args, e.KeepsClause caller c)) ∧
    ∀ form, SpecialForm.ofSymbol? ⟨name, none⟩ = some form → ∀ n locals,
      Evaluation.evalTree (n + 1) locals (.list (.sym ⟨name, some coreNamespace⟩ :: args)) =
        Evaluation.evalTree (n + 1) locals (.list (.sym ⟨name, none⟩ :: args)) := by
  refine ⟨fun hname => ?_, ?_, fun form hform n locals => ?_⟩
  · obtain ⟨forms, fillArgs, hpositions⟩ := Value.exists_positions_eq hname args
    exact expandsAlike_of_positions hbare hcore (hpositions _ rfl rfl) (hpositions _ rfl rfl)
  · rintro rfl
    constructor
    · intro h c hc
      have hknows : e.KnowsSame caller e.silenced := knowsSame_silenced
      exact hknows.symm.keepsClause (keepsClause_of_expandsAlike (hknows.lookup_eq_none.mpr hbare)
        (hknows.lookup_eq_none.mpr hcore) (h _ hknows) hc)
    · intro h e' hknows
      exact expandsAlike_attempt (hknows.lookup_eq_none.mpr hbare) (hknows.lookup_eq_none.mpr hcore)
        fun c hc => hknows.keepsClause (h c hc)
  · have hcoreForm := (SpecialForm.ofSymbol?_core name).trans hform
    rw [Evaluation.evalTree_head ⟨_, hform⟩, Evaluation.evalTree_head ⟨_, hcoreForm⟩]

theorem expandsAlike_spellings_catch :
    (only .passing).ExpandsAlike none .attempt ⟨"try", some coreNamespace⟩
      [.list [.bare "m", .int 1],
        .list [.sym .handler, .bare "e", .list [.bare "m", .bare "e"]]] := by
  refine ((expandsAlike_spellings (only .passing) none "try" rfl rfl _).2.1 rfl).mpr ?_ _
    fun _ => rfl
  intro c hc
  rcases List.mem_pair.mp hc with rfl | rfl
  · constructor <;> intro forms hforms <;>
      simp [Value.bare, Symbol.handler, Symbol.cleanup] at hforms
  · refine ⟨fun forms hforms => ⟨rfl, fun name hname => ?_⟩, fun forms hforms => ?_⟩
    · cases hforms
      cases hname
      exact .intro rfl fun w hw => absurd hw List.not_mem_nil
    · simp [Symbol.handler, Symbol.cleanup] at hforms

end Expander

/-- A macro that has the name of a clause, and stands for its second argument. -/
def Macro.catching : Macro where
  name := "catch"
  parameters := ⟨["e", "body"], none, by simp⟩
  body := .bare "body"
  ns := "u"

/-- In `(synquote.core/try (catch e 1))` the clause is a call of the macro `catch`. -/
theorem not_expandsAlike_catching :
    ¬∀ (e : Expander) (caller : Option Namespace) (name : String) (args : List Value),
      name ∈ ["quote", "syntax-quote", "let", "try"] →
      e.registry.lookup caller ⟨name, none⟩ = none →
      e.registry.lookup caller ⟨name, some coreNamespace⟩ = none →
      e.ExpandsAlike caller ⟨name, none⟩ ⟨name, some coreNamespace⟩ args := by
  intro h
  obtain ⟨r, t, hbare, hcore⟩ := h (.only .catching) (some { name := "u" }) "try"
    [.list [.sym .handler, .bare "e", .int 1]] (by simp) rfl rfl {}
  have hbare' : (Except.ok (Value.list [.sym .attempt,
      .list [.sym .handler, .bare "e", .int 1]]) : Except Failure Value) = _ :=
    congrArg Prod.fst hbare
  have hcore' : (Except.ok (Value.list [.sym ⟨"try", some coreNamespace⟩, .int 1]) :
      Except Failure Value) = _ := congrArg Prod.fst hcore
  cases r with
  | error f => exact nomatch hbare'
  | ok args' =>
      have hkept := (List.cons.inj (Value.list.inj (Except.ok.inj hbare'))).2
      have hcalled := (List.cons.inj (Value.list.inj (Except.ok.inj hcore'))).2
      exact nomatch hkept.trans hcalled.symm

end Quasiquote
