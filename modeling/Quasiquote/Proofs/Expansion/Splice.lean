import Quasiquote.Proofs.Evaluation.Template
import Quasiquote.Proofs.Expansion.Once
import Quasiquote.Proofs.Macro.Parameters
import Quasiquote.Proofs.Template.Resolve

namespace Quasiquote

open Stateful

namespace Value

theorem isSpliceFree_sequenced_iff {v : Value} : v.sequenced.isSpliceFree = true ↔ v.IsClean := by
  cases v with
  | splice items =>
      rw [sequenced, isSpliceFree_list_iff, List.forall_mem_cons]
      exact and_iff_right rfl
  | _ => simp [IsClean, spread, sequenced]

end Value

namespace Expander

theorem isSpliceFree_of_find?_bindings {m : Macro} {call : Value} {args : List Value}
    {bound : Table String Value} (hb : bindings m call args = .ok bound)
    (ha : ∀ w ∈ args, w.isSpliceFree = true) {name : String} {v : Value}
    (hv : bound.find? name = some v) : v.isSpliceFree = true := by
  obtain ⟨haccepts, rfl⟩ := bindings_eq_ok_iff.mp hb
  rcases (Parameters.find?_bind_iff haccepts).mp hv with ⟨i, -, hi⟩ | ⟨-, rfl⟩
  · exact ha v (List.mem_of_getElem? hi)
  · exact Value.isSpliceFree_list_iff.mpr fun w hw => ha w (List.mem_of_mem_drop hw)

end Expander

open Evaluation in
/-- An expansion holds no splice if no template that its body builds leaves one behind, and it
holds one if some template does that no helper stands around. The value of a template with splice
free values for its escapes holds a splice exactly if the template leaves one behind. -/
theorem isSpliceFree_of_not_leaks (e : Expander) (caller : Option Namespace) (m : Macro)
    (ev : Evaluator) (locals : List Frame) :
    (∀ form, e.macroFor caller form = some m → e.helpers = Helper.builtin →
      m.body.isSpliceFree = true → form.isSpliceFree = true → ∀ (s s' : ExpansionState) tree,
        Gives (e.expandOnce caller form) s (.ok tree) s' →
          ((∀ t, Template.Builds True m.body t → ¬Template.Leaks 1 t) →
            tree.isSpliceFree = true) ∧
          ((∃ t, Template.Builds False m.body t ∧ Template.Leaks 1 t) →
            tree.isSpliceFree = false)) ∧
    ∀ t, t.isSpliceFree = true →
      (∀ escape ∈ Template.escapes 1 t, escape.level ≤ 1 → ∀ (s s' : Session) v,
        Gives (ev locals escape.arg) s (.ok v) s' →
          v.isSpliceFree = true) → ∀ (s s' : Session) v,
        Gives (evalTemplate ev locals [t]) s (.ok v) s' →
          (v.isSpliceFree = true ↔ ¬Template.Leaks 1 t) := by
  constructor
  · intro form hm hh hbody hform s s' tree h
    obtain ⟨name, args, bound, v, a, rfl, hb, hv, rfl⟩ := Expander.gives_expandOnce_ok hm h
    obtain ⟨table, hv⟩ := Building.gives_runFrom.mp hv
    have hargs : ∀ w ∈ args, w.isSpliceFree = true := fun w hw =>
      Value.isSpliceFree_list_iff.mp hform w (List.mem_cons_of_mem _ hw)
    constructor
    · intro hl
      refine Value.isSpliceFree_sequenced_iff.mpr (Template.isClean_of_gives_resolve ?_
        (fun _ _ => Expander.isSpliceFree_of_find?_bindings hb hargs) hbody hl hv)
      intro name h hname
      change e.helpers.find? name = _ at hname
      rw [hh] at hname
      exact Helper.makesNoSplice_of_builtin hname
    · rintro ⟨t, ht, hl⟩
      rw [← Bool.not_eq_true, Value.isSpliceFree_sequenced_iff]
      exact Template.not_isClean_of_gives_resolve hbody ht hl hv
  · intro t ht hescapes s s' v h
    obtain ⟨tree, table, hbuild, rfl⟩ := gives_evalTemplate_ok h
    obtain ⟨answers, hbuilt, ha⟩ := Template.built_of_gives templateResolver_movesAlong_grows
      hbuild (fun _ _ h => h)
    rw [Value.isSpliceFree_single_iff, hbuilt.isClean_iff (by omega) ht]
    refine and_iff_left fun a hmem => ?_
    obtain ⟨escape, he, hlevel, harg⟩ := Template.exists_escape hbuilt hmem
    obtain ⟨p, q, hanswer⟩ := ha a hmem
    rw [← harg] at hanswer
    exact Value.isClean_of_isSpliceFree
      (hescapes escape he hlevel _ _ _ (Building.gives_performFailing.mp hanswer).1)

/-- A macro that puts its arguments into a sequence: its body reads `(do ~@xs)` in a template. -/
def Macro.sequencing : Macro where
  name := "m"
  parameters := ⟨[], some "xs", by simp⟩
  body := .list [.sym .syntaxQuote,
    .list [.sym .sequence, .list [.sym .unquoteSplicing, .bare "xs"]]]
  ns := "u"

/-- A macro whose body reads `(b ~~@xs)` in a template inside a template. -/
def Macro.nestedEscapes : Macro where
  name := "m"
  parameters := ⟨[], some "xs", by simp⟩
  body := .list [.sym .syntaxQuote, .list [.sym .syntaxQuote, .list [.bare "b",
    .list [.sym .unquote, .list [.sym .unquoteSplicing, .bare "xs"]]]]]
  ns := "u"

theorem isSpliceFree_of_not_leaks_sequencing :
    (∃ (s' : ExpansionState) (tree : Value), Gives ((Expander.only .sequencing).expandOnce none
      (.list [.bare "m", .int 1, .int 2])) ({} : ExpansionState) (.ok tree) s' ∧
        tree.isSpliceFree = true) ∧
    ∃ (s' : Session) (v : Value), Gives (Evaluation.evalTemplate (fun _ => pure) []
      [.list [.bare "b", .list [.sym .unquoteSplicing, .list [.int 1]]]])
        (Session.start "u" 1000 4 {}) (.ok v) s' ∧ v.isSpliceFree = true := by
  have h := isSpliceFree_of_not_leaks (.only .sequencing) none .sequencing (fun _ => pure) []
  have noOther : ∀ t, Template.Builds True Macro.sequencing.body t → ¬Template.Leaks 1 t := by
    intro t ht
    cases ht with
    | self => decide
    | inner he _ hb =>
        cases List.mem_singleton.mp he
        exact nomatch hb
    | argument _ _ hs => exact absurd rfl hs
  constructor
  · exact ⟨_, _, rfl, (h.1 (.list [.bare "m", .int 1, .int 2]) rfl rfl rfl rfl {} _ _ rfl).1 noOther⟩
  · refine ⟨_, _, rfl, (h.2 (.list [.bare "b", .list [.sym .unquoteSplicing, .list [.int 1]]]) rfl
      ?_ (Session.start "u" 1000 4 {}) _ _ rfl).mpr (by decide)⟩
    intro escape he _ s s' v hv
    cases List.mem_singleton.mp he
    cases hv
    rfl

theorem not_isSpliceFree_nestedEscapes :
    ¬∀ (e : Expander) caller form m (s s' : ExpansionState) tree,
      e.macroFor caller form = some m → e.helpers = Helper.builtin → m.body.isSpliceFree = true →
        form.isSpliceFree = true → Gives (e.expandOnce caller form) s (.ok tree) s' →
          tree.isSpliceFree = true := by
  intro h
  have leaves := h (.only .nestedEscapes) none (.list [.bare "m", .int 1]) .nestedEscapes {} _ _
    rfl rfl rfl rfl rfl
  exact absurd leaves (by decide)

end Quasiquote
