import Quasiquote.Evaluation.Forms
import Quasiquote.Proofs.Template.Effect

namespace Quasiquote.Evaluation

open Stateful

/-- The site of a template that is evaluated in a session. -/
def templateSite (s : Session) : Site (StateT Session Option) where
  ns := fun s' => some (s'.expander.namespaceNamed s.current, s')
  maxNesting := s.expander.maxNesting

/-- The escapes of a template that is evaluated are evaluated too. -/
def templateResolver (ev : Evaluator) (locals : List Frame) : Resolver (StateT Session Option) :=
  .host fun form => Building.performFailing (ev locals form)

variable {ev : Evaluator} {locals : List Frame} {t : Value} {s s' : Session}

theorem gives_evalTemplate {r : Except Failure Value} :
    Gives (evalTemplate ev locals [t]) s r s' ↔
      ∃ built table, Gives (Template.build (templateSite s) (templateResolver ev locals) 1 t)
        (Table.empty, s) built (table, s') ∧ r = built.map Value.single := by
  unfold evalTemplate only
  rw [pure_bind, Evaluating.gives_get_bind, gives_bind_pure]
  simp only [Building.gives_runFrom, templateSite, templateResolver]
  constructor
  · rintro ⟨built, ⟨table, h⟩, rfl⟩
    exact ⟨built, table, h, rfl⟩
  · rintro ⟨built, table, h, rfl⟩
    exact ⟨built, ⟨table, h⟩, rfl⟩

theorem gives_evalTemplate_ok {v : Value} (h : Gives (evalTemplate ev locals [t]) s (.ok v) s') :
    ∃ tree table, Gives (Template.build (templateSite s) (templateResolver ev locals) 1 t)
      (Table.empty, s) (.ok tree) (table, s') ∧ v = tree.single := by
  obtain ⟨built | tree, table, hbuild, hr⟩ := gives_evalTemplate.mp h
  · exact nomatch hr
  · exact ⟨tree, table, hbuild, Except.ok.inj hr⟩

theorem templateResolver_movesAlong
    {R : RenameTable × Session → RenameTable × Session → Prop}
    (h : ∀ form table, Moves (m := StateT Session Option)
      (fun s t => R (table, s) (table, t)) (ev locals form)) :
    (templateResolver ev locals).MovesAlong R := by
  rintro f hf form ⟨table, s⟩ r ⟨table', t⟩ hgives
  cases hf
  obtain ⟨hev, rfl⟩ := Building.gives_performFailing.mp hgives
  exact h form _ hev

theorem templateResolver_movesAlong_grows :
    (templateResolver ev locals).MovesAlong fun p q => Grows p.1 q.1 :=
  templateResolver_movesAlong fun _ _ _ _ _ _ _ _ h => h

end Quasiquote.Evaluation
