import Quasiquote.Proofs.Evaluation.Frames
import Quasiquote.Proofs.Evaluation.Rounds
import Quasiquote.Proofs.Evaluation.Tail

namespace Quasiquote.Evaluation

open Stateful

variable {α : Type} {call : Calling} {locals : List Frame} {s t u : Session}

/-- The evaluation of a tree ends with a result and leaves a session, if it has enough steps. -/
def EvaluatesTo (call : Calling) (locals : List Frame) (tree : Value) (s : Session)
    (r : Except Failure Value) (t : Session) : Prop :=
  ∃ n, Gives (m := StateT Session Option) (evalTreeBy call exhausted n locals tree) s r t

/-- Forms are evaluated one after the other up to the first that fails. The result is that of the last
form, or nil if there is none. -/
inductive Runs (call : Calling) (locals : List Frame) :
    List Value → Session → Except Failure Value → Session → Prop
  | none {s : Session} : Runs call locals [] s (.ok .nil) s
  | last {form : Value} {s t : Session} {r : Except Failure Value} :
      EvaluatesTo call locals form s r t → Runs call locals [form] s r t
  | failed {form next : Value} {forms : List Value} {s t : Session} {f : Failure} :
      EvaluatesTo call locals form s (.error f) t →
      Runs call locals (form :: next :: forms) s (.error f) t
  | next {form next : Value} {forms : List Value} {s t u : Session} {v : Value}
      {r : Except Failure Value} : EvaluatesTo call locals form s (.ok v) t →
      Runs call locals (next :: forms) t r u → Runs call locals (form :: next :: forms) s r u

/-- The evaluator of trees ends with a result and leaves a session, if it has enough steps. -/
def Evaluates (locals : List Frame) (tree : Value) (s : Session) (r : Except Failure Value)
    (t : Session) : Prop :=
  ∃ n, Gives (m := StateT Session Option) (evalTree n locals tree) s r t

/-- With the functions that there are, this is what the evaluator of trees comes to. -/
theorem evaluatesTo_call_iff {tree : Value} {r : Except Failure Value} :
    EvaluatesTo (fun _ => Evaluating.call) locals tree s r t ↔ Evaluates locals tree s r t :=
  exists_congr fun n => by rw [← evalTreeBy_call_exhausted n]; rfl

theorem ext_gives {x y : Evaluating α}
    (h : ∀ s r t, Gives (m := StateT Session Option) x s r t ↔
      Gives (m := StateT Session Option) y s r t) : x = y := by
  funext s
  refine Option.ext fun p => ?_
  exact h s p.1 p.2

theorem refines_evalLevelBy {ev ev' : Evaluator}
    (h : ∀ inner tree, Refines (ev inner tree) (ev' inner tree)) (locals : List Frame) (tree : Value) :
    Refines (evalLevelBy call ev (fun locals tree => expanded tree >>= ev locals) locals tree)
      (evalLevelBy call ev' (fun locals tree => expanded tree >>= ev' locals) locals tree) :=
  evalLevelBy_of_fresh (closed_refines false true) (fun _ _ _ _ h => h) call
    (fun b => cond b ev' ev) (fun b locals tree => expanded tree >>= cond b ev' ev locals)
    (fun _ => locals) tree (fun form _ => form.changesBy_true) (fun _ _ _ _ _ h => h)
    (fun inner _ w _ => h (inner ++ locals) w) (fun _ _ _ _ _ h => h)
    (refines_bind (fun _ _ _ h => h) fun tree => h locals tree)

theorem refines_evalTreeBy_succ (n : Nat) (locals : List Frame) (tree : Value) :
    Refines (evalTreeBy call exhausted n locals tree)
      (evalTreeBy call exhausted (n + 1) locals tree) := by
  induction n generalizing locals tree with
  | zero => exact refines_exhausted _
  | succ n ih => exact refines_evalLevelBy ih locals tree

theorem refines_evalTreeBy {m n : Nat} (h : m ≤ n) (locals : List Frame) (tree : Value) :
    Refines (evalTreeBy call exhausted m locals tree) (evalTreeBy call exhausted n locals tree) := by
  induction h with
  | refl => exact fun _ _ _ h => h
  | step _ ih => exact fun s r t h => refines_evalTreeBy_succ _ locals tree s r t (ih s r t h)

theorem EvaluatesTo.unique {tree : Value} {r r' : Except Failure Value} {t' : Session}
    (h : EvaluatesTo call locals tree s r t) (h' : EvaluatesTo call locals tree s r' t') :
    r' = r ∧ t' = t := by
  obtain ⟨m, hm⟩ := h
  obtain ⟨n, hn⟩ := h'
  exact Evaluating.gives_unique
    (refines_evalTreeBy (Nat.le_max_left m n) locals tree s r t hm)
    (refines_evalTreeBy (Nat.le_max_right m n) locals tree s r' t' hn)

open Classical in
/-- Evaluation with as many steps as it takes. -/
noncomputable def evalUnbounded (call : Calling) : Evaluator := fun locals tree => ExceptT.mk fun s =>
  if h : ∃ p : Except Failure Value × Session, EvaluatesTo call locals tree s p.1 p.2 then
    some h.choose
  else none

open Classical in
theorem gives_evalUnbounded {tree : Value} {r : Except Failure Value} :
    Gives (m := StateT Session Option) (evalUnbounded call locals tree) s r t ↔
      EvaluatesTo call locals tree s r t := by
  change (if h : ∃ p : Except Failure Value × Session, EvaluatesTo call locals tree s p.1 p.2 then
    some h.choose else none) = some (r, t) ↔ _
  constructor
  · intro h
    split at h
    · rename_i hex
      have hp := hex.choose_spec
      rwa [Option.some.inj h] at hp
    · exact nomatch h
  · intro h
    have hex : ∃ p : Except Failure Value × Session, EvaluatesTo call locals tree s p.1 p.2 :=
      ⟨(r, t), h⟩
    rw [dif_pos hex]
    obtain ⟨hr, ht⟩ := h.unique hex.choose_spec
    exact congrArg some (Prod.ext hr ht)

theorem refines_evalUnbounded (n : Nat) (locals : List Frame) (tree : Value) :
    Refines (evalTreeBy call exhausted n locals tree) (evalUnbounded call locals tree) :=
  fun _ _ _ h => gives_evalUnbounded.mpr ⟨n, h⟩

theorem approaches_evalUnbounded (locals : List Frame) (tree : Value) :
    Approaches (fun n => evalTreeBy call exhausted n locals tree) (evalUnbounded call locals tree) :=
  ⟨fun hmn => refines_evalTreeBy hmn locals tree, fun h => gives_evalUnbounded.mp h⟩

/-- Evaluation without a bound is one level of evaluation, below which there is no bound either. -/
theorem evalUnbounded_eq (call : Calling) (locals : List Frame) (tree : Value) :
    evalUnbounded call locals tree = evalLevelBy call (evalUnbounded call)
      (fun locals tree => expanded tree >>= evalUnbounded call locals) locals tree := by
  refine ext_gives fun s r t => gives_evalUnbounded.trans ⟨?_, fun h => ?_⟩
  · rintro ⟨n, hn⟩
    cases n with
    | zero => exact nomatch hn
    | succ n => exact refines_evalLevelBy (refines_evalUnbounded n) locals tree s r t hn
  · have hlevel := evalLevelBy_of_fresh closed_approaches (fun _ => approaches_const _) call
      (fun i => i.elim (evalUnbounded call) (evalTreeBy call exhausted))
      (fun i locals tree =>
        expanded tree >>= i.elim (evalUnbounded call) (evalTreeBy call exhausted) locals)
      (fun _ => locals) tree (fun form _ => form.changesBy_true) (fun _ _ => approaches_const _)
      (fun inner _ w _ => approaches_evalUnbounded (inner ++ locals) w)
      (fun _ _ => approaches_const _)
      (approaches_bind (approaches_const _) fun tree => approaches_evalUnbounded locals tree)
    obtain ⟨n, hn⟩ := hlevel.attains h
    exact ⟨n + 1, hn⟩

theorem gives_evalSequence_iff {forms : List Value} {r : Except Failure Value} :
    Gives (m := StateT Session Option) (evalSequence (evalUnbounded call) locals forms) s r t ↔
      Runs call locals forms s r t := by
  induction forms generalizing s with
  | nil =>
      rw [evalSequence, gives_pure]
      constructor
      · rintro ⟨rfl, rfl⟩
        exact .none
      · intro h
        cases h
        exact ⟨rfl, rfl⟩
  | cons form forms ih =>
      cases forms with
      | nil =>
          rw [evalSequence, gives_evalUnbounded]
          constructor
          · exact .last
          · intro h
            cases h
            assumption
      | cons next forms =>
          change Gives (m := StateT Session Option) (evalUnbounded call locals form >>= fun _ =>
            evalSequence (evalUnbounded call) locals (next :: forms)) s r t ↔ _
          rw [gives_bind]
          simp only [gives_evalUnbounded, ih]
          constructor
          · rintro (⟨f, hf, rfl⟩ | ⟨v, u, hv, hrest⟩)
            · exact .failed hf
            · exact .next hv hrest
          · intro h
            cases h with
            | failed hf => exact .inl ⟨_, hf, rfl⟩
            | next hv hrest => exact .inr ⟨_, _, hv, hrest⟩

theorem evalUnbounded_head {form : SpecialForm} (head : form.Head) (call : Calling)
    (locals : List Frame) (args : List Value) :
    evalUnbounded call locals (.list (.sym head :: args)) =
      evalSpecial (evalUnbounded call) locals args form := by
  rw [evalUnbounded_eq, evalLevelBy_head]

end Quasiquote.Evaluation
