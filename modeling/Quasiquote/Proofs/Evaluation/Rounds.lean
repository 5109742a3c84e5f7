import Quasiquote.Proofs.Evaluation.TemplateCongruence

/-!
Rounds of evaluation. A tree is expanded before it is evaluated, but a call of a macro may be met all
the same; it is then expanded and evaluated anew, in a round of its own. Main statements: a round ends
if the rounds nested in it do, and evaluation is what rounds do that are nested finitely deep.
-/

namespace Quasiquote.Evaluation

open Stateful

variable {α : Type}

/-- A computation ends with a value or a failure, whatever the session. -/
def Ends (x : Evaluating α) : Prop :=
  ∀ s, ∃ r t, Gives (m := StateT Session Option) x s r t

/-- Whenever a computation ends, another one ends in the same way. -/
def Refines (x y : Evaluating α) : Prop :=
  ∀ s r t, Gives (m := StateT Session Option) x s r t → Gives (m := StateT Session Option) y s r t

theorem refines_exhausted (x : Evaluating α) : Refines Evaluating.exhausted x :=
  fun _ _ _ h => nomatch h

theorem refines_bind {β : Type} {x y : Evaluating α} {f g : α → Evaluating β} (hx : Refines x y)
    (hf : ∀ a, Refines (f a) (g a)) : Refines (x >>= f) (y >>= g) := by
  intro s r t h
  rcases gives_bind.mp h with ⟨e, he, rfl⟩ | ⟨a, u, ha, hrest⟩
  · exact gives_bind.mpr (.inl ⟨e, hx s _ t he, rfl⟩)
  · exact gives_bind.mpr (.inr ⟨a, u, hx s _ u ha, hf a u r t hrest⟩)

theorem closed_refines {ι : Type} (i j : ι) :
    Closed (fun _ => True) fun (α : Type) (x : ι → Evaluating α) => Refines (x i) (x j) where
  pure _ _ _ _ h := h
  throw _ _ _ _ h := h
  bind := refines_bind
  get _ _ _ h := h
  modify _ _ _ _ _ h := h
  identified := trivial
  performed _ := trivial
  outcome hx s r t h := by
    obtain ⟨r', hr, rfl⟩ := Evaluating.gives_outcome.mp h
    exact Evaluating.gives_outcome.mpr ⟨r', hx s r' t hr, rfl⟩
  expandOnce _ _ _ _ h := h
  expandAll _ _ _ _ h := h

theorem ends_bind {β : Type} {x : Evaluating α} {f : α → Evaluating β} (hx : Ends x)
    (hf : ∀ a, Ends (f a)) : Ends (x >>= f) := by
  intro s
  obtain ⟨r, t, h⟩ := hx s
  cases r with
  | error e => exact ⟨.error e, t, gives_bind.mpr (.inl ⟨e, h, rfl⟩)⟩
  | ok a =>
      obtain ⟨r', u, h'⟩ := hf a t
      exact ⟨r', u, gives_bind.mpr (.inr ⟨a, t, h, h'⟩)⟩

theorem closed_ends :
    Closed (fun _ => True) fun (α : Type) (x : Unit → Evaluating α) => Ends (x ()) where
  pure a s := ⟨.ok a, s, gives_pure.mpr ⟨rfl, rfl⟩⟩
  throw f s := ⟨.error f, s, gives_throw.mpr ⟨rfl, rfl⟩⟩
  bind := ends_bind
  get s := ⟨.ok s, s, Evaluating.gives_get.mpr ⟨rfl, rfl⟩⟩
  modify f _ s := ⟨.ok ⟨⟩, f s, Evaluating.gives_modify.mpr ⟨rfl, rfl⟩⟩
  identified := trivial
  performed _ := trivial
  outcome hx s := by
    obtain ⟨r, t, h⟩ := hx s
    exact ⟨.ok r, t, Evaluating.gives_outcome.mpr ⟨r, h, rfl⟩⟩
  expandOnce tree s := ⟨_, _, Evaluating.gives_expanding.mpr ⟨_, rfl, rfl⟩⟩
  expandAll tree s := ⟨_, _, Evaluating.gives_expanding.mpr ⟨_, rfl, rfl⟩⟩

theorem ends_fresh (lead : String) : Ends (fresh lead) :=
  fun _ => ⟨_, _, rfl⟩

/-- Computations with more and more steps come to all that a computation without a bound does. -/
structure Approaches (x : Nat → Evaluating α) (limit : Evaluating α) : Prop where
  mono {m n : Nat} : m ≤ n → Refines (x m) (x n)
  attains {s t : Session} {r : Except Failure α} : Gives (m := StateT Session Option) limit s r t →
    ∃ n, Gives (m := StateT Session Option) (x n) s r t

theorem approaches_const (x : Evaluating α) : Approaches (fun _ => x) x :=
  ⟨fun _ _ _ _ h => h, fun h => ⟨0, h⟩⟩

theorem approaches_bind {β : Type} {x : Nat → Evaluating α} {limit : Evaluating α}
    {f : Nat → α → Evaluating β} {rest : α → Evaluating β} (hx : Approaches x limit)
    (hf : ∀ a, Approaches (fun n => f n a) (rest a)) :
    Approaches (fun n => x n >>= f n) (limit >>= rest) := by
  refine ⟨fun hmn => refines_bind (hx.mono hmn) fun a => (hf a).mono hmn, fun {s t r} h => ?_⟩
  rcases gives_bind.mp h with ⟨e, he, rfl⟩ | ⟨a, u, ha, hrest⟩
  · obtain ⟨n, hn⟩ := hx.attains he
    exact ⟨n, gives_bind.mpr (.inl ⟨e, hn, rfl⟩)⟩
  · obtain ⟨n, hn⟩ := hx.attains ha
    obtain ⟨n', hn'⟩ := (hf a).attains hrest
    refine ⟨max n n', gives_bind.mpr (.inr ⟨a, u, ?_, ?_⟩)⟩
    · exact hx.mono (Nat.le_max_left n n') s _ u hn
    · exact (hf a).mono (Nat.le_max_right n n') u r t hn'

theorem closed_approaches : Closed (fun _ => True) fun (α : Type) (x : Option Nat → Evaluating α) =>
    Approaches (fun n => x (some n)) (x none) where
  pure a := approaches_const _
  throw f := approaches_const _
  bind := approaches_bind
  get := approaches_const _
  modify f _ := approaches_const _
  identified := trivial
  performed _ := trivial
  outcome hx := by
    refine ⟨fun hmn => (closed_refines false true).outcome (x := fun b => cond b _ _)
      (hx.mono hmn), fun h => ?_⟩
    obtain ⟨r', hr, rfl⟩ := Evaluating.gives_outcome.mp h
    obtain ⟨n, hn⟩ := hx.attains hr
    exact ⟨n, Evaluating.gives_outcome.mpr ⟨r', hn, rfl⟩⟩
  expandOnce tree := approaches_const _
  expandAll tree := approaches_const _

/-- One round of evaluation, with a bound on the levels of the tree. The calls of macros that it
meets are left to `again`. -/
def evalRound (again : Evaluator) : Nat → Evaluator
  | 0, _, _ => Evaluating.exhausted
  | n + 1, locals, tree => evalLevel (evalRound again n) again locals tree

/-- Expansion, and a round of evaluation that is given all the levels it needs. -/
noncomputable def evaluateRound (again : Evaluator) : Evaluator := fun locals tree => do
  let tree ← expanded tree
  evalRound again (sizeOf tree) locals tree

/-- Evaluation in which rounds are nested at most that deep. What would be a further round is left
to `last`. -/
noncomputable def evaluateWithin (last : Evaluator) : Nat → Evaluator
  | 0 => last
  | k + 1 => evaluateRound (evaluateWithin last k)

def exhausted : Evaluator := fun _ _ => Evaluating.exhausted

theorem ends_evalRound {again : Evaluator} (ha : ∀ locals tree, Ends (again locals tree)) (n : Nat)
    (locals : List Frame) (tree : Value) (hn : sizeOf tree ≤ n) :
    Ends (evalRound again n locals tree) := by
  induction n generalizing locals tree with
  | zero =>
      have := Value.sizeOf_pos tree
      omega
  | succ n ih =>
      exact evalLevel_of_smaller closed_ends ends_fresh (fun _ => evalRound again n)
        (fun _ => again) SpecialForm.changesBy_true
        (fun locals form hform => ih locals form (by omega)) (ha locals tree)

theorem ends_evaluateRound {again : Evaluator} (ha : ∀ locals tree, Ends (again locals tree))
    (locals : List Frame) (tree : Value) : Ends (evaluateRound again locals tree) :=
  ends_bind (closed_ends.expanded tree) fun tree => ends_evalRound ha _ locals tree (Nat.le_refl _)

theorem ends_evaluateWithin {last : Evaluator} (hlast : ∀ locals tree, Ends (last locals tree))
    (k : Nat) (locals : List Frame) (tree : Value) : Ends (evaluateWithin last k locals tree) := by
  induction k generalizing locals tree with
  | zero => exact hlast locals tree
  | succ k ih => exact ends_evaluateRound ih locals tree

theorem refines_evalLevel {ev ev' again again' : Evaluator} {locals : List Frame} {tree : Value}
    (h : ∀ locals form, sizeOf form < sizeOf tree → Refines (ev locals form) (ev' locals form))
    (ha : Refines (again locals tree) (again' locals tree)) :
    Refines (evalLevel ev again locals tree) (evalLevel ev' again' locals tree) :=
  evalLevel_of_smaller (closed_refines false true) (fun _ _ _ _ h => h)
    (fun b => cond b ev' ev) (fun b => cond b again' again) SpecialForm.changesBy_true h ha

theorem refines_evalTree_succ (n : Nat) (locals : List Frame) (tree : Value) :
    Refines (evalTree n locals tree) (evalTree (n + 1) locals tree) := by
  induction n generalizing locals tree with
  | zero => exact refines_exhausted _
  | succ n ih =>
      rw [evalTree_succ, evalTree_succ (n + 1)]
      exact refines_evalLevel (fun locals form _ => ih locals form)
        (refines_bind (fun _ _ _ h => h) fun tree => ih locals tree)

theorem refines_evalTree {m n : Nat} (h : m ≤ n) (locals : List Frame) (tree : Value) :
    Refines (evalTree m locals tree) (evalTree n locals tree) := by
  induction h with
  | refl => exact fun _ _ _ h => h
  | step _ ih => exact fun s r t h => refines_evalTree_succ _ locals tree s r t (ih s r t h)

/-- Evaluation with a bound on its steps is evaluation with as many nested rounds. -/
theorem refines_evalRound {n k : Nat} (hk : n ≤ k) (locals : List Frame) (tree : Value) {levels : Nat}
    (hl : n ≤ levels ∨ sizeOf tree ≤ levels) :
    Refines (evalTree n locals tree) (evalRound (evaluateWithin exhausted k) levels locals tree) := by
  induction n generalizing k locals tree levels with
  | zero => exact refines_exhausted _
  | succ n ih =>
      obtain ⟨k, rfl⟩ : ∃ k', k = k' + 1 := ⟨k - 1, by omega⟩
      obtain ⟨levels, rfl⟩ : ∃ levels', levels = levels' + 1 := by
        have := Value.sizeOf_pos tree
        exact ⟨levels - 1, by omega⟩
      rw [evalTree_succ]
      have hround : Refines (evaluate n locals tree)
          (evaluateWithin exhausted (k + 1) locals tree) :=
        refines_bind (fun _ _ _ h => h) fun tree =>
          ih (by omega) locals tree (.inr (Nat.le_refl _))
      exact refines_evalLevel (fun locals form hform => ih (by omega) locals form (by omega)) hround

theorem approaches_evalRound {again : Evaluator}
    (ha : ∀ locals tree, Approaches (evaluate · locals tree) (again locals tree))
    (levels : Nat) (locals : List Frame) (tree : Value) :
    Approaches (evalTree · locals tree) (evalRound again levels locals tree) := by
  induction levels generalizing locals tree with
  | zero => exact ⟨fun hmn => refines_evalTree hmn locals tree, fun h => nomatch h⟩
  | succ levels ih =>
      have hlevel := evalLevel_of_smaller closed_approaches (fun lead => approaches_const _)
        (fun i => i.elim (evalRound again levels) evalTree) (fun i => i.elim again evaluate)
        SpecialForm.changesBy_true (fun locals form _ => ih locals form) (ha locals tree)
      refine ⟨fun hmn => refines_evalTree hmn locals tree, fun h => ?_⟩
      obtain ⟨n, hn⟩ := hlevel.attains h
      refine ⟨n + 1, ?_⟩
      rw [evalTree_succ]
      exact hn

theorem approaches_evaluateRound {again : Evaluator}
    (ha : ∀ locals tree, Approaches (evaluate · locals tree) (again locals tree))
    (locals : List Frame) (tree : Value) :
    Approaches (evaluate · locals tree) (evaluateRound again locals tree) :=
  approaches_bind (approaches_const _) fun tree =>
    approaches_evalRound ha (sizeOf tree) locals tree

theorem refines_evaluate {m n : Nat} (h : m ≤ n) (locals : List Frame) (tree : Value) :
    Refines (evaluate m locals tree) (evaluate n locals tree) :=
  refines_bind (fun _ _ _ h => h) fun tree => refines_evalTree h locals tree

theorem approaches_evaluateWithin (k : Nat) (locals : List Frame) (tree : Value) :
    Approaches (evaluate · locals tree) (evaluateWithin exhausted k locals tree) := by
  induction k generalizing locals tree with
  | zero => exact ⟨fun hmn => refines_evaluate hmn locals tree, fun h => nomatch h⟩
  | succ k ih => exact approaches_evaluateRound ih locals tree

/-- Evaluation without a bound on its steps has an outcome exactly if it has it with some bound on the
nesting of rounds. -/
theorem gives_evaluate_iff_evaluateWithin {locals : List Frame} {tree : Value} {s t : Session}
    {r : Except Failure Value} :
    (∃ n, Gives (m := StateT Session Option) (evaluate n locals tree) s r t) ↔
      ∃ k, Gives (m := StateT Session Option) (evaluateWithin exhausted k locals tree) s r t := by
  constructor
  · rintro ⟨n, h⟩
    have hround : Refines (evaluate n locals tree) (evaluateWithin exhausted (n + 1) locals tree) :=
      refines_bind (fun _ _ _ h => h) fun tree =>
        refines_evalRound (Nat.le_refl n) locals tree (.inr (Nat.le_refl _))
    exact ⟨n + 1, hround s r t h⟩
  · rintro ⟨k, h⟩
    exact (approaches_evaluateWithin k locals tree).attains h

end Quasiquote.Evaluation
