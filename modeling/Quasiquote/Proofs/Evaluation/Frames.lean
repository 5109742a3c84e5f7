import Quasiquote.Proofs.Evaluation.TemplateCongruence

namespace Quasiquote.Evaluation

open Stateful

/-- Evaluation in which functions do what `call` does, and which goes on with another evaluator
where no steps are left. -/
def evalTreeBy (call : Calling) (last : Evaluator) : Nat → Evaluator
  | 0, locals, tree => last locals tree
  | n + 1, locals, tree =>
      evalLevelBy call (evalTreeBy call last n)
        (fun locals tree => expanded tree >>= evalTreeBy call last n locals) locals tree

theorem evalTreeBy_call_exhausted (n : Nat) :
    evalTreeBy (fun _ => Evaluating.call) (fun _ _ => Evaluating.exhausted) n = evalTree n := by
  induction n with
  | zero => rfl
  | succ n ih =>
      funext locals tree
      rw [evalTreeBy, evalTree_succ, ih]
      rfl

/-- An evaluator that gives up, without an outcome, inside frames that are not all bare. -/
def onBare (ev : Evaluator) : Evaluator := fun locals tree =>
  if ∀ frame ∈ locals, frame.IsBare then ev locals tree else Evaluating.exhausted

/-- Evaluation that gives up where it comes upon a frame that is not bare. -/
def evalBareBy (call : Calling) (last : Evaluator) : Nat → Evaluator
  | 0 => onBare last
  | n + 1 => onBare (evalLevelBy call (evalBareBy call last n) fun locals tree =>
      expanded tree >>= evalBareBy call last n locals)

variable {call : Calling} {ev ev' again again' : Evaluator} {locals : List Frame}

theorem onBare_eq (h : ∀ frame ∈ locals, frame.IsBare) (ev : Evaluator) (tree : Value) :
    onBare ev locals tree = ev locals tree :=
  if_pos h

theorem closed_agrees : Closed (fun _ => True) fun (α : Type) (x : Bool → Evaluating α) =>
    x true = x false where
  pure _ := rfl
  throw _ := rfl
  bind hx hf := congrArg₂ (· >>= ·) hx (funext hf)
  get := rfl
  modify _ _ := rfl
  identified := trivial
  performed _ := trivial
  outcome hx := congrArg Evaluating.outcome hx
  expandOnce _ := rfl
  expandAll _ := rfl

/-- One level of evaluation is the same with two evaluators that agree inside bare frames. -/
theorem evalLevelBy_congr (hlocals : ∀ frame ∈ locals, frame.IsBare)
    (hev : ∀ inner tree, (∀ frame ∈ inner, frame.IsBare) → ev inner tree = ev' inner tree)
    {tree : Value} (hagain : again locals tree = again' locals tree) :
    evalLevelBy call ev again locals tree = evalLevelBy call ev' again' locals tree :=
  evalLevelBy_of_fresh closed_agrees (fun _ => rfl) call (fun b => bif b then ev else ev')
    (fun b => bif b then again else again') (fun _ => locals) tree
    (fun form _ => form.changesBy_true) (fun _ _ => rfl)
    (fun inner hinner w _ => hev (inner ++ locals) w fun frame hframe =>
      (List.mem_append.mp hframe).elim (hinner frame) (hlocals frame))
    (fun _ _ => rfl) hagain

theorem evalBareBy_eq (last : Evaluator) (n : Nat) (hlocals : ∀ frame ∈ locals, frame.IsBare)
    (tree : Value) : evalBareBy call last n locals tree = evalTreeBy call last n locals tree := by
  induction n generalizing locals tree with
  | zero => exact onBare_eq hlocals last tree
  | succ n ih =>
      rw [evalBareBy, onBare_eq hlocals, evalTreeBy]
      refine evalLevelBy_congr hlocals (fun inner w hinner => ih hinner w) ?_
      rw [funext (ih hlocals)]

theorem isBare_of_gives_bindAll {bindings : List Value} {frame : Frame} {s t : Session}
    (h : Gives (m := StateT Session Option) (bindAll ev locals Table.empty bindings) s (.ok frame) t) :
    frame.IsBare := by
  let give (frame : Frame) : Evaluating Frame :=
    if frame.IsBare then pure frame else Evaluating.exhausted
  have hgive : bindAll ev locals Table.empty bindings >>= pure =
      bindAll ev locals Table.empty bindings >>= give :=
    closed_agrees.bindAll (fun _ => ev) (fun _ => locals)
      (f := fun b frame => bif b then pure frame else give frame)
      (fun frame hframe => (if_pos hframe).symm) Frame.isBare_empty fun _ _ _ _ => rfl
  rw [bind_pure] at hgive
  rw [hgive] at h
  rcases gives_bind.mp h with ⟨e, -, he⟩ | ⟨bound, u, -, hbound⟩
  · exact nomatch he
  · dsimp only [give] at hbound
    split at hbound
    · obtain ⟨heq, -⟩ := gives_pure.mp hbound
      cases heq
      assumption
    · exact nomatch hbound

theorem isBare_of_ofArguments {args forms : List Value} {parts : Attempt} {name : Symbol}
    (h : Attempt.ofArguments args = .ok parts) (hhandler : parts.handler = some (name, forms))
    (v : Value) : Frame.IsBare (Table.empty.insert name v) :=
  Frame.isBare_empty.insert ((Attempt.subset_of_ofArguments h).2.1 _ hhandler).1 v

end Quasiquote.Evaluation
