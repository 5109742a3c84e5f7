import Quasiquote.Evaluation.Forms

/-!
The evaluator of trees. Its recursion is on a number of steps, one for each level of nesting, so
it ends for every tree; a tree that needs more levels has no outcome.
-/

namespace Quasiquote.Evaluation

/-- A tree as it is evaluated: with its macro calls expanded, unless it is a form whose arguments
are left as they are. -/
def expanded (tree : Value) : Evaluating Value :=
  if (SpecialForm.heading? tree).any SpecialForm.keepsArguments then pure tree
  else Evaluating.expanding fun e caller => e.expandAll caller tree

/-- Evaluate a tree inside the given frames, whose macro calls have been expanded. A list whose
head names a macro all the same, because the macro has been defined only now, is expanded first. -/
def evalTree : Nat → List Frame → Value → Evaluating Value
  | 0, _, _ => Evaluating.exhausted
  | _ + 1, locals, .sym s => Evaluating.lookup locals s
  | _ + 1, _, .list [] => pure (.list [])
  | n + 1, locals, .list (head :: args) => do
      let special := match head with
        | .sym s => SpecialForm.ofSymbol? s
        | _ => none
      match special with
      | some form => evalSpecial (evalTree n) locals args form
      | none =>
          let session ← get
          let caller := some session.currentNamespace
          if (session.expander.macroFor caller (.list (head :: args))).isSome then
            evalTree n locals (← expanded (.list (head :: args)))
          else
            match ← evalTree n locals head with
            | .fn f => do Evaluating.call f (← args.mapM (evalTree n locals))
            | v => throw (.typing (.notCallable (← Evaluating.written v Value.quoted)))
  | _ + 1, _, v => pure v

/-- Expand a tree and evaluate what that gives. -/
def evaluate (steps : Nat) (locals : List Frame) (tree : Value) : Evaluating Value := do
  evalTree steps locals (← expanded tree)

end Quasiquote.Evaluation
