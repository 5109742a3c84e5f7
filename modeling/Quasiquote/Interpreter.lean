import Quasiquote.Evaluation.Tree
import Quasiquote.Reader.Form

namespace Quasiquote

/-- The tree that a failure is about. Only failures of expansion have one. -/
def Failure.node? : Failure → Option Value
  | .expansion _ node _ => node
  | .again _ f => f.node?
  | _ => none

namespace Interpreter

/-- How deep evaluation may be nested. -/
def stepBound : Nat := 1000

/-- The text of a diagnostic in the log, with the layout of the tree that it is about. -/
def diagnosticText (message : String) (node : Option Value) : Except Failure String :=
  match node with
  | none => pure message
  | some v => do
      let place ← v.laidOut {} 0
      pure (message ++ "\n  at: " ++ String.ofList place)

/-- Report a diagnostic about a tree. It fails if the tree cannot be written. -/
def emitDiagnostic (message : String) (node : Option Value) : Evaluating Unit := do
  if (← get).logsDiagnostics then
    let text ← MonadExcept.ofExcept (diagnosticText message node)
    modify fun s => s.record (.diagnostic text)
  else
    let node ← node.mapM fun v => Evaluating.written v id
    modify fun s => { s with diagnostics := (message, node) :: s.diagnostics }

/-- Evaluate a tree outside of all frames. A failure of expansion is reported before it goes on. -/
def evalForm (tree : Value) : Evaluating Value := do
  match ← (Evaluation.evaluate stepBound [] tree).outcome with
  | .ok v => pure v
  | .error f =>
      if f.isExpansion then emitDiagnostic f.message (f.node? <|> some tree)
      throw f

/-- Evaluate trees in order. The first failure ends the row. -/
def evalForms : List Value → Evaluating Value
  | [] => pure .nil
  | [tree] => evalForm tree
  | tree :: trees => do
      let _ ← evalForm tree
      evalForms trees

/-- Evaluate a text. Nothing is evaluated if some part of it cannot be read. -/
def evalText (text : List Char) : Evaluating Value := do
  evalForms (← MonadExcept.ofExcept (Reader.readAll text))

/-- The tree that a host means by a value: a text is source and is read. -/
def treeOf : Value → Except Failure Value
  | .str s => Reader.readOne s.toList
  | v => pure v

/-- Expand a tree once, if it is a macro call, in the current namespace. -/
def expandOnce (tree : Value) : Evaluating Value :=
  Evaluating.expanding fun e caller => e.expandOnceIfCall caller tree

def expandAll (tree : Value) : Evaluating Value :=
  Evaluating.expanding fun e caller => e.expandAll caller tree

def showExpansion (style : LineStyle) (tree : Value) : Evaluating String := do
  let result ← expandAll tree
  String.ofList <$> MonadExcept.ofExcept (result.laidOut style 0)

/-- Define a function of the host in the current namespace. It is a new function each time. -/
def define (name : String) (p : Probe) : Evaluating Symbol := do
  let qualified : Symbol := ⟨name, some (← get).current⟩
  let f := Primitive.probe p (← Evaluating.freshIdentity)
  modify fun s => (s.unrefer name).setGlobal qualified (.fn f)
  pure qualified

end Interpreter

end Quasiquote
