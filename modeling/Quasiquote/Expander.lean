import Quasiquote.Macro.Registry
import Quasiquote.Template.Build

/-!
Macro expansion. `expandOnce` replaces one call by its expansion. `expandAll` does so until the
head names no macro, and then goes on with the parts of the result. On the way from the root of a
tree to a leaf at most `maxDepth` calls are replaced; the recursion is on the steps that are left
and then on the tree.
-/

namespace Quasiquote

/-- What expansion uses: the macros, the namespaces in which they were defined, the helpers that
their bodies call, and two bounds. -/
structure Expander where
  registry : Registry := Registry.empty
  namespaces : Table String Namespace := Table.empty
  helpers : Table String Helper := Helper.builtin
  maxDepth : Int
  maxNesting : Int

/-- What expansion changes: the allocator and the log. -/
structure ExpansionState where
  allocator : Allocator := {}
  log : Log := {}

/-- Computations of the expander. What they have changed stays changed when they fail. -/
abbrev Expanding := ExceptT Failure (StateM ExpansionState)

/-- A failure of expansion in a macro call that names no macro or node is given the macro and the
call, also if it fails again. -/
def Failure.locate (name : String) (call : Value) : Failure → Failure
  | .expansion macroName node fault =>
      .expansion (macroName.orElse fun _ => some name) (node.orElse fun _ => some call) fault
  | .again id f => .again id (f.locate name call)
  | f => f

/-- A splice at the top of an expansion becomes a form that evaluates its items in order. -/
def Value.sequenced : Value → Value
  | splice items => list (sym .sequence :: items)
  | v => v

namespace Expander

/-- The macro that heads a form. -/
def macroFor (e : Expander) (caller : Option Namespace) (form : Value) : Option Macro :=
  match form with
  | .list (.sym s :: _) => e.registry.lookup caller s
  | _ => none

/-- The namespace of a name. One that is not known has neither aliases nor refers. -/
def namespaceNamed (e : Expander) (name : String) : Namespace :=
  (e.namespaces.find? name).getD { name }

/-- Define a macro. The event says whether it takes the place of another one. -/
def define (e : Expander) (m : Macro) : Expander × LogEvent :=
  ({ e with registry := e.registry.define m },
    .defined (e.registry.find? m.key).isSome m.ns m.name)

/-- What the parameters of a macro stand for in a call, if it has as many arguments as they take. -/
def bindings (m : Macro) (call : Value) (args : List Value) :
    Except Failure (Table String Value) :=
  let p := m.parameters
  if p.accepts args.length then pure (p.bind args)
  else throw (.expansion (some m.name) (some call) (.arity p.least p.most args.length))

/-- The site of the body of a macro. Its symbols belong to the namespace in which the macro was
defined. -/
def site (e : Expander) (m : Macro) (bindings : Table String Value) : Site (StateM Allocator) where
  ns := pure (e.namespaceNamed m.ns)
  macroName := some m.name
  maxNesting := e.maxNesting
  bindings := bindings
  helpers := e.helpers

/-- What the body of a macro comes to, with renamings of its own. -/
def resolveBody (e : Expander) (m : Macro) (bindings : Table String Value) :
    ExceptT Failure (StateM Allocator) Value :=
  (Template.resolve (e.site m bindings) m.body).runFrom Table.empty

/-- Use an allocator, and keep what it became also after a failure. -/
def allocating (work : ExceptT Failure (StateM Allocator) α) : Expanding α :=
  fun state =>
    let (result, allocator) := work.run.run state.allocator
    (result, { state with allocator })

/-- Log an expansion. A trace stands for a handler of the log that writes each event at once and lets
a failure to write it through, so an expansion fails in a trace if its result cannot be written. The
standard handlers keep such failures to themselves. -/
def logExpansion (m : Macro) (result : Value) : Expanding Unit := do
  if (← get).log.traced then
    let text ← MonadExcept.ofExcept (result.written Value.quoted)
    modify fun state => { state with log := state.log.record (.expanded m.name text) }

/-- Expand a call of a macro. What its body takes from the allocator is used up also when it fails.
-/
def expandCall (e : Expander) (m : Macro) (call : Value) (args : List Value) : Expanding Value := do
  let bound ← MonadExcept.ofExcept (bindings m call args)
  let tree ← allocating (ExceptT.adapt (Failure.locate m.name call) (e.resolveBody m bound))
  logExpansion m tree.sequenced
  pure tree.sequenced

/-- The failure of a form that calls no macro. Nil is a form without a node. -/
def notMacro (form : Value) : Failure :=
  let head := match form with
    | .list (v :: _) => v
    | v => v
  let node := match form with
    | .nil => none
    | v => some v
  if head.isWritable then .expansion (some head.plain) node .unknownMacro else .unwritable

/-- Replace a macro call by its expansion. The form has to be one. -/
def expandOnce (e : Expander) (caller : Option Namespace) (form : Value) : Expanding Value :=
  match e.macroFor caller form, form with
  | some m, .list (_ :: args) => e.expandCall m form args
  | _, _ => throw (notMacro form)

/-- Replace a macro call by its expansion, and leave any other form as it is. -/
def expandOnceIfCall (e : Expander) (caller : Option Namespace) (form : Value) : Expanding Value :=
  if (e.macroFor caller form).isSome then e.expandOnce caller form else pure form

mutual

/-- Expand the parts of a tree. A call of a macro is left to `onCall`. -/
def expandParts (e : Expander) (caller : Option Namespace)
    (onCall : Macro → Value → Expanding Value) : Value → Expanding Value
  | .list (.sym s :: args) =>
      match e.registry.lookup caller s with
      | some m => onCall m (.list (.sym s :: args))
      | none =>
          if s.isCore "quote" || s.isCore "syntax-quote" then pure (.list (.sym s :: args))
          else if s.isCore "let" then
            match args with
            | .list bindings :: body => do
                let bindings ← expandItems e caller onCall bindings
                let body ← expandItems e caller onCall body
                pure (.list (.sym s :: .list bindings :: body))
            | args => do pure (.list (.sym s :: (← expandItems e caller onCall args)))
          else if s = .attempt then do
            pure (.list (.sym s :: (← expandClauses e caller onCall args)))
          else do pure (.list (.sym s :: (← expandItems e caller onCall args)))
  | .list items => do pure (.list (← expandItems e caller onCall items))
  | v => pure v
termination_by structural v => v

/-- Expand a row of trees from left to right. -/
def expandItems (e : Expander) (caller : Option Namespace)
    (onCall : Macro → Value → Expanding Value) : List Value → Expanding (List Value)
  | [] => pure []
  | v :: vs => do
      let v ← expandParts e caller onCall v
      pure (v :: (← expandItems e caller onCall vs))
termination_by structural vs => vs

/-- Expand the forms in a `try`. The head of a clause and the name that it binds stay. -/
def expandClauses (e : Expander) (caller : Option Namespace)
    (onCall : Macro → Value → Expanding Value) : List Value → Expanding (List Value)
  | [] => pure []
  | .list (.sym s :: forms) :: more => do
      let clause ←
        if s = .handler then
          match forms with
          | [] => pure (.list [.sym s])
          | name :: body => do pure (.list (.sym s :: name :: (← expandItems e caller onCall body)))
        else if s = .cleanup then do
          pure (.list (.sym s :: (← expandItems e caller onCall forms)))
        else expandParts e caller onCall (.list (.sym s :: forms))
      pure (clause :: (← expandClauses e caller onCall more))
  | v :: more => do
      let v ← expandParts e caller onCall v
      pure (v :: (← expandClauses e caller onCall more))
termination_by structural vs => vs

end

/-- Expand a tree with a number of steps left on the way to each leaf. -/
def expandWithin (e : Expander) (caller : Option Namespace) : Nat → Value → Expanding Value
  | 0 => e.expandParts caller fun m call =>
      throw (.expansion (some m.name) (some call) (.tooDeep e.maxDepth))
  | n + 1 => e.expandParts caller fun _ call => do
      e.expandWithin caller n (← e.expandOnce caller call)

/-- Expand a tree completely, with as many steps to each leaf as the bound allows. -/
def expandAll (e : Expander) (caller : Option Namespace) (tree : Value) : Expanding Value :=
  e.expandWithin caller e.maxDepth.toNat tree

/-- The outcome of an expansion. Only failures of expansion are outcomes; all others are still
failures. -/
def outcome (x : Expanding Value) : Expanding (Except Failure Value) :=
  tryCatch (Except.ok <$> x) fun f => if f.isExpansion then pure (.error f) else throw f

end Expander

end Quasiquote
