import Quasiquote.Evaluation.Basic

namespace Quasiquote.Evaluation

/-- How the trees inside a form are evaluated, in the frames around them. -/
abbrev Evaluator := List Frame → Value → Evaluating Value

/-- Evaluate forms in order. The last one gives the value, and nil stands for none. -/
def evalSequence (ev : Evaluator) (locals : List Frame) : List Value → Evaluating Value
  | [] => pure .nil
  | [form] => ev locals form
  | form :: forms => do
      let _ ← ev locals form
      evalSequence ev locals forms

def only (form : String) : List Value → Evaluating Value
  | [v] => pure v
  | _ => throw (.malformed (.argumentCount form 1))

/-- Build a template. Its escapes are evaluated, and its symbols are qualified with the namespace
that is current at the beginning. -/
def evalTemplate (ev : Evaluator) (locals : List Frame) (args : List Value) :
    Evaluating Value := do
  let template ← only "syntax-quote" args
  let s ← get
  let name := s.current
  let site : Site (StateT Session Option) :=
    { ns := fun s => some (s.expander.namespaceNamed name, s)
      maxNesting := s.expander.maxNesting }
  let resolver := Resolver.host fun form => Building.performFailing (ev locals form)
  let tree ← (Template.build site resolver 1 template).runFrom Table.empty
  pure tree.single

/-- Bind names one after the other in the innermost frame, so that later values see earlier
names. -/
def bindAll (ev : Evaluator) (outer : List Frame) (frame : Frame) :
    List Value → Evaluating Frame
  | name :: form :: more => do
      match name with
      | .sym s =>
          if s.isQualified then throw (.malformed (.qualifiedLet s))
          let v ← ev (frame :: outer) form
          bindAll ev outer (frame.insert s v) more
      | name => throw (.malformed (.letName (← Evaluating.written name Value.quoted)))
  | _ => pure frame

/-- Evaluate a `let`: the bindings in a new frame, and then the body inside it. -/
def evalScope (ev : Evaluator) (locals : List Frame) : List Value → Evaluating Value
  | .list bindings :: body => do
      if bindings.length % 2 = 1 then throw (.malformed .letPairs)
      let frame ← bindAll ev locals Table.empty bindings
      evalSequence ev (frame :: locals) body
  | _ => throw (.malformed .letBindings)

/-- Evaluate an `if`. Without a second branch its value may be nil. -/
def evalChoice (ev : Evaluator) (locals : List Frame) : List Value → Evaluating Value
  | [condition, yes] => do
      if (← ev locals condition).isTrue then ev locals yes else pure .nil
  | [condition, yes, no] => do
      if (← ev locals condition).isTrue then ev locals yes else ev locals no
  | _ => throw (.malformed .ifShape)

/-- The contents of a clause with the given head. -/
def clause? (head : Symbol) : Value → Option (List Value)
  | .list (.sym s :: contents) => if s = head then some contents else none
  | _ => none

/-- The parts of a `try`: the forms that may fail, the name and forms that handle a failure, and
the forms that are evaluated at the end in any case. -/
structure Attempt where
  body : List Value
  handler : Option (Symbol × List Value)
  cleanup : List Value

/-- The name that a handler binds, which has to be bare, and its forms. -/
def handlerOf : List Value → Except Failure (Symbol × List Value)
  | .sym name :: forms =>
      if name.isQualified then throw (.malformed (.qualifiedBinding name)) else pure (name, forms)
  | _ => throw (.malformed .catchName)

/-- Sort the arguments of a `try` into its parts. Clauses may stand anywhere. -/
def Attempt.ofArguments (args : List Value) : Except Failure Attempt := do
  let handlers := args.filterMap (clause? .handler)
  let cleanups := args.filterMap (clause? .cleanup)
  if 1 < handlers.length || 1 < cleanups.length then throw (.malformed .tryClauses)
  let handler ← match handlers with
    | [] => pure none
    | contents :: _ => do pure (some (← handlerOf contents))
  let isBody (v : Value) := (clause? .handler v).isNone && (clause? .cleanup v).isNone
  pure ⟨args.filter isBody, handler, cleanups.headD []⟩

/-- Evaluate forms that may fail. A handler sees the failure in a scope of its own; the cleanup
forms are evaluated last, and their failure goes before any other. -/
def evalAttempt (ev : Evaluator) (locals : List Frame) (args : List Value) :
    Evaluating Value := do
  let parts ← MonadExcept.ofExcept (Attempt.ofArguments args)
  let first ← (evalSequence ev locals parts.body).outcome
  let last ← match first, parts.handler with
    | .error f, some (name, forms) => Evaluating.outcome do
        let v ← Evaluating.caughtValue f
        evalSequence ev (Table.empty.insert name v :: locals) forms
    | result, _ => pure result
  let _ ← evalSequence ev locals parts.cleanup
  MonadExcept.ofExcept last

/-- Throw a value. A caught failure fails again as it was; any other value has to be one that can be
written. -/
def evalThrow (ev : Evaluator) (locals : List Frame) (args : List Value) : Evaluating Value := do
  match ← ev locals (← only "throw" args) with
  | .error id f => throw (.again id f)
  | v => do throw (.thrown (← Evaluating.written v id))

/-- Define a global of the current namespace. The namespace stops referring the name before the
value is evaluated. -/
def evalDefine (ev : Evaluator) (locals : List Frame) (args : List Value) :
    Evaluating Value := do
  let (name, form) ← match args with
    | [name] => pure (name, none)
    | [name, form] => pure (name, some form)
    | _ => throw (.malformed .defShape)
  match name with
  | .sym s =>
      let ns := (← get).current
      if s.isQualified && s.ns != some ns then throw (.malformed (.defElsewhere s))
      modify fun session => session.unrefer s.name
      let v ← match form with
        | some form => ev locals form
        | none => pure .nil
      let qualified : Symbol := ⟨s.name, some ns⟩
      modify fun session => session.setGlobal qualified v
      pure (.sym qualified)
  | name => throw (.malformed (.defName (← Evaluating.written name Value.quoted)))

/-- The parameter list and the body of a macro definition; a text before them describes the
macro. -/
def definitionParts : List Value → Except Failure (Value × Value)
  | [.str _, params, body] => pure (params, body)
  | [.str _, _] => throw (.malformed .defmacroBody)
  | [params, body] => pure (params, body)
  | _ => throw (.malformed .defmacroBody)

/-- Define a macro of the current namespace. Nothing is evaluated, and the namespace that the name
is written with is not looked at. -/
def evalDefineMacro (args : List Value) : Evaluating Value := do
  match args with
  | .sym s :: rest =>
      if rest.length < 2 then throw (.malformed .defmacroShape)
      let (params, body) ← MonadExcept.ofExcept (definitionParts rest)
      let parameters ← MonadExcept.ofExcept (Parameters.ofValue params)
      let ns := (← get).current
      modify fun session => (session.unrefer s.name).defineMacro ⟨s.name, parameters, body, ns⟩
      pure (.sym ⟨s.name, some ns⟩)
  | name :: _ :: _ :: _ =>
      throw (.malformed (.defmacroName (← Evaluating.written name Value.quoted)))
  | _ => throw (.malformed .defmacroShape)

/-- The name of a namespace, as a bare symbol or as a text that is not empty. -/
def namespaceName (form : String) : Value → Evaluating String
  | .sym ⟨name, none⟩ => pure name
  | .str s => do
      if s.isEmpty then throw (.malformed (.namespaceName form (Text.quoted s)))
      pure s
  | v => do throw (.malformed (.namespaceName form (← Evaluating.written v Value.quoted)))

/-- Evaluate an `in-ns`, which enters a namespace and gives its name. -/
def evalEnter (ev : Evaluator) (locals : List Frame) (args : List Value) : Evaluating Value := do
  let v ← ev locals (← only "in-ns" args)
  let name ← namespaceName "in-ns" v
  modify fun s => s.enter name
  pure (.bare name)

/-- Evaluate an `alias`. Both names are evaluated before the current namespace is changed. -/
def evalAlias (ev : Evaluator) (locals : List Frame) (args : List Value) : Evaluating Value := do
  match args with
  | [short, full] =>
      let short ← namespaceName "alias" (← ev locals short)
      let full ← namespaceName "alias" (← ev locals full)
      modify fun s => s.addAlias short full
      pure .nil
  | _ => throw (.malformed (.argumentCount "alias" 2))

/-- Evaluate a form that expands the value of its argument. -/
def evalExpansion (ev : Evaluator) (locals : List Frame) (form : String)
    (expand : Expander → Option Namespace → Value → Expanding Value) (args : List Value) :
    Evaluating Value := do
  let tree ← ev locals (← only form args)
  Evaluating.expanding fun e caller => expand e caller tree

/-- Evaluate a special form with the given arguments. An escape outside of a template is malformed. -/
def evalSpecial (ev : Evaluator) (locals : List Frame) (args : List Value) :
    SpecialForm → Evaluating Value
  | .quote => only "quote" args
  | .syntaxQuote => evalTemplate ev locals args
  | .unquote => throw (.malformed (.strayEscape .unquote))
  | .unquoteSplicing => throw (.malformed (.strayEscape .unquoteSplicing))
  | .sequence => evalSequence ev locals args
  | .scope => evalScope ev locals args
  | .choice => evalChoice ev locals args
  | .attempt => evalAttempt ev locals args
  | .raise => evalThrow ev locals args
  | .define => evalDefine ev locals args
  | .defineMacro => evalDefineMacro args
  | .expandOnce => evalExpansion ev locals "macroexpand-1" Expander.expandOnceIfCall args
  | .expandAll => evalExpansion ev locals "macroexpand" Expander.expandAll args
  | .enterNamespace => evalEnter ev locals args
  | .aliasNamespace => evalAlias ev locals args

end Quasiquote.Evaluation
