import Quasiquote.Template.Helper

/-!
Building a tree from a template. Bare symbols are qualified with the namespace of the template,
marked names are renamed, and the escapes of the innermost level are replaced by what their
expressions resolve to. A nested template raises the level by one and an escape lowers it by one;
escapes above level one stay escapes.

The expressions behind escapes are resolved either by a host or at macro time. At macro time a
bare symbol is a parameter and stands for the argument as it was written, a quoted node stands
for itself, a template is built, and a list calls a helper.
-/

namespace Quasiquote

/-- What a template needs to know about the place where it was written. -/
structure Site (m : Type → Type) where
  /-- The namespace as it is when a symbol is qualified. -/
  ns : m Namespace
  macroName : Option String := none
  maxNesting : Int
  /-- The arguments of the macro call. -/
  bindings : Table String Value := Table.empty
  helpers : Table String Helper := Helper.builtin

/-- Who resolves the expressions behind escapes. -/
inductive Resolver (m : Type → Type) where
  | macroTime
  | host (resolve : Value → Building m Value)

namespace Value

/-- The nodes that a built item adds to the list around it. -/
def spread : Value → List Value
  | splice items => items
  | v => [v]

/-- A built item where one node is wanted. -/
def single : Value → Value
  | splice items => list items
  | v => v

end Value

namespace Template

variable {m : Type → Type}

/-- What an escape puts in its place. The value of a splicing escape has to be a sequence. -/
def insertion (site : Site m) (escape : Symbol) (form value : Value) : Except Failure Value :=
  if escape = .unquote then pure value.single
  else
    match value with
    | .splice items => pure (.splice items)
    | .nil => pure (.splice [])
    | .list items => pure (.splice items)
    | .tuple items => pure (.splice items)
    | v =>
        if v.isWritable then
          throw (.expansion site.macroName (some form) (.malformedSplice v))
        else throw .unwritable

variable [Monad m] [MonadFresh m]

mutual

/-- Build a tree from a template at a level. The result is a splice if the whole template is a
splicing escape. -/
def build (site : Site m) (resolver : Resolver m) (level : Int) : Value → Building m Value
  | .sym s => do pure (.sym (← qualify site.ns s))
  | .list (.sym s :: args) =>
      if s = .unquote ∨ s = .unquoteSplicing then
        match args with
        | [arg] =>
            if 1 < level then do
              pure (.list [.sym s, ← build site resolver (level - 1) arg])
            else do
              let value ← match resolver with
                | .macroTime => resolve site arg
                | .host f => f arg
              MonadExcept.ofExcept (insertion site s (.list [.sym s, arg]) value)
        | _ => throw (.malformed (.escapeArguments s args.length))
      else if s = .syntaxQuote then
        match args with
        | [arg] =>
            if site.maxNesting < level + 1 then
              throw (.expansion site.macroName (some (.list [.sym s, arg])) (.tooNested (level + 1)))
            else do
              pure (.list [.sym s, ← build site resolver (level + 1) arg])
        | _ => throw (.malformed (.escapeArguments s args.length))
      else do
        let head ← qualify site.ns s
        pure (.list (.sym head :: (← buildItems site resolver level args)))
  | .list items => do pure (.list (← buildItems site resolver level items))
  | v => pure v
termination_by structural v => v

/-- Build the items of a list, and put splices into it. -/
def buildItems (site : Site m) (resolver : Resolver m) (level : Int) :
    List Value → Building m (List Value)
  | [] => pure []
  | v :: vs => do
      let built ← build site resolver level v
      pure (built.spread ++ (← buildItems site resolver level vs))
termination_by structural vs => vs

/-- Resolve an expression at macro time. -/
def resolve (site : Site m) : Value → Building m Value
  | .sym s =>
      match if s.isQualified then none else site.bindings.find? s.name with
      | some v => pure v
      | none => throw (.naming (.notParameter s site.macroName))
  | .list [] => pure (.list [])
  | .list (.sym s :: args) =>
      if s = .quote ∨ s = .syntaxQuote then
        match args with
        | [arg] => if s = .quote then pure arg else build site .macroTime 1 arg
        | _ => throw (.malformed (.argumentCount s.text 1))
      else if s = .unquote ∨ s = .unquoteSplicing then throw (.malformed (.strayEscape s))
      else
        match if s.isQualified then none else site.helpers.find? s.name with
        | some helper => do helper.call (← resolveArguments site args)
        | none => throw (.naming (.notHelper s.text))
  | .list (head :: _) => do
      throw (.naming (.notHelper (← MonadExcept.ofExcept (head.written Value.plain))))
  | v => pure v
termination_by structural v => v

/-- Resolve the arguments of a helper, each to one node. -/
def resolveArguments (site : Site m) : List Value → Building m (List Value)
  | [] => pure []
  | v :: vs => do
      let value ← resolve site v
      pure (value.single :: (← resolveArguments site vs))
termination_by structural vs => vs

end

end Template

end Quasiquote
