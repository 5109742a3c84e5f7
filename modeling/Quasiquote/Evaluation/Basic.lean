import Quasiquote.Session

namespace Quasiquote

/-- Computations of the evaluator. They change a session, may fail, and may run out of the steps
that they were given; a computation that runs out has no outcome, and nothing catches that. -/
abbrev Evaluating := ExceptT Failure (StateT Session Option)

instance : MonadFresh (StateT Session Option) where
  fresh lead := ExceptT.mk fun s =>
    let (name, allocator) := (Allocator.issue lead).run.run s.expansion.allocator
    some (name, { s with expansion := { s.expansion with allocator } })

namespace Evaluating

/-- The computation that has run out of steps. -/
def exhausted : Evaluating α := ExceptT.mk fun _ => none

/-- What a computation comes to, a failure being an answer. Running out of steps is none. -/
def outcome (x : Evaluating α) : Evaluating (Except Failure α) := ExceptT.mk do
  pure (.ok (← x.run))

/-- Expand macros, with the fresh names and the log of the session. -/
def expanding (x : Expander → Option Namespace → Expanding α) : Evaluating α :=
  ExceptT.mk fun s =>
    let (result, expansion) := (x s.expander (some s.currentNamespace)).run.run s.expansion
    some (result, { s with expansion })

/-- The next identity. It is never given again in the session. -/
def freshIdentity : Evaluating Nat := do
  let s ← get
  set { s with identities := s.identities + 1 }
  pure s.identities

/-- The value that a caught failure is bound as: what was thrown, or else the failure itself. -/
def caughtValue : Failure → Evaluating Value
  | .thrown v => pure v
  | .again _ (.thrown v) => pure v
  | .again id f => pure (.error id f)
  | f => do pure (.error (← freshIdentity) f)

/-- The value of a name inside frames, with the globals and the current namespace of the session. -/
def lookup (locals : List Frame) (name : Symbol) : Evaluating Value := do
  let s ← get
  MonadExcept.ofExcept
    (Environment.lookup { locals, root := s.globals } (some s.currentNamespace) name)

/-- Call a function and carry out its effect. Each call uses up an identity, whether it needs one or
not. -/
def call (f : Primitive) (args : List Value) : Evaluating Value := do
  let id ← freshIdentity
  let (v, effect) ← MonadExcept.ofExcept (f.call (← get).tallied id args)
  modify fun s => s.perform effect
  pure v

/-- What is written of a value, if every integer in the value can be written. -/
def written (v : Value) (text : Value → α) : Evaluating α :=
  MonadExcept.ofExcept (v.written text)

end Evaluating

end Quasiquote
