import Quasiquote.Namespace
import Quasiquote.Value.Quoted

/-!
Environments say what names stand for. Locals are bare names in frames, the innermost frame
first; globals are qualified names in the root frame. A bare name that is no local stands for the
global that the current namespace resolves it to.
-/

namespace Quasiquote

/-- The bindings of one scope. -/
abbrev Frame := Table Symbol Value

/-- The frames around a piece of code, innermost first, and the root frame outside them all. -/
structure Environment where
  locals : List Frame := []
  root : Frame := Table.empty
deriving Inhabited

namespace Environment

def frames (env : Environment) : List Frame := env.locals ++ [env.root]

/-- The innermost frame. It is the root frame if there are no locals. -/
def top (env : Environment) : Frame := env.locals.head?.getD env.root

def push (env : Environment) : Environment := { env with locals := Table.empty :: env.locals }

def pop (env : Environment) : Environment := { env with locals := env.locals.tail }

/-- Bind a name in the innermost frame. Only the root frame binds qualified names. -/
def define (env : Environment) (name : Symbol) (v : Value) : Except Failure Environment :=
  match env.locals with
  | [] => pure { env with root := env.root.insert name v }
  | frame :: outer =>
      if name.isQualified then throw (.malformed (.qualifiedBinding name))
      else pure { env with locals := frame.insert name v :: outer }

/-- Bind a name that is given as a value. It has to be a symbol. -/
def defineValue (env : Environment) (name v : Value) : Except Failure Environment :=
  match name with
  | .sym s => env.define s v
  | _ => do throw (.malformed (.notBindable (← name.written Value.quoted)))

/-- Bind a name in the root frame, whatever frames are inside it. -/
def defineGlobal (env : Environment) (name : Symbol) (v : Value) : Environment :=
  { env with root := env.root.insert name v }

/-- What the innermost frame that binds a name binds it to. -/
def find? (env : Environment) (name : Symbol) : Option Value :=
  env.frames.findSome? (·.find? name)

/-- The number of the innermost frame that binds a name. Frames are counted from the root frame,
which has the number zero. -/
def frameNumber? (env : Environment) (name : Symbol) : Option Nat :=
  (env.frames.findIdx? (·.contains name)).map (env.locals.length - ·)

/-- The value of a name. Only a bare name can stand for a local; any other name, and a bare one that
no frame binds, is resolved by the namespace first. -/
def lookup (env : Environment) (ns : Option Namespace) (name : Symbol) : Except Failure Value :=
  let bound := if name.isQualified then none else env.find? name
  let resolved := match ns with
    | some ns => ns.resolve name
    | none => name
  match bound <|> env.root.find? resolved with
  | some v => pure v
  | none => throw (.naming (.unbound name))

/-- The innermost frame as text; the dots stand for the frames outside it. -/
def text (env : Environment) : String :=
  let bindings := env.top.entries.map fun e => e.1.text ++ ": " ++ e.2.quoted
  "\x7b" ++ ", ".intercalate bindings ++ "\x7d" ++ (if env.locals.isEmpty then "" else " -> ...")

end Environment

end Quasiquote
