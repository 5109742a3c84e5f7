import Quasiquote.Macro.Parameters

namespace Quasiquote

/-- A macro. Its body is resolved at each expansion. -/
structure Macro where
  name : String
  parameters : Parameters
  body : Value
  /-- The name of the namespace in which the macro was defined. -/
  ns : String
deriving Inhabited

namespace Macro

/-- What a macro is registered under: its namespace and its name. -/
def key (m : Macro) : String × String := (m.ns, m.name)

/-- A macro as text; the dots stand for its body. -/
def text (m : Macro) : String :=
  let names := m.parameters.fixed ++ match m.parameters.variadic with
    | some name => ["&", name]
    | none => []
  "(defmacro " ++ m.ns ++ "/" ++ m.name ++ " [" ++ " ".intercalate names ++ "] ...)"

end Macro

end Quasiquote
