import Quasiquote.Table

namespace Quasiquote

/-- How urgent a log record is. -/
inductive LogLevel where
  | debug
  | info
  | warning
deriving DecidableEq, Repr

def LogLevel.label : LogLevel → String
  | debug => "DEBUG"
  | info => "INFO"
  | warning => "WARNING"

/-- What a function of a host does. -/
inductive Probe where
  | echo
  /-- It returns how often functions of this kind have been called. -/
  | tally
  | boom
deriving DecidableEq, Repr

def Probe.label : Probe → String
  | echo => "args"
  | tally => "tally"
  | boom => "boom"

/-- A callable function. It is told from others by its identity alone: there is one core function of
each kind, and a new probe each time that a host defines one. -/
inductive Primitive where
  | add
  | sub
  | mul
  | div
  | inc
  | dec
  | equal
  | less
  | greater
  | atMost
  | atLeast
  | list
  | first
  | rest
  | count
  | concat
  | range
  | max
  | min
  | isNil
  | str
  | println
  | log (level : LogLevel)
  /-- A function of a host. The identity tells it from all others that a host has defined. -/
  | probe (probe : Probe) (id : Nat)
deriving DecidableEq, Repr, Inhabited

namespace Primitive

/-- The name of a function, as it shows when the function is written. -/
def label : Primitive → String
  | add => "add"
  | sub => "sub"
  | mul => "mul"
  | div => "div"
  | inc => "inc"
  | dec => "dec"
  | equal => "equals"
  | less => "<"
  | greater => ">"
  | atMost => "<="
  | atLeast => ">="
  | list => "make_list"
  | first => "first"
  | rest => "rest"
  | count => "count"
  | concat => "concat"
  | range => "make_range"
  | max => "maximum"
  | min => "minimum"
  | isNil => "is_nil"
  | str => "make_str"
  | println => "println"
  | log .debug => "debug"
  | log .info => "info"
  | log .warning => "warning"
  | probe p _ => p.label

/-- The functions of the core namespace with the names that programs call them by. -/
def core : List (String × Primitive) :=
  [("+", add), ("-", sub), ("*", mul), ("/", div), ("inc", inc), ("dec", dec), ("=", equal),
   ("<", less), (">", greater), ("<=", atMost), (">=", atLeast), ("list", list),
   ("first", first), ("rest", rest), ("count", count), ("concat", concat), ("range", range),
   ("max", max), ("min", min), ("nil?", isNil), ("str", str), ("println", println)]

def logging : List (String × Primitive) :=
  [("debug", log .debug), ("info", log .info), ("warn", log .warning)]

end Primitive

end Quasiquote
