import Quasiquote.Primitive.Basic

namespace Quasiquote

/-- Something that is logged. -/
inductive LogEvent where
  | message (level : LogLevel) (text : String)
  | diagnostic (text : String)
  /-- A macro call has been expanded. The result is kept as its quoted text. -/
  | expanded (macroName result : String)
  | defined (replaced : Bool) (ns name : String)

namespace LogEvent

/-- How urgent an event is. Expansions and definitions are for debugging only. -/
def level : LogEvent → LogLevel
  | message level _ => level
  | diagnostic _ => .warning
  | expanded .. => .debug
  | defined .. => .debug

/-- The name under which an event is logged. -/
def logger : LogEvent → String
  | message .. => "synquote.log"
  | diagnostic _ => "synquote.interpreter"
  | expanded .. => "synquote.expander"
  | defined .. => "synquote.types.macro_registry"

def text : LogEvent → String
  | message _ text => text
  | diagnostic text => text
  | expanded macroName result => "Expanded " ++ macroName ++ " -> " ++ result
  | defined replaced ns name =>
      (if replaced then "Redefined" else "Defined") ++ " macro " ++ ns ++ "/" ++ name

/-- Whether an event is logged in a trace only. -/
def isTrace : LogEvent → Bool
  | expanded .. => true
  | defined .. => true
  | _ => false

end LogEvent

/-- What has been logged. -/
structure Log where
  traced : Bool := false
  newestFirst : List LogEvent := []

namespace Log

/-- Log an event. What only a trace has is dropped by other logs. -/
def record (log : Log) (event : LogEvent) : Log :=
  if event.isTrace && !log.traced then log
  else { log with newestFirst := event :: log.newestFirst }

def events (log : Log) : List LogEvent := log.newestFirst.reverse

def cleared (log : Log) : Log := { log with newestFirst := [] }

end Log

end Quasiquote
