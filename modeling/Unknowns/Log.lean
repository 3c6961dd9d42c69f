/-!
# Log lines

What a computation reports while it runs is part of its result: a list of
lines, each with its level.
-/

namespace Unknowns

/-- How much a log line matters. -/
inductive LogLevel where
  | debug
  | info
deriving DecidableEq

/-- The level as it is written. -/
def LogLevel.text : LogLevel → String
  | .debug => "DEBUG"
  | .info => "INFO"

/-- A line for the log. -/
structure LogLine where
  level : LogLevel
  text : String
deriving DecidableEq

/-- The line as it is written. -/
def LogLine.render (l : LogLine) : String := l.level.text ++ " " ++ l.text

end Unknowns
