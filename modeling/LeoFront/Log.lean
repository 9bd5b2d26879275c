namespace LeoFront

inductive LogLevel where
  | error | warn | info | debug
  deriving DecidableEq

namespace LogLevel

def all : List LogLevel := [error, warn, info, debug]

def text : LogLevel → String
  | error => "error"
  | warn => "warn"
  | info => "info"
  | debug => "debug"

def rank : LogLevel → Nat
  | error => 0
  | warn => 1
  | info => 2
  | debug => 3

def ofText? (text : String) : Option LogLevel := all.find? (·.text = text)

def shownAt (level asked : LogLevel) : Bool := level.rank ≤ asked.rank

end LogLevel

structure LogLine where
  level : LogLevel
  message : String
  deriving DecidableEq

def LogLine.text (line : LogLine) : String := line.level.text ++ ": " ++ line.message

end LeoFront
