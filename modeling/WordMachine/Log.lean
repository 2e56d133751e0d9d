-- Whether a line is kept is decided by its level alone, and the text of one that is not kept is never made.

namespace WordMachine

namespace Log

inductive Level where
  | debug | info | warn | error
  deriving DecidableEq, Repr

namespace Level

def number : Level → Nat
  | debug => 0
  | info => 1
  | warn => 2
  | error => 3

def ofNumber : Nat → Level
  | 0 => debug
  | 1 => info
  | 2 => warn
  | _ => error

def name : Level → String
  | debug => "DEBUG"
  | info => "INFO"
  | warn => "WARN"
  | error => "ERROR"

def keeps (threshold level : Level) : Bool := threshold.number ≤ level.number

def colour : Level → String
  | debug => "\x1b[0m\x1b[36m"
  | info => "\x1b[0m"
  | warn => "\x1b[0m\x1b[1m\x1b[33m"
  | error => "\x1b[0m\x1b[1m\x1b[31m"

end Level

structure Line where
  level : Level
  text : String
  deriving DecidableEq, Repr

structure Style where
  showLevel : Bool := true
  coloured : Bool := false
  deriving DecidableEq, Repr

def Line.render (style : Style) (stamp : String) (line : Line) : String :=
  let level := if style.showLevel then "[" ++ line.level.name ++ "] " else ""
  let text := stamp ++ level ++ line.text ++ "\n"
  if style.coloured then line.level.colour ++ text ++ "\x1b[0m" else text

end Log

structure Log where
  threshold : Log.Level
  latest : List Log.Line := []
  deriving Repr

namespace Log

def add (log : Log) (level : Level) (text : Unit → String) : Log :=
  if log.threshold.keeps level then {log with latest := ⟨level,text ()⟩ :: log.latest} else log

def debug (log : Log) (text : Unit → String) : Log := log.add .debug text

def info (log : Log) (text : Unit → String) : Log := log.add .info text

def warn (log : Log) (text : Unit → String) : Log := log.add .warn text

def error (log : Log) (text : Unit → String) : Log := log.add .error text

def lines (log : Log) : List Line := log.latest.reverse

def render (style : Style) (log : Log) : String :=
  String.join (log.lines.map (Line.render style ""))

end Log

end WordMachine
