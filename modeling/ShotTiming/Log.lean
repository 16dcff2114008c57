/-!
# Messages and where they go

A message has a level and passes if the threshold lets its level through. A console hands it to the
logger pushed last, or writes it behind a short heading if there is none.
-/
namespace ShotTiming

/-- Severity, in ascending order; what is forced passes every threshold. -/
inductive Level
  | debug | info | warn | error | force
  deriving DecidableEq, Repr, Inhabited

namespace Level

def all : List Level := [debug, info, warn, error, force]

def rank : Level → Nat
  | debug => 0
  | info => 1
  | warn => 2
  | error => 3
  | force => 4

/-- The heading of a printed message; what is forced has none. -/
def heading? : Level → Option String
  | debug => some "Debug"
  | info => some "Info"
  | warn => some "Warn"
  | error => some "Error"
  | force => none

/-- The words that set a threshold, in any case of the ASCII letters. -/
def ofName? (s : String) : Option Level :=
  match s.toLower with
  | "debug" => some debug
  | "info" => some info
  | "warn" | "warning" => some warn
  | "error" => some error
  | "none" => some force
  | _ => none

/-- Whether a threshold lets through the level of a given rank. -/
def admitsRank (threshold : Level) (n : Nat) : Bool := n ≤ force.rank && threshold.rank ≤ n

def admits (threshold level : Level) : Bool := threshold.admitsRank level.rank

end Level

/-- A line of the log. -/
structure Message where
  level : Level
  text : String
  deriving DecidableEq, Repr

/-- The state of the log of one process. -/
structure Console where
  threshold : Level := .info
  showsProcess : Bool := false
  /-- The loggers, the one pushed last in front. -/
  loggers : List String := []

/-- Where a message ended up. -/
inductive Delivery
  | dropped
  | handed (logger : String) (level : Level) (caller : Option String) (text : String)
  | printed (text : String)
  deriving DecidableEq, Repr

namespace Console

def push (c : Console) (logger : String) : Console := { c with loggers := logger :: c.loggers }

def pop (c : Console) : Console := { c with loggers := c.loggers.tail }

/-- What stands in front of a printed message. -/
def heading (c : Console) (process : String) (level : Level) (caller : Option String) : String :=
  let who := caller.elim "" (· ++ " ")
  match level.heading?, c.showsProcess with
  | none, false => ""
  | none, true => process ++ ": "
  | some h, false => h ++ ": " ++ who
  | some h, true => h ++ "-" ++ process ++ " " ++ who

def emit (c : Console) (process : String) (level : Level) (caller : Option String) (text : String) :
    Delivery :=
  if c.threshold.admits level then
    match c.loggers with
    | logger :: _ => .handed logger level caller text
    | [] => .printed (c.heading process level caller ++ text)
  else .dropped

end Console

end ShotTiming
