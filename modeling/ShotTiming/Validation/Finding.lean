import ShotTiming.Shot.Tree

/-!
# Findings

What validation finds, by cause. Most findings are violations; two instructions that share a tick
without harm are only worth a warning.
-/
namespace ShotTiming
open Number (significant)

/-- An instruction and its position in the arena. -/
structure Entry where
  id : Nat
  instruction : Instruction

namespace Entry

def timing (e : Entry) : Timing := e.instruction.timing

def node (e : Entry) : Node := .instruction e.id

end Entry

/-- A tick at which a clock line has to pulse, and the instruction that needs it. -/
structure Pulse where
  segment : Nat
  tick : Int
  entry : Entry

inductive Finding
  | waitTooEarly (e : Entry)
  | startsTooEarly (e : Entry)
  | negativeDuration (e : Entry)
  | partialSample (e : Entry)
  | crossesWait (e wait : Entry)
  | afterStop (e : Entry)
  | sameTick (e earlier : Entry)
  | overlap (e ramp : Entry)
  | sharedTick (e other : Entry)
  | sampleTooFast (line : Nat) (e : Entry)
  | ticksTooClose (line : Nat) (earlier later : Pulse)
  | pulsesDoNotFit (line : Nat)
  | pulseTooShort (trigger : Nat) (e : Entry) (width : Float)
  | setAgain (e first : Entry)

/-- What a finding comes to. -/
inductive Note
  | violation (v : Violation)
  | warning (text : String)
  deriving DecidableEq

namespace Shot

def entries (s : Shot) (ids : List Nat) : List Entry :=
  ids.filterMap fun id => (s.instruction? id).map fun i => ⟨id, i⟩

/-- The limits of a device, and the names of the devices that set them. -/
def limitsAt (s : Shot) (id : Nat) : Limits := (s.device? id).elim {} (·.limits)

def limiterName (s : Shot) (limiter : Option Nat) : String :=
  limiter.elim noParent fun id => s.nameOf (.device id)

def violation (s : Shot) (code : ViolationCode) (n : Node) (message : String) : Violation :=
  let subject := s.subject n
  ⟨code, subject.ref, subject.title ++ ": " ++ message, subject.site⟩

end Shot

/-- The node that a finding is about, its code, and what it says about the node. -/
def Finding.note (s : Shot) : Finding → Note
  | waitTooEarly e =>
    found .negativeTime e.node <| "issued " ++ significant (-e.timing.relative) ++
      " before the clock resumes in segment " ++ toString e.timing.segment
  | startsTooEarly e =>
    found .negativeTime e.node <| "starts " ++ significant (-e.timing.relative) ++
      " before its clock is responsive in segment " ++ toString e.timing.segment
  | negativeDuration e => found .negativeDuration e.node "negative duration"
  | partialSample e =>
    found .partialSample e.node <| "duration of " ++ toString e.timing.duration ++
      " ticks is not a whole number of sample periods (" ++ toString e.timing.samplePeriod ++
      " ticks)"
  | crossesWait e wait =>
    found .crossesWait e.node <| "still running at " ++ (s.subject wait.node).title
  | afterStop e =>
    found .afterStop e.node <| "ends at " ++ significant e.instruction.finish ++
      " after the end of the shot at " ++ significant s.stopTime
  | sameTick e earlier =>
    found .sameTick e.node <| "set at tick " ++ toString e.timing.ticks ++ " together with " ++
      (s.subject earlier.node).describe
  | overlap e ramp =>
    found .overlap e.node <| "starts at tick " ++ toString e.timing.ticks ++
      " before the end of " ++ (s.subject ramp.node).describe ++ " at tick " ++
      toString ramp.timing.finish
  | sharedTick e other =>
    .warning <| (s.subject other.node).describe ++ " and " ++ (s.subject e.node).describe ++
      " share tick " ++ toString e.timing.ticks ++ ", the one created later takes effect.\n"
  | sampleTooFast line e =>
    found .sampleTooFast e.node <| "sample period of " ++ toString e.timing.samplePeriod ++
      " ticks is shorter than the minimum period of " ++ lineAndLimit line
  | ticksTooClose line earlier later =>
    found .tickTooShort later.entry.node <| "ticks " ++ toString earlier.tick ++ " and " ++
      toString later.tick ++ " in segment " ++ toString later.segment ++
      " are closer than the minimum period of " ++ lineAndLimit line
  | pulsesDoNotFit line =>
    let limits := s.limitsAt line
    found .clockTriggerTooShort (.device line) <| "minimum period " ++
      significant limits.period ++ " cannot hold high and low pulses of " ++
      significant limits.triggerDuration ++ " required by " ++ s.limiterName limits.triggerLimiter
  | pulseTooShort trigger e width =>
    let limits := s.limitsAt trigger
    found .triggerTooShort e.node <| "trigger pulse of " ++ significant width ++
      " is shorter than the " ++ significant limits.triggerDuration ++ " required by " ++
      s.limiterName limits.triggerLimiter
  | setAgain e first =>
    found .multipleStatic e.node <| "output already set by " ++ (s.subject first.node).describe
where
  found (code : ViolationCode) (n : Node) (message : String) : Note :=
    .violation (s.violation code n message)
  lineAndLimit (line : Nat) : String :=
    let limits := s.limitsAt line
    (s.subject (.device line)).title ++ " (" ++ toString limits.periodTicks ++
      " ticks, limited by " ++ s.limiterName limits.periodLimiter ++ ")"

end ShotTiming
