import ShotTiming.Named
import ShotTiming.Node

/-!
# Violations found by validation
-/
namespace ShotTiming

inductive ViolationCode
  | overlap | sameTick | negativeTime | negativeDuration | partialSample | crossesWait | afterStop
  | tickTooShort | sampleTooFast | clockTriggerTooShort | triggerTooShort | multipleStatic
  deriving DecidableEq, Repr, Inhabited

instance : Named ViolationCode where
  all := [.overlap, .sameTick, .negativeTime, .negativeDuration, .partialSample, .crossesWait,
    .afterStop, .tickTooShort, .sampleTooFast, .clockTriggerTooShort, .triggerTooShort,
    .multipleStatic]
  name
    | .overlap => "Overlap"
    | .sameTick => "SameTick"
    | .negativeTime => "NegativeTime"
    | .negativeDuration => "NegativeDuration"
    | .partialSample => "PartialSample"
    | .crossesWait => "CrossesWait"
    | .afterStop => "AfterStop"
    | .tickTooShort => "TickTooShort"
    | .sampleTooFast => "SampleTooFast"
    | .clockTriggerTooShort => "ClockTriggerTooShort"
    | .triggerTooShort => "TriggerTooShort"
    | .multipleStatic => "MultipleStatic"
  mem_all c := by cases c <;> decide

def ViolationCode.name (c : ViolationCode) : String := Named.name c

structure Violation where
  code : ViolationCode
  node : NodeRef
  message : String
  site : Site
  deriving DecidableEq, Repr, Inhabited

def Violation.text (v : Violation) : String :=
  v.code.name ++ ": " ++ v.message ++ "\n    created at " ++ v.site.text

/-- The violations in the order they were found. -/
structure Report where
  violations : Array Violation := #[]
  deriving DecidableEq, Repr, Inhabited

namespace Report

def isEmpty (r : Report) : Bool := r.violations.isEmpty

def size (r : Report) : Nat := r.violations.size

def add (r : Report) (v : Violation) : Report := ⟨r.violations.push v⟩

def count (r : Report) (c : ViolationCode) : Nat := r.violations.countP (·.code == c)

def text (r : Report) : String :=
  r.violations.foldl (fun s v => s ++ "\n  " ++ v.text) (toString r.size ++ " violation(s) found")

end Report

end ShotTiming
