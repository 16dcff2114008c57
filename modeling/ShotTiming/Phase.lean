import ShotTiming.Named
import ShotTiming.Node

/-!
# Phases of a compilation and the operations they allow
-/
namespace ShotTiming

inductive Phase
  | addDevices | establishLimits | establishAttributes | addInstructions | convertTiming
  | checkInstructions
  deriving DecidableEq, Repr, Inhabited

instance : Named Phase where
  all := [.addDevices, .establishLimits, .establishAttributes, .addInstructions, .convertTiming,
    .checkInstructions]
  name
    | .addDevices => "ADD_DEVICES"
    | .establishLimits => "ESTABLISH_COMMON_LIMITS"
    | .establishAttributes => "ESTABLISH_INITIAL_ATTRIBUTES"
    | .addInstructions => "ADD_INSTRUCTIONS"
    | .convertTiming => "CONVERT_TIMING"
    | .checkInstructions => "CHECK_INSTRUCTIONS_VALID"
  mem_all p := by cases p <;> decide

namespace Phase

def name (p : Phase) : String := Named.name p

def next? : Phase → Option Phase
  | addDevices => some establishLimits
  | establishLimits => some establishAttributes
  | establishAttributes => some addInstructions
  | addInstructions => some convertTiming
  | convertTiming => some checkInstructions
  | checkInstructions => none

/-- The position of a phase in a compilation. -/
def rank (p : Phase) : Nat := Named.index p

end Phase

/-- What may be asked of a node, each in one phase only. -/
inductive Operation
  | addDevice | configure | start | stop | establishLimits | establishAttributes | addInstruction
  | convertTiming | checkInstructions
  deriving DecidableEq, Repr, Inhabited

instance : Named Operation where
  all := [.addDevice, .configure, .start, .stop, .establishLimits, .establishAttributes,
    .addInstruction, .convertTiming, .checkInstructions]
  name
    | .addDevice => "add_device"
    | .configure => "configure"
    | .start => "start"
    | .stop => "stop"
    | .establishLimits => "establish_common_limits"
    | .establishAttributes => "establish_initial_attributes"
    | .addInstruction => "add_instruction"
    | .convertTiming => "convert_timing"
    | .checkInstructions => "check_instructions_valid"
  mem_all o := by cases o <;> decide

namespace Operation

def name (o : Operation) : String := Named.name o

/-- The only phase in which an operation is allowed. -/
def phase : Operation → Phase
  | addDevice | configure | start => .addDevices
  | stop | addInstruction => .addInstructions
  | establishLimits => .establishLimits
  | establishAttributes => .establishAttributes
  | convertTiming => .convertTiming
  | checkInstructions => .checkInstructions

/-- Whether an operation happens at most once on a node. -/
def isOnce : Operation → Bool
  | establishLimits | establishAttributes | convertTiming | checkInstructions => true
  | _ => false

/-- Whether nodes of a type must have had an operation before its phase is left. -/
def isRequiredOn : Operation → NodeType → Bool
  | establishLimits, .shot | establishLimits, .device => true
  | establishAttributes, .shot | establishAttributes, .device => true
  | convertTiming, .instruction => true
  | checkInstructions, .shot | checkInstructions, .device => true
  | _, _ => false

end Operation

end ShotTiming
