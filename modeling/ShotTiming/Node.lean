import ShotTiming.Site

/-!
# Nodes of a shot and references to them

A shot keeps its devices and its instructions in two arenas; a node is named by its arena and its
position there. A reference is the same in fixed width, and may also point to nothing.
-/
namespace ShotTiming

/-- What owns devices: the shot itself or a device of it. -/
inductive Host
  | shot
  | device (id : Nat)
  deriving DecidableEq, Repr, Inhabited

inductive Node
  | shot
  | device (id : Nat)
  | instruction (id : Nat)
  deriving DecidableEq, Repr, Inhabited

def Host.node : Host → Node
  | shot => .shot
  | device id => .device id

inductive NodeType
  | none | shot | device | instruction
  deriving DecidableEq, Repr, Inhabited

structure NodeRef where
  type : NodeType := .none
  id : UInt32 := 0
  deriving DecidableEq, Repr, Inhabited

/-- The number of instructions that an arena can hold, so that every position fits a reference. -/
def arenaCapacity : Nat := 4294967296

/-- The number of devices that an arena can hold. A clock and the master are kept as signed numbers of the
width of a reference, so that half the positions are left to them. -/
def deviceCapacity : Nat := 2147483648

def Node.ref : Node → NodeRef
  | shot => ⟨.shot, 0⟩
  | device id => ⟨.device, UInt32.ofNat id⟩
  | instruction id => ⟨.instruction, UInt32.ofNat id⟩

def Host.ref (h : Host) : NodeRef := h.node.ref

/-- What a message says about a node: its printed form, and where it was created. -/
structure Subject where
  ref : NodeRef
  title : String
  site : Site
  deriving DecidableEq, Repr, Inhabited

def Subject.describe (s : Subject) : String := s.title ++ " (created at " ++ s.site.text ++ ")"

end ShotTiming
