import ShotTiming.Shot.Basic

/-!
# Walking the tree of a shot
-/
namespace ShotTiming.Shot

/-- Everything below a host, in tree order. No chain of devices is longer than the arena. -/
def below (s : Shot) (h : Host) : Forest :=
  .plant (fun id => s.childrenOf (.device id)) s.devices.size (s.childrenOf h)

def isPseudoclock (s : Shot) (id : Nat) : Bool :=
  (s.device? id).any (·.kind == .pseudoclock)

/-- The part of a forest that shares the clock of its host. -/
def sameClock (s : Shot) (f : Forest) : Forest := f.prune s.isPseudoclock

/-- The devices below a host in tree order; those below another pseudoclock only if asked for. -/
def descendants (s : Shot) (h : Host) (acrossClocks : Bool) : List Nat :=
  (if acrossClocks then s.below h else s.sameClock (s.below h)).toList

/-- The instructions of a host and of the devices below it. -/
def descendantInstructions (s : Shot) (h : Host) (acrossClocks : Bool) : List Nat :=
  s.instructionsOf h ++
    (s.descendants h acrossClocks).flatMap fun id => s.instructionsOf (.device id)

/-- Every output in the tree. -/
def outputs (s : Shot) : List Nat :=
  (s.descendants .shot true).filter fun id => (s.device? id).any (·.kind.isOutput)

end ShotTiming.Shot
