import ShotTiming.Compile.Phases

/-!
# Passes over the tree

A pass enters its call for a device, does its work on it before or after the children, and visits
the children in order. A hook of the device may drop that work or have the children visited again.
-/
namespace ShotTiming

structure Pass where
  operation : Operation
  hook : Hooks → PassHook
  before : Nat → Compile Unit := fun _ => pure ()
  after : Nat → Compile Unit := fun _ => pure ()

namespace Pass

def hookOf (p : Pass) (id : Nat) : Compile PassHook := do
  return ((← Compile.shot).device? id).elim .standard fun d => p.hook d.hooks

/-- What happens on one device, given how its children are visited. -/
def onDevice (p : Pass) (id : Nat) (children : Compile Unit) : Compile Unit := do
  Compile.enter (.device id) p.operation
  match ← p.hookOf id with
  | .skip => pure ()
  | .standard =>
    p.before id
    children
    p.after id
  | .twice =>
    p.before id
    children
    p.after id
    children

/-- Visits the trees of a forest in order. -/
def visit (p : Pass) : Forest → Compile Unit
  | .empty => pure ()
  | .grow id below later => do
    p.onDevice id (p.visit below)
    p.visit later

/-- The pass over a device and everything below it. -/
def runAt (p : Pass) (id : Nat) : Compile Unit := do
  let s ← Compile.shot
  p.onDevice id (p.visit (s.below (.device id)))

/-- The pass over everything below the shot. -/
def runBelowShot (p : Pass) : Compile Unit := do
  let s ← Compile.shot
  p.visit (s.below .shot)

end Pass

end ShotTiming
