import Std.Data.TreeSet
import ShotTiming.Phase

/-!
# The call discipline

The record of which node has had which operation, and the phase it is kept for. A call is recorded
under one 64-bit key: the operation above the type of the node above its number.
-/
namespace ShotTiming

def NodeType.code : NodeType → UInt64
  | none => 0
  | shot => 1
  | device => 2
  | instruction => 3

def Operation.code (o : Operation) : UInt64 := UInt64.ofNat (Named.index o)

def NodeRef.key (r : NodeRef) : UInt64 := (r.type.code <<< 32) ||| r.id.toUInt64

def callKey (r : NodeRef) (o : Operation) : UInt64 := r.key ||| (o.code <<< 40)

structure Calls where
  phase : Phase := .addDevices
  made : Std.TreeSet UInt64 := {}

/-- Why a call is not allowed. -/
inductive Refusal
  | wrongPhase
  | repeated
  deriving DecidableEq, Repr

namespace Calls

def isLast (c : Calls) : Bool := c.phase.next?.isNone

def allows (c : Calls) (o : Operation) : Bool := o.phase == c.phase

def called (c : Calls) (r : NodeRef) (o : Operation) : Bool := c.made.contains (callKey r o)

/-- Records a call, which has to come in its phase and, if it is of that sort, only once. -/
def enter (c : Calls) (r : NodeRef) (o : Operation) : Except Refusal Calls :=
  if !c.allows o then .error .wrongPhase
  else if !o.isOnce then .ok c
  else if c.called r o then .error .repeated
  else .ok { c with made := c.made.insert (callKey r o) }

/-- The first operation of the current phase that a node must have had and has not. -/
def missing? (c : Calls) (r : NodeRef) : Option Operation :=
  Named.all.find? fun o =>
    c.allows o && o.isOnce && o.isRequiredOn r.type && !c.called r o

/-- The next phase with the same record, unless the phase is the last. -/
def advance? (c : Calls) : Option Calls := c.phase.next?.map fun p => { c with phase := p }

end Calls

end ShotTiming
