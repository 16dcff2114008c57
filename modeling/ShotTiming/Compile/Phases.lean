import ShotTiming.Compile.Basic

/-!
# Calls and phases

Every call of a phase is entered for its node. A phase is left only when every node has had the
calls it requires.
-/
namespace ShotTiming

namespace Shot

/-- The shot with a call entered for a node. -/
def enterAs (s : Shot) (r : NodeRef) (subject : Shot → Subject) (o : Operation) :
    Except Fault Shot :=
  match s.calls.enter r o with
  | .ok calls => .ok { s with calls }
  | .error .wrongPhase => .error (.call (.wrongPhase (subject s) o s.phase))
  | .error .repeated => .error (.call (.repeated (subject s) o s.phase))

/-- Refuses a node that lacks a required call of the phase. -/
def requireCalls (s : Shot) (r : NodeRef) (subject : Shot → Subject) : Except Fault Unit :=
  match s.calls.missing? r with
  | none => .ok ()
  | some o => .error (.call (.missing (subject s) o s.phase))

/-- The first node that lacks a required call of the phase, and that call. -/
def firstMissing? (s : Shot) : Option (Node × Operation) :=
  s.nodes.findSome? fun n => (s.calls.missing? n.ref).map fun o => (n, o)

end Shot

namespace Compile

def enterAs (r : NodeRef) (subject : Shot → Subject) (o : Operation) : Compile Unit := do
  match (← shot).enterAs r subject o with
  | .ok s => modifyShot fun _ => s
  | .error e => throw e

def enter (n : Node) (o : Operation) : Compile Unit := enterAs n.ref (·.subject n) o

def checkAllCalled : Compile Unit := do
  let s ← shot
  match s.firstMissing? with
  | none => pure ()
  | some (n, o) => throw (.call (.missing (s.subject n) o s.phase))

/-- Moves to the next phase on behalf of a node, without looking at the calls of this one. -/
def advanceAs (subject : Shot → Subject) : Compile Unit := do
  let s ← shot
  match s.calls.advance? with
  | none => throw (.call (.pastLast (subject s) s.phase))
  | some calls =>
    say .debug ((subject s).title ++ ": " ++ s.phase.name ++ " -> " ++ calls.phase.name ++ "\n")
    modifyShot fun s => { s with calls }

/-- Moves to the next phase once every node has had its calls. -/
def nextPhase : Compile Unit := do
  checkAllCalled
  advanceAs (·.subject .shot)

end Compile

end ShotTiming
