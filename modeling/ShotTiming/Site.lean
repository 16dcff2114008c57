/-!
# Where a node was created
-/
namespace ShotTiming

/-- A place in a script; without a file it is unknown. -/
structure Site where
  file : Option String := none
  line : Nat := 0
  func : Option String := none
  deriving DecidableEq, Repr, Inhabited

namespace Site

def text (s : Site) : String :=
  match s.file with
  | none => "<unknown>"
  | some file =>
    let place := file ++ ":" ++ toString s.line
    match s.func with
    | none | some "" => place
    | some f => place ++ " (" ++ f ++ ")"

end Site

end ShotTiming
