/-!
# Devices in tree order

A forest is its first tree's root, what is below that root, and the later trees. Reading it in this
order lists parents before their children and siblings in order.
-/
namespace ShotTiming

inductive Forest
  | empty
  | grow (id : Nat) (below later : Forest)
  deriving DecidableEq, Repr, Inhabited

namespace Forest

/-- The trees that grow from some roots, cut off below a depth. -/
def plant (children : Nat → List Nat) : Nat → List Nat → Forest
  | 0, _ => empty
  | depth + 1, roots =>
    roots.foldr (fun id later => grow id (plant children depth (children id)) later) empty

/-- Leaves out some roots and everything below them, at any depth. -/
def prune (drop : Nat → Bool) : Forest → Forest
  | empty => empty
  | grow id below later =>
    if drop id then later.prune drop else grow id (below.prune drop) (later.prune drop)

def toList : Forest → List Nat
  | empty => []
  | grow id below later => id :: (below.toList ++ later.toList)

end Forest

end ShotTiming
