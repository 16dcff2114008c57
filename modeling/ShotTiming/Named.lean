/-!
# Types with finitely many named members
-/
namespace ShotTiming

/-- A finite type whose members are listed in order, each with a name. -/
class Named (α : Type) where
  all : List α
  name : α → String
  mem_all : ∀ a : α, a ∈ all

namespace Named

variable {α : Type} [Named α]

def ofName? (s : String) : Option α := all.find? (name · == s)

/-- The name at a position of the list; what lies past the end has a stand-in. -/
def nameAt (α : Type) [Named α] (n : Nat) (beyond : String) : String :=
  ((all : List α)[n]?.map name).getD beyond

/-- The position of a member. -/
def index [BEq α] (a : α) : Nat := all.idxOf a

end Named

end ShotTiming
