/-!
# Sorting and searching
-/
namespace ShotTiming.Sorted

variable {α : Type}

/-- Inserts into a descending list, in front of what is not above the new member. -/
def insertDescending (isBefore : α → α → Bool) (x : α) : List α → List α
  | [] => [x]
  | y :: ys => if isBefore x y then y :: insertDescending isBefore x ys else x :: y :: ys

/-- Sorts in ascending order and keeps the order of what is level. Each member is inserted from the
end, which takes one step if the list is in order already. -/
def sort (isBefore : α → α → Bool) (xs : List α) : List α :=
  (xs.foldl (fun sorted x => insertDescending isBefore x sorted) []).reverse

/-- Halves a range of positions until it is empty: what satisfies the condition lies left of the
result, given that no member satisfies it behind one that does not. -/
def search (holds : α → Bool) (xs : Array α) (first length : Nat) : Nat :=
  if length = 0 then first
  else
    let half := length / 2
    if xs[first + half]?.any holds then search holds xs (first + half + 1) (length - half - 1)
    else search holds xs first half
termination_by length

/-- The number of members in front of the first one that fails the condition. -/
def split (holds : α → Bool) (xs : Array α) : Nat := search holds xs 0 xs.size

end ShotTiming.Sorted
