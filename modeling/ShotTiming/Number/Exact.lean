/-!
# The exact value of a double

A finite double stands for a rational number. Every rounding of this library is decided on that
rational, so that no intermediate operation can lose a bit.
-/
namespace ShotTiming.Number

/-- `m * 2 ^ e`. -/
def scaled (m e : Int) : Rat :=
  if e < 0 then mkRat m (Nat.pow 2 (-e).toNat) else mkRat (m * Nat.pow 2 e.toNat) 1

/-- The rational number that a double stands for; infinities and NaN stand for none. -/
def rational? (x : Float) : Option Rat :=
  match x.toModel.unpack with
  | .finite s m e _ => some (scaled (s.apply m) e)
  | .zero _ => some 0
  | .infinity _ => none
  | .notANumber => none

/-- The exact value, with 0 standing in where there is none. -/
def rational (x : Float) : Rat := (rational? x).getD 0

/-- Whether the sign bit is set; NaN counts as unsigned. -/
def isSigned (x : Float) : Bool :=
  match x.toModel.unpack with
  | .finite .negative _ _ _ | .zero .negative | .infinity .negative => true
  | _ => false

/-- The closest integer, the even one of two that are equally close. -/
def nearestEven (q : Rat) : Int :=
  let n := q.floor
  let r := q - n
  if r < mkRat 1 2 ∨ r = mkRat 1 2 ∧ n % 2 = 0 then n else n + 1

/-- The closest integer, the one further from zero of two that are equally close. -/
def nearestAway (q : Rat) : Int :=
  if q < 0 then (q - mkRat 1 2).ceil else (q + mkRat 1 2).floor

/-- The first number if it is larger than the second, otherwise the second. -/
def larger (a b : Float) : Float := if b < a then a else b

/-- The larger of the first number and the larger of the other two. -/
def largest (a b c : Float) : Float := larger a (larger b c)

end ShotTiming.Number
