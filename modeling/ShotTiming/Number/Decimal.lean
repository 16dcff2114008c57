import ShotTiming.Number.Exact

/-!
# Decimal text of a double

Two forms: six significant digits, written positionally or with an exponent, and six decimal
places. Both round the exact value, a tie going to the even digit.
-/
namespace ShotTiming.Number

/-- Decimal digits, most significant first. -/
def digits (n : Nat) : List Char := Nat.toDigits 10 n

/-- The digits of `n`, with zeros in front up to the given width. -/
def padded (width n : Nat) : List Char :=
  let ds := digits n
  List.replicate (width - ds.length) '0' ++ ds

/-- A sign in front of what is not positive, and words for what is not a number. -/
def withSign (magnitude : Rat → List Char) (x : Float) : String :=
  match rational? x with
  | some q => String.ofList ((if isSigned x then ['-'] else []) ++ magnitude q.abs)
  | none => if x.isNaN then "nan" else if isSigned x then "-inf" else "inf"

/-- Six digits after the point, as many before it as the value has. -/
def places (x : Float) : String :=
  withSign (fun q =>
    let n := (nearestEven (q * mkRat 1000000 1)).toNat
    digits (n / 1000000) ++ '.' :: padded 6 (n % 1000000)) x

/-- `10 ^ k`. -/
def powerOfTen (k : Int) : Rat :=
  if k < 0 then mkRat 1 (Nat.pow 10 (-k).toNat) else mkRat (Nat.pow 10 k.toNat) 1

/-- The power of ten of the first significant digit of a positive number: the lengths of numerator
and denominator leave two candidates. -/
def leadingPower (q : Rat) : Int :=
  let k := ((digits q.num.toNat).length : Int) - (digits q.den).length
  if powerOfTen k ≤ q then k else k - 1

/-- A positive number to six significant digits: the digits as one integer, and the power of ten of
the first of them. -/
def sixDigits (q : Rat) : Nat × Int :=
  let k := leadingPower q
  let n := (nearestEven (q * powerOfTen (5 - k))).toNat
  if n < 1000000 then (n, k) else (n / 10, k + 1)

/-- The digits without the zeros at their end. -/
def trimmed (ds : List Char) : List Char := (ds.reverse.dropWhile (· == '0')).reverse

/-- A whole part, and a fraction behind a point if there is one. -/
def pointed (whole fraction : List Char) : List Char :=
  if fraction.isEmpty then whole else whole ++ '.' :: fraction

/-- The exponent is written with its sign and at least two digits. -/
def exponent (k : Int) : List Char :=
  'e' :: (if k < 0 then '-' else '+') :: padded 2 k.natAbs

/-- Six significant digits without trailing zeros; positional from `0.0001` up to below a million. -/
def significantDigits (q : Rat) : List Char :=
  if q = 0 then ['0'] else
    let (n, k) := sixDigits q
    let ds := digits n
    if k < -4 ∨ 6 ≤ k then pointed (ds.take 1) (trimmed (ds.drop 1)) ++ exponent k
    else if k < 0 then pointed ['0'] (List.replicate (-k - 1).toNat '0' ++ trimmed ds)
    else pointed (ds.take (k + 1).toNat) (trimmed (ds.drop (k + 1).toNat))

/-- The short form of a number, for use inside sentences. -/
def significant (x : Float) : String := withSign significantDigits x

end ShotTiming.Number
