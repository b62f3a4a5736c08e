/-!
# Binary floating-point numbers of 64 bits

The numbers as exact data: a finite one is `±m·2^q`. `Binary64.ofDecimal` gives the number nearest
to a decimal, a tie going to the even neighbour. All arithmetic is on natural numbers.
-/

namespace DomainCodegen

inductive Binary64 where
  | nan
  | infinity (negative : Bool)
  | finite (negative : Bool) (m : Nat) (q : Int)
  deriving DecidableEq, Inhabited, Repr

namespace Binary64

def twoTo (n : Nat) : Nat := Nat.pow 2 n

def tenTo (n : Nat) : Nat := Nat.pow 10 n

/-- The smallest whole number that is not below `m·2^q`. -/
def ceiling (m : Nat) (q : Int) : Nat :=
  if 0 ≤ q then m * twoTo q.toNat
  else (m + (twoTo (-q).toNat - 1)) / twoTo (-q).toNat

/-- The whole number nearest to `num / den`, a half going to the even neighbour. -/
def roundDiv (num den : Nat) : Nat :=
  let quo := num / den
  let rest := num % den
  if 2 * rest < den then quo
  else if den < 2 * rest then quo + 1
  else if quo % 2 = 0 then quo else quo + 1

/-- The largest `e` with `2^e ≤ num / den`, for positive `num` and `den`. -/
def floorLog2 (num den : Nat) : Int :=
  let e : Int := (Nat.log2 num : Int) - (Nat.log2 den : Int)
  let atLeast : Bool :=
    if 0 ≤ e then decide (den * twoTo e.toNat ≤ num) else decide (den ≤ num * twoTo (-e).toNat)
  if atLeast then e else e - 1

/-- The number nearest to the positive quotient `num / den`. The spacing of the numbers at the
quotient is `2^q`, never below `2^(-1074)`; rounding may carry into the next power of two. -/
def ofRatio (negative : Bool) (num den : Nat) : Binary64 :=
  let q : Int := max (floorLog2 num den - 52) (-1074)
  let m :=
    if 0 ≤ q then roundDiv num (den * twoTo q.toNat) else roundDiv (num * twoTo (-q).toNat) den
  let (m, q) := if m = twoTo 53 then (twoTo 52, q + 1) else (m, q)
  if 971 < q then infinity negative else finite negative m q

def zero (negative : Bool) : Binary64 := finite negative 0 (-1074)

/-- The number nearest to `digits · 10^exponent`. Below `10^(-330)` that is zero and from `10^310`
on infinity, so the powers that are computed stay small. -/
def ofDecimal (negative : Bool) (digits : Nat) (exponent : Int) : Binary64 :=
  let magnitude : Int := (Nat.toDigits 10 digits).length + exponent
  if digits = 0 || magnitude < -330 then zero negative
  else if 310 < magnitude then infinity negative
  else if 0 ≤ exponent then ofRatio negative (digits * tenTo exponent.toNat) 1
  else ofRatio negative digits (tenTo (-exponent).toNat)

end Binary64

end DomainCodegen
