import DomainCodegen.Number.Binary64

/-!
# The shortest decimal of a floating-point number

`Binary64.shortest` is the decimal with the fewest digits that reads back as the number, and of
two such decimals the nearer one, or the even one when both are equally near. `Binary64.text`
writes it the way messages and documents show numbers: positionally from `10^(-4)` up to `10^16`,
otherwise with an exponent of at least two digits, and always with a point or an exponent.
-/

namespace DomainCodegen

namespace Binary64

/-- `digits · 10^exponent`. -/
structure Decimal where
  digits : Nat
  exponent : Int
  deriving DecidableEq, Repr

/-- The decimals next to `m·2^q` on the grid of the multiples of `10^p`, the nearer one first. -/
def gridNeighbours (m : Nat) (q p : Int) : List Decimal :=
  let num := m * twoTo q.toNat * tenTo (-p).toNat
  let den := twoTo (-q).toNat * tenTo p.toNat
  let below := num / den
  if roundDiv num den = below then [⟨below, p⟩, ⟨below + 1, p⟩]
  else [⟨below + 1, p⟩, ⟨below, p⟩]

/-- The first of the grids `10^p`, `10^(p-1)`, … on which a neighbour reads back as `m·2^q`. -/
def shortestFrom (m : Nat) (q : Int) : Nat → Int → Option Decimal
  | 0, _ => none
  | grids + 1, p =>
    let readsBack (d : Decimal) : Bool := ofDecimal false d.digits d.exponent = finite false m q
    match (gridNeighbours m q p).find? readsBack with
    | some d => some d
    | none => shortestFrom m q grids (p - 1)

/-- The number of decimal digits of the whole part of `m·2^q`, or an exponent just above the first
digit that is not zero when the number is below one. -/
def decimalMagnitude (m : Nat) (q : Int) : Int :=
  let (num, den) := (m * twoTo q.toNat, twoTo (-q).toNat)
  if den ≤ num then ((Nat.toDigits 10 (num / den)).length : Int)
  else 1 - ((Nat.toDigits 10 (den / num)).length : Int)

/-- The fewest digits that read back, for a positive number; seventeen always suffice. -/
def shortest (m : Nat) (q : Int) : Decimal :=
  (shortestFrom m q 20 (decimalMagnitude m q)).getD ⟨m, q⟩

/-- The digits of a decimal without zeros at the end, and the place of the point counted from the
first digit. -/
def Decimal.significant (d : Decimal) : List Char × Int :=
  let ds := Nat.toDigits 10 d.digits
  ((ds.reverse.dropWhile (· = '0')).reverse, (ds.length : Int) + d.exponent)

def exponentText (e : Int) : List Char :=
  let ds := Nat.toDigits 10 e.natAbs
  (if e < 0 then '-' else '+') :: (if ds.length < 2 then '0' :: ds else ds)

/-- Digits with a point after the first `point` of them. -/
def pointText (ds : List Char) (point : Int) : List Char :=
  if point ≤ 0 then '0' :: '.' :: (List.replicate (-point).toNat '0' ++ ds)
  else if (ds.length : Int) ≤ point then
    ds ++ List.replicate (point.toNat - ds.length) '0' ++ ['.', '0']
  else ds.take point.toNat ++ '.' :: ds.drop point.toNat

def decimalText (d : Decimal) : List Char :=
  let (ds, point) := d.significant
  if -4 < point ∧ point ≤ 16 then pointText ds point
  else
    let mantissa := match ds with
      | first :: second :: more => first :: '.' :: second :: more
      | short => short
    mantissa ++ 'e' :: exponentText (point - 1)

/-- The text of a number. -/
def text : Binary64 → List Char
  | nan => "nan".toList
  | infinity negative => (if negative then ['-'] else []) ++ "inf".toList
  | finite negative m q =>
    (if negative then ['-'] else []) ++ if m = 0 then "0.0".toList else decimalText (shortest m q)

end Binary64

end DomainCodegen
