/-!
# Shortest decimals

A binary floating-point number is written with the fewest digits that still read back as the same
number, and of these with the digits nearest to it.

## Summary

* `Binary` is a positive number `mantissa * 2 ^ exponent` together with the numbers that round
  to it: an interval around it, closed when the mantissa is even.
* `Binary.onGrid?` looks for a multiple of a power of ten in that interval, near the number.
* `Binary.shortest` takes the coarsest grid that has one.
* `floatText` writes a float in this way: positionally for exponents from -4 to 15, with an
  exponent of at least two digits otherwise.
-/

namespace ImportAtlas.Number

/-- The number `mantissa * 2 ^ exponent` with the gap to its lower neighbour. -/
structure Binary where
  /-- The significand, an integer. -/
  mantissa : Nat
  /-- The power of two that scales the significand. -/
  exponent : Int
  /-- The lower neighbour is only half as far away as the upper one. -/
  narrowBelow : Bool

namespace Binary

/-- The positive finite number whose sign-free bits are given. -/
def ofBits (bits : Nat) : Binary :=
  let fraction : Nat := bits % Nat.pow 2 52
  let biased : Nat := bits / Nat.pow 2 52 % Nat.pow 2 11
  if biased = 0 then ⟨fraction, -1074, false⟩
  else ⟨fraction + Nat.pow 2 52, Int.ofNat biased - 1075, fraction = 0 && biased > 1⟩

/-- A multiple of `10 ^ grid` that rounds to the number: the nearer one of the two neighbours of
the number on that grid, the even one of two that are equally near. -/
def onGrid? (x : Binary) (grid : Int) : Option Nat :=
  -- all quantities are quarters of the last binary place, on a common denominator
  let binaryUp := Nat.pow 2 (x.exponent - 2).toNat
  let binaryDown := Nat.pow 2 (2 - x.exponent).toNat
  let decimalUp := Nat.pow 10 grid.toNat
  let decimalDown := Nat.pow 10 (-grid).toNat
  let value := 4 * x.mantissa * binaryUp * decimalDown
  let low := (4 * x.mantissa - if x.narrowBelow then 1 else 2) * binaryUp * decimalDown
  let high := (4 * x.mantissa + 2) * binaryUp * decimalDown
  let step := decimalUp * binaryDown
  let inside (d : Nat) : Bool :=
    if x.mantissa % 2 = 0 then low ≤ d * step && d * step ≤ high
    else low < d * step && d * step < high
  let below := value / step
  let above := below + 1
  match inside below, inside above with
  | false, false => none
  | true, false => some below
  | false, true => some above
  | true, true =>
    let down := value - below * step
    let up := above * step - value
    if down < up then some below
    else if up < down then some above
    else if below % 2 = 0 then some below else some above

/-- The point of the coarsest grid from `grid` downwards that rounds to the number. -/
def shortestFrom (x : Binary) : Nat → Int → Nat × Int
  | 0, grid => (0, grid)
  | steps + 1, grid =>
    match x.onGrid? grid with
    | some d => (d, grid)
    | none => shortestFrom x steps (grid - 1)

/-- Digits and power of ten of the shortest decimal that rounds to the number. -/
def shortest (x : Binary) : Nat × Int := x.shortestFrom 680 310

end Binary

/-- A float in decimal, as short as it may be. -/
def floatText (x : Float) : String :=
  let bits := x.toBits.toNat
  let sign := if bits ≥ Nat.pow 2 63 then "-" else ""
  let magnitude := bits % Nat.pow 2 63
  if x.isNaN then "nan"
  else if x.isInf then sign ++ "inf"
  else if magnitude = 0 then sign ++ "0.0"
  else
    let (number, grid) := (Binary.ofBits magnitude).shortest
    let digits := Nat.toDigits 10 number
    -- the decimal point stands after this many digits
    let point : Int := digits.length + grid
    let text : List Char :=
      if -4 < point && point ≤ 16 then
        if point ≤ 0 then '0' :: '.' :: List.replicate (-point).toNat '0' ++ digits
        else if digits.length ≤ point.toNat then
          digits ++ List.replicate (point.toNat - digits.length) '0' ++ ['.', '0']
        else digits.take point.toNat ++ '.' :: digits.drop point.toNat
      else
        let exponent := point - 1
        let exponentDigits := Nat.toDigits 10 exponent.natAbs
        let mantissa := match digits with
          | [d] => [d]
          | d :: more => d :: '.' :: more
          | [] => []
        mantissa ++ 'e' :: (if exponent < 0 then '-' else '+') ::
          (if exponentDigits.length < 2 then '0' :: exponentDigits else exponentDigits)
    sign ++ String.ofList text

/-- The float nearest to `digits * 10 ^ exponent`. -/
def floatOfDecimal (negative : Bool) (digits : Nat) (exponent : Int) : Float :=
  let places : Int := (Nat.toDigits 10 digits).length + exponent
  let magnitude : Float :=
    if digits = 0 || places < -400 then 0.0
    else if places > 400 then 1.0 / 0.0
    else Float.ofScientific digits (exponent < 0) exponent.natAbs
  if negative then -magnitude else magnitude

end ImportAtlas.Number
