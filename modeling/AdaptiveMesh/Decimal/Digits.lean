import AdaptiveMesh.Decimal.Double

/-!
# Decimal text

Two ways to write a double. The shortest text has the fewest digits that still read back as the same
double, and of those the nearest; a layout says how they are set out. The fixed text rounds the exact
value to a number of places, and a tie goes to the even neighbour.
-/

namespace AdaptiveMesh

set_option autoImplicit false

namespace Decimal

def digits (n width : Nat) : List Char :=
  let shown := Nat.toDigits 10 n
  List.replicate (width - shown.length) '0' ++ shown

def pointed (n places : Nat) : String :=
  if places = 0 then toString n
  else
    let shown := digits n (places + 1)
    let whole := shown.length - places
    String.ofList (shown.take whole ++ '.' :: shown.drop whole)

def positional (n : Nat) (exponent : Int) : String :=
  if exponent < 0 then pointed n exponent.natAbs else toString (n * Nat.pow 10 exponent.natAbs)

def roundHalfEven (num den : Nat) : Nat :=
  let below := num / den
  let rest := 2 * (num % den)
  if rest < den then below
  else if den < rest then below + 1
  else below + below % 2

/-- The least `p` with `a < 10 ^ p`, for a positive ratio. -/
def magnitude (a : Ratio) : Int :=
  let guess : Int := (Nat.toDigits 10 a.num).length - (Nat.toDigits 10 a.den).length
  if a.lt (.scaled 1 10 guess) then guess else guess + 1

structure Rounding where
  value : Ratio
  lower : Ratio
  upper : Ratio
  closed : Bool

/-- The interval around `significand * 2 ^ exponent`. Below a power of two the doubles lie half as
far apart, unless the exponent is already the least one. -/
def Rounding.around (significand : Nat) (exponent : Int) : Rounding :=
  let narrow := significand = 1 <<< 52 ∧ -1074 < exponent
  { value := .scaled (4 * significand) 2 (exponent - 2)
    lower := .scaled (4 * significand - if narrow then 1 else 2) 2 (exponent - 2)
    upper := .scaled (4 * significand + 2) 2 (exponent - 2)
    closed := significand % 2 = 0 }

def Rounding.contains (r : Rounding) (a : Ratio) : Bool :=
  if r.closed then r.lower.le a && a.le r.upper else r.lower.lt a && a.lt r.upper

inductive Tie where
  | up
  | even
deriving DecidableEq, Repr

/-- Whether of two equally near neighbours, the lower of which is given, the upper one is taken. -/
def Tie.takesAbove : Tie → (below : Nat) → Bool
  | up, _ => true
  | even, below => below % 2 = 1

/-- Of the two neighbours of the value among the multiples of `10 ^ exponent`, the nearer one that
rounds to the double. -/
def Rounding.onGrid? (r : Rounding) (tie : Tie) (exponent : Int) : Option Nat :=
  let scaled := r.value.shift (-exponent)
  let below := scaled.floor
  let above := below + 1
  let fits (n : Nat) : Bool := r.contains (.scaled n 10 exponent)
  let middle := (2 * below + 1) * scaled.den
  let aboveIsNearer : Bool :=
    middle < 2 * scaled.num || middle = 2 * scaled.num && tie.takesAbove below
  match fits below, fits above with
  | false, false => none
  | true, false => some below
  | false, true => some above
  | true, true => some (if aboveIsNearer then above else below)

/-- The fewest digits that read back, as a number and a decimal exponent. Seventeen digits always
do. Rounding up to a power of ten ends in a zero, which is dropped. -/
def Rounding.shortest (r : Rounding) (tie : Tie) : Nat × Int :=
  let top := magnitude r.value
  let found := (List.range 17).findSome? fun (n : Nat) =>
    let exponent := top - (n + 1)
    (r.onGrid? tie exponent).map fun digits =>
      if digits % 10 = 0 then (digits / 10, exponent + 1) else (digits, exponent)
  found.getD (0, 0)

def sign (negative : Bool) : String := if negative then "-" else ""

structure Layout where
  tie : Tie
  /-- Whether a whole number without an exponent ends in a point and a zero. -/
  pointZero : Bool
  /-- The powers of ten of the first digit for which no exponent is written. -/
  isPositional : Int → Bool

def scientific (digits : List Char) (power : Int) : String :=
  let fraction := digits.drop 1
  let significand := digits.take 1 ++ if fraction.isEmpty then [] else '.' :: fraction
  let powerSign := if power < 0 then "e-" else "e+"
  String.ofList significand ++ powerSign ++ toString power.natAbs

def Layout.setOut (layout : Layout) (digits : Nat) (exponent : Int) : String :=
  let shown := Nat.toDigits 10 digits
  let power := exponent + shown.length - 1
  if layout.isPositional power then
    positional digits exponent ++ if layout.pointZero && 0 ≤ exponent then ".0" else ""
  else scientific shown power

def Layout.write (layout : Layout) (x : Float) : String :=
  match Double.ofFloat x with
  | .undefined => "NaN"
  | .infinite negative => sign negative ++ "inf"
  | .finite negative 0 _ => sign negative ++ layout.setOut 0 0
  | .finite negative significand exponent =>
      let (digits, places) := (Rounding.around significand exponent).shortest layout.tie
      sign negative ++ layout.setOut digits places

def shortest (x : Float) : String := Layout.write ⟨.up, false, fun _ => true⟩ x

def fixed (places : Nat) (x : Float) : String :=
  match Double.ofFloat x with
  | .undefined => "NaN"
  | .infinite negative => sign negative ++ "inf"
  | .finite negative significand exponent =>
      let exact := (Ratio.scaled significand 2 exponent).shift places
      sign negative ++ pointed (roundHalfEven exact.num exact.den) places

end Decimal

end AdaptiveMesh
