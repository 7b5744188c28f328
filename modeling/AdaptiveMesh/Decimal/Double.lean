/-!
# Doubles as exact numbers

A finite double is a natural number times a power of two, with a sign. The interval of reals that
round to it reaches half way to its neighbours, and includes its ends if the natural number is even.
-/

namespace AdaptiveMesh

set_option autoImplicit false

inductive Double where
  | undefined
  | infinite (negative : Bool)
  | finite (negative : Bool) (significand : Nat) (exponent : Int)
deriving DecidableEq, Repr

namespace Double

/-- Decodes the 64 bits of a double: sign, 11 bits of exponent, 52 bits of fraction. -/
def ofBits (bits : UInt64) : Double :=
  let word : Nat := bits.toNat
  let negative := word.testBit 63
  let biased : Nat := (word >>> 52) % 2048
  let fraction : Nat := word % (1 <<< 52)
  if biased = 2047 then (if fraction = 0 then infinite negative else undefined)
  else if biased = 0 then finite negative fraction (-1074)
  else finite negative (fraction + (1 <<< 52)) ((biased : Int) - 1075)

def ofFloat (x : Float) : Double := ofBits x.toBits

end Double

structure Ratio where
  num : Nat
  den : Nat
deriving DecidableEq, Repr

namespace Ratio

def scaled (n base : Nat) (exponent : Int) : Ratio :=
  if exponent < 0 then ⟨n, base.pow exponent.natAbs⟩ else ⟨n * base.pow exponent.natAbs, 1⟩

def le (a b : Ratio) : Bool := a.num * b.den ≤ b.num * a.den

def lt (a b : Ratio) : Bool := a.num * b.den < b.num * a.den

def shift (a : Ratio) (places : Int) : Ratio :=
  if places < 0 then ⟨a.num, a.den * Nat.pow 10 places.natAbs⟩ else ⟨a.num * Nat.pow 10 places.natAbs, a.den⟩

def floor (a : Ratio) : Nat := a.num / a.den

end Ratio

end AdaptiveMesh
