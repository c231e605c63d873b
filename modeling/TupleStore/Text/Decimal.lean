/-!
# Decimal text of binary fractions

* `roundDiv` : the quotient of two numbers, rounded to the nearest; a tie goes to the even neighbour;
* `Binary` : a number `m * 2 ^ e`, and `ofFloat`, which reads one out of a finite, positive float;
* `Binary.fixed` : its decimal text with a fixed number of places, rounded from the exact value.
-/

namespace TupleStore.Decimal

set_option autoImplicit false

/-- The quotient rounded to the nearest number; a tie goes to the even one. -/
def roundDiv (num den : Nat) : Nat :=
  let q := num / den
  let r := num % den
  if 2 * r < den then q
  else if den < 2 * r then q + 1
  else q + q % 2

/-- The number `mantissa * 2 ^ exponent`. -/
structure Binary where
  mantissa : Nat
  exponent : Int
deriving DecidableEq, Repr

namespace Binary

/-- The value of a finite float, without its sign: eleven bits of exponent over fifty-two of fraction. -/
def ofFloat (x : Float) : Binary :=
  let bits := x.toBits.toNat
  let fraction := bits % Nat.pow 2 52
  let exponent := bits / Nat.pow 2 52 % Nat.pow 2 11
  if exponent = 0 then ⟨fraction, -1074⟩ else ⟨Nat.pow 2 52 + fraction, Int.ofNat exponent - 1075⟩

/-- The value times a power of ten, rounded to a whole number. -/
def scaled (b : Binary) (places : Nat) : Nat :=
  if 0 ≤ b.exponent then b.mantissa * Nat.pow 2 b.exponent.toNat * Nat.pow 10 places
  else roundDiv (b.mantissa * Nat.pow 10 places) (Nat.pow 2 (-b.exponent).toNat)

/-- The decimal text with some places behind the point. -/
def fixed (b : Binary) (places : Nat) : String :=
  let n := b.scaled places
  let digits := toString (n % Nat.pow 10 places)
  let zeros := String.ofList (List.replicate (places - digits.length) '0')
  toString (n / Nat.pow 10 places) ++ "." ++ zeros ++ digits

end Binary

end TupleStore.Decimal
