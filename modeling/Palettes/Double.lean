/-!
The range of doubles, floating point numbers of 53 binary digits, in exact
arithmetic.
-/
namespace Palettes.Double

/-- The least number that rounds to infinity. It lies halfway between the
largest double and the next power of two. -/
def limit : Nat := Nat.pow 2 1024 - Nat.pow 2 970

/-- The nearest number with 53 binary digits; of two, the even one. -/
def round (n : Nat) : Nat :=
  if n < Nat.pow 2 53 then n
  else
    let unit := Nat.pow 2 (Nat.log2 n - 52)
    let q := n / unit
    let r := 2 * (n % unit)
    if unit < r ∨ (r = unit ∧ q % 2 = 1) then (q + 1) * unit else q * unit

/-- Whether `m * 10 ^ e` rounds to infinity. -/
def overflows (m : Nat) (e : Int) : Bool :=
  match e with
  | .ofNat e => m != 0 && (309 < e || limit ≤ m * Nat.pow 10 e)
  | .negSucc e => limit ≤ m / Nat.pow 10 (min (e + 1) (Nat.log2 m + 1))

/-- Whether `m * 10 ^ e` does so when both factors are rounded before they are
multiplied. The power is one that a double can hold, or the product is too large. -/
def overflowsRounded (m : Nat) (e : Int) : Bool :=
  match e with
  | .ofNat e => m != 0 && (308 < e || limit ≤ round m * round (Nat.pow 10 e))
  | .negSucc _ => false

end Palettes.Double
