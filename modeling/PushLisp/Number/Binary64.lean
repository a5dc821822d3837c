/-!
# Rounding to double precision

The finite numbers of the binary format with 53 significant bits, and the one that is nearest to a
given fraction or decimal; of two that are equally near, the one with an even last place. All
arithmetic is on natural numbers.

## Main definitions

* `Binary64`: a non-negative finite number of the format.
* `Binary64.nearest?`: the number nearest to a fraction.
* `Binary64.ofDecimal?`: the number nearest to a decimal.
* `Binary64.floor`: the integer part.
-/
namespace PushLisp

/-- The number `significand * 2 ^ exponent`. -/
structure Binary64 where
  significand : Nat
  exponent : Int
  deriving Repr, DecidableEq

namespace Binary64

/-- The least exponent of a last place. -/
def minExponent : Int := -1074

/-- The greatest exponent of a last place. -/
def maxExponent : Int := 971

/-- The number of significant bits. -/
def precision : Nat := 53

/-- The natural number nearest to a fraction; of two that are equally near, the even one. -/
def roundHalfEven (num den : Nat) : Nat :=
  let q := num / den
  let r := num % den
  if 2 * r < den then q
  else if den < 2 * r then q + 1
  else if q % 2 = 0 then q
  else q + 1

/-- Whether `2 ^ e` is at most a fraction. -/
def powLe (e : Int) (num den : Nat) : Bool :=
  match e with
  | .ofNat k => den <<< k ≤ num
  | .negSucc k => den ≤ num <<< (k + 1)

/-- The exponent of the greatest power of two that is at most a positive fraction. -/
def floorLog2 (num den : Nat) : Int :=
  let e : Int := (Nat.log2 num : Int) - (Nat.log2 den : Int)
  if powLe e num den then e else e - 1

/-- A fraction divided by `2 ^ e` and rounded to a natural number. -/
def significandAt (e : Int) (num den : Nat) : Nat :=
  match e with
  | .ofNat k => roundHalfEven num (den <<< k)
  | .negSucc k => roundHalfEven (num <<< (k + 1)) den

/-- The number nearest to a fraction, unless that is too large for the format. -/
def nearest? (num den : Nat) : Option Binary64 :=
  if num = 0 then some ⟨0, minExponent⟩
  else
    let e := max minExponent (floorLog2 num den - (precision - 1 : Nat))
    let m := significandAt e num den
    if maxExponent < e ∨ (e = maxExponent ∧ m = 1 <<< precision) then none else some ⟨m, e⟩

/-- The number nearest to `m * 10 ^ e`, where `m` has at most `digits` digits, unless it is too
large. Exponents that are far out are decided without computing the power. -/
def ofDecimal? (m digits : Nat) (e : Int) : Option Binary64 :=
  if m = 0 then some ⟨0, minExponent⟩
  else if 310 < e then none
  else if digits + e < -330 then some ⟨0, minExponent⟩
  else
    match e with
    | .ofNat k => nearest? (m * Nat.pow 10 k) 1
    | .negSucc k => nearest? m (Nat.pow 10 (k + 1))

/-- The integer part. -/
def floor (x : Binary64) : Nat :=
  match x.exponent with
  | .ofNat k => x.significand <<< k
  | .negSucc k => x.significand >>> (k + 1)

/-- Whether a number is zero. -/
def isZero (x : Binary64) : Bool := x.significand = 0

end Binary64

end PushLisp
