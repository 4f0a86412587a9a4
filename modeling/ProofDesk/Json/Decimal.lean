import ProofDesk.Json.Basic

/-!
This module contains the range of JSON numbers that are no integers. Such a number is held as a
64-bit significand and a power of ten. Its value is their product in double precision, where both
factors and the product are rounded, and it must be finite.
-/

namespace ProofDesk

structure Decimal where
  significand : Nat
  exponent : Int
  deriving DecidableEq, Repr

namespace Decimal

def digitValue (c : Char) : Nat :=
  c.toNat - '0'.toNat

def fill (n : Nat) : List Char → Nat × List Char
  | [] => (n, [])
  | c :: cs =>
    let next := 10 * n + digitValue c
    if next < Json.wordSize then fill next cs else (n, c :: cs)

def ofDigits (whole fraction : List Char) (exponent : Int) : Decimal :=
  let (n, dropped) := fill 0 whole
  let (n, unused) := fill n fraction
  ⟨n, exponent + dropped.length + unused.length - fraction.length⟩

def round (n : Nat) : Nat :=
  let unit := Nat.pow 2 (n.log2 + 1 - 53)
  let quotient := n / unit
  let rest := n % unit
  if 2 * rest < unit || (2 * rest == unit && quotient % 2 == 0) then quotient * unit
  else (quotient + 1) * unit

def maxExponent : Nat := 308

def isFinite (d : Decimal) : Bool :=
  if d.significand = 0 ∨ d.exponent < 0 then true
  else if d.exponent ≤ maxExponent then
    round (round d.significand * round (Nat.pow 10 d.exponent.toNat)) < Nat.pow 2 1024
  else false

end Decimal

end ProofDesk
