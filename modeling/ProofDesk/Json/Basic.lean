/-!
This module contains JSON values. Objects keep their fields in the order in which they are written,
with repetitions.
-/

namespace ProofDesk

inductive Json where
  | null
  | bool (b : Bool)
  -- A number written without fraction and exponent that fits 64 bits, signed or unsigned.
  | int (n : Int)
  -- Any other number, as it is written.
  | real (literal : String)
  | str (text : String)
  | arr (items : List Json)
  | obj (fields : List (String × Json))
  -- Follows the grammar but stands for no value: a string or key with half of a surrogate pair, or
  -- a number beyond the range of floating point.
  | meaningless
  deriving Repr, Inhabited

namespace Json

def wordSize : Nat := 18446744073709551616

def halfWordSize : Nat := 9223372036854775808

def nat (n : Nat) : Json :=
  .int n

def orNull (f : α → Json) : Option α → Json
  | some a => f a
  | none => .null

end Json

end ProofDesk
