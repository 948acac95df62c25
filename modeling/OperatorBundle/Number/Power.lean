/-!
The powers that bound integers and place the digits of doubles.
-/

namespace OperatorBundle.Number

/-- A power of two. -/
def twoTo (exponent : Nat) : Nat := Nat.pow 2 exponent

/-- A power of ten. -/
def tenTo (exponent : Nat) : Nat := Nat.pow 10 exponent

end OperatorBundle.Number
