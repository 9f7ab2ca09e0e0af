/-!
# whole numbers in decimal
-/

namespace Rebind

/-- a whole number in decimal, with a dash in front of a negative one -/
def decimal : Int → List Char
  | .ofNat n => Nat.toDigits 10 n
  | .negSucc n => '-' :: Nat.toDigits 10 (n + 1)

end Rebind
