/-!
# sets of code points as ranges

A set of characters that a standard lists is kept as closed ranges of code points in increasing
order.
-/

namespace Rebind

/-- `n` lies in one of the closed ranges of `rs` -/
def inRanges (rs : List (Nat × Nat)) (n : Nat) : Bool := rs.any fun r => r.1 ≤ n && n ≤ r.2

@[simp] theorem inRanges_nil (n : Nat) : inRanges [] n = false := rfl

@[simp] theorem inRanges_cons (r : Nat × Nat) (rs : List (Nat × Nat)) (n : Nat) :
    inRanges (r :: rs) n = ((r.1 ≤ n && n ≤ r.2) || inRanges rs n) := rfl

end Rebind
