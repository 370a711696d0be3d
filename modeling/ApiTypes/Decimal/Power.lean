/-!
Powers of two and of ten, the two scales on which numbers are read and written.
-/

namespace ApiTypes

/-- Two to the power `n`. -/
def twoTo (n : Nat) : Nat := Nat.pow 2 n

/-- Ten to the power `n`. -/
def tenTo (n : Nat) : Nat := Nat.pow 10 n

theorem twoTo_succ (n : Nat) : twoTo (n + 1) = twoTo n * 2 := rfl

theorem tenTo_succ (n : Nat) : tenTo (n + 1) = tenTo n * 10 := rfl

theorem twoTo_pos (n : Nat) : 0 < twoTo n := Nat.pow_pos (by decide)

theorem tenTo_pos (n : Nat) : 0 < tenTo n := Nat.pow_pos (by decide)

end ApiTypes
