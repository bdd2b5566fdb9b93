import Mathlib.Data.UInt

/-!
Signed machine integers of 32 bits as integers: `toInt32` is the value that a variable of type
`int` has after it was assigned `n`.
-/

namespace Uros.Foundation

def toInt32 (n : ℤ) : ℤ := (n + 2 ^ 31) % 2 ^ 32 - 2 ^ 31

theorem toInt32_of_range {n : ℤ} (hge : -2 ^ 31 ≤ n) (hlt : n < 2 ^ 31) : toInt32 n = n := by
  unfold toInt32
  omega

end Uros.Foundation
