import Mathlib.Data.Int.Notation
import Mathlib.Data.Nat.Notation

/-! Machine words. The C++ code hands `int`, `long` and `void *` values to and from the
libraries it calls; all of them are integers here, an address being a positive one. -/

namespace NativeLib

abbrev Word := ℤ

abbrev Ptr := Word

def nullptr : Ptr := 0

end NativeLib
