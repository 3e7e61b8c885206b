import NativeLib.Utils.TextFiles

/-! `utils/fileUtils.cpp`: `savefile`. Both modes empty the file, and the answer does not depend
on what gets through. -/

namespace NativeLib.Utils

open Files Interaction
open Tracer (NUL text nul_notMem_text)

/-- `fopen`, by the first letter of the mode. -/
def fopen (path mode : List Char) : DiskCall :=
  if mode.head? = some 'w' then .openTrunc path
  else if mode.head? = some 'a' then .openAppend path
  else .openRead path

/-- `size` bytes of memory from `start` on. -/
def region (memory : ℕ → UInt8) (start size : ℕ) : List UInt8 :=
  (List.range size).map fun i => memory (start + i)

variable {disk disk' : Disk} {path savePath : List Char} {size start : ℕ} {memory : ℕ → UInt8}
  {isDele : Bool} {tr : Trace DiskCall DiskAnswer} {r : Option Bool}

end NativeLib.Utils
