/-!
Scripted input. A feed lists what the reads to come will meet; after its last item every read
meets the end of the input. Interrupted reads are tried again and leave no trace.
-/
namespace TapeLang

inductive Delivery where
  | byte (b : UInt8)
  | endOfInput
  | interrupted
  | failure (message : String)
  deriving DecidableEq, Repr, Inhabited

abbrev Feed := List Delivery

/-- What reading a byte comes to, interruptions apart. -/
inductive Reading where
  | byte (b : UInt8)
  | endOfInput
  | failure (message : String)
  deriving DecidableEq, Repr, Inhabited

namespace Feed

/-- The feed that delivers the given bytes and nothing else. -/
def ofBytes (bytes : List UInt8) : Feed := bytes.map .byte

def read : Feed → Reading × Feed
  | [] => (.endOfInput, [])
  | .byte b :: rest => (.byte b, rest)
  | .endOfInput :: rest => (.endOfInput, rest)
  | .interrupted :: rest => read rest
  | .failure message :: rest => (.failure message, rest)

@[simp] theorem read_interrupted (f : Feed) : read (.interrupted :: f) = read f := rfl

end Feed

end TapeLang
