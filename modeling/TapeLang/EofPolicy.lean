/-!
What an input instruction stores once the input is exhausted.
-/
namespace TapeLang

inductive EofPolicy where
  | zero
  | unchanged
  | max
  deriving DecidableEq, Repr, Inhabited

namespace EofPolicy

def all : List EofPolicy := [.zero, .unchanged, .max]

def name : EofPolicy → String
  | zero => "zero"
  | unchanged => "unchanged"
  | max => "max"

/-- The cell's value after an input that met the end, given its value before. -/
def onEof : EofPolicy → UInt8 → UInt8
  | zero, _ => 0
  | unchanged, cell => cell
  | max, _ => 255

def ofName? (s : String) : Option EofPolicy := all.find? fun p => p.name = s

def unknownMessage (s : String) : String :=
  "unknown eof policy `" ++ s ++ "` (expected zero, unchanged or max)"

@[simp] theorem ofName?_name (p : EofPolicy) : ofName? p.name = some p := by
  cases p <;> rfl

end EofPolicy

end TapeLang
