/-!
Optimization levels. Above the lowest one, runs of updates become single instructions.
-/
namespace TapeLang

inductive OptLevel where
  | O0
  | O1
  | O2
  | O3
  deriving DecidableEq, Repr

namespace OptLevel

instance : Inhabited OptLevel := ⟨O2⟩

def level : OptLevel → Nat
  | O0 => 0
  | O1 => 1
  | O2 => 2
  | O3 => 3

def ofLevel? : Nat → Option OptLevel
  | 0 => some O0
  | 1 => some O1
  | 2 => some O2
  | 3 => some O3
  | _ => none

def name (l : OptLevel) : String := s!"O{l.level}"

/-- Whether runs of cell or head updates are folded into one instruction. -/
def folds (l : OptLevel) : Bool := l ≠ O0

def compare (l r : OptLevel) : Ordering := Ord.compare l.level r.level

/-- The value of a string of decimal digits, of which there is at least one. -/
def decimal? (digits : List Char) : Option Nat :=
  if digits ≠ [] ∧ digits.all Char.isDigit then
    some (digits.foldl (fun n c => 10 * n + (c.toNat - 48)) 0)
  else none

/-- Drop one leading occurrence of a character, if the text starts with it. -/
def dropLeading (c : Char) : List Char → List Char
  | [] => []
  | d :: rest => if d = c then rest else d :: rest

def toByte? (n : Nat) : Option UInt8 := if n < UInt8.size then some (UInt8.ofNat n) else none

def digit? (c : Char) : Option UInt8 :=
  if c.isDigit then some (UInt8.ofNat (c.toNat - 48)) else none

/-- Put a digit behind a number that is kept in a byte. Neither step may leave the byte. -/
def appendDigit? (n : UInt8) (c : Char) : Option UInt8 := do
  let tens ← toByte? (n.toNat * 10)
  let d ← digit? c
  toByte? (tens.toNat + d.toNat)

/-- Read a byte: perhaps a `+`, then decimal digits, of which there is at least one. -/
def byte? (text : List Char) : Option UInt8 :=
  match dropLeading '+' text with
  | [] => none
  | digits => digits.foldlM appendDigit? 0

/-- Read a level: perhaps an `O`, then a byte. -/
def ofText? (s : String) : Option OptLevel :=
  (byte? (dropLeading 'O' s.toList)).bind fun n => ofLevel? n.toNat

def invalidMessage (s : String) : String :=
  "invalid optimization level `" ++ s ++ "` (expected 0 to 3)"

def ofText (s : String) : Except String OptLevel :=
  match ofText? s with
  | some l => .ok l
  | none => .error (invalidMessage s)

@[simp] theorem ofLevel?_level (l : OptLevel) : ofLevel? l.level = some l := by
  cases l <;> rfl

theorem level_of_ofLevel? {n : Nat} {l : OptLevel} (h : ofLevel? n = some l) : l.level = n := by
  rcases n with _ | _ | _ | _ | n <;> cases h <;> rfl

end OptLevel

end TapeLang
