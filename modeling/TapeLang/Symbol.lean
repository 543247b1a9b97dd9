/-!
The alphabet of the language. Six symbols are instructions of their own and two brackets delimit
a loop; every other byte of a source is a comment.
-/
namespace TapeLang

/-- The instructions that are a single symbol. -/
inductive Op where
  | increment
  | decrement
  | moveLeft
  | moveRight
  | output
  | input
  deriving DecidableEq, Repr, Inhabited

namespace Op

def all : List Op := [.increment, .decrement, .moveLeft, .moveRight, .output, .input]

def char : Op → Char
  | increment => '+'
  | decrement => '-'
  | moveLeft => '<'
  | moveRight => '>'
  | output => '.'
  | input => ','

theorem mem_all (o : Op) : o ∈ all := by cases o <;> decide

end Op

inductive Symbol where
  | op (o : Op)
  | opening
  | closing
  deriving DecidableEq, Repr, Inhabited

namespace Symbol

def char : Symbol → Char
  | op o => o.char
  | opening => '['
  | closing => ']'

def byte (s : Symbol) : UInt8 := s.char.toNat.toUInt8

def all : List Symbol := Op.all.map op ++ [opening, closing]

theorem mem_all (s : Symbol) : s ∈ all := by
  cases s with
  | op o => cases o <;> decide
  | opening => decide
  | closing => decide

/-- The symbol that a byte spells, if it is no comment. -/
def ofByte? (b : UInt8) : Option Symbol := all.find? fun s => s.byte = b

@[simp] theorem ofByte?_byte (s : Symbol) : ofByte? s.byte = some s := by
  cases s with
  | op o => cases o <;> rfl
  | opening => rfl
  | closing => rfl

theorem byte_of_ofByte? {b : UInt8} {s : Symbol} (h : ofByte? b = some s) : s.byte = b := by
  have := List.find?_some h
  simpa using this

theorem ofByte?_eq_some {b : UInt8} {s : Symbol} : ofByte? b = some s ↔ b = s.byte :=
  ⟨fun h => (byte_of_ofByte? h).symm, fun h => h ▸ ofByte?_byte s⟩

theorem byte_injective {s t : Symbol} (h : s.byte = t.byte) : s = t := by
  have := congrArg ofByte? h
  simpa using this

end Symbol

/-- A program text: any bytes at all. -/
abbrev Source := List UInt8

namespace Source

def symbols (src : Source) : List Symbol := src.filterMap Symbol.ofByte?

end Source

end TapeLang
