/-!
Places in a source. Lines and columns count from one and fit 32 bits, offsets count from zero and
fit 64 bits; stepping past these limits is refused rather than wrapped.
-/
namespace TapeLang

structure Position where
  line : Nat
  column : Nat
  offset : Nat
  deriving DecidableEq, Repr, Inhabited

namespace Position

def start : Position := ⟨1, 1, 0⟩

/-- The place after one more byte. A newline byte ends its line. -/
def next (p : Position) (b : UInt8) : Position :=
  if b = 10 then ⟨p.line + 1, 1, p.offset + 1⟩ else ⟨p.line, p.column + 1, p.offset + 1⟩

def Fits (p : Position) : Prop :=
  p.line < UInt32.size ∧ p.column < UInt32.size ∧ p.offset < UInt64.size

instance (p : Position) : Decidable p.Fits := inferInstanceAs (Decidable (_ ∧ _ ∧ _))

def advance? (p : Position) (b : UInt8) : Option Position :=
  if (p.next b).Fits then some (p.next b) else none

/-- The place reached from `p` over the given bytes, limits apart. -/
def after (p : Position) (bytes : List UInt8) : Position := bytes.foldl next p

/-- The places passed from `p` over the given bytes, each before its byte and the last one after
all; `none` once a limit is passed. -/
def trailFrom (passed : List Position) (p : Position) : List UInt8 → Option (List Position)
  | [] => some (p :: passed).reverse
  | b :: rest =>
    match p.advance? b with
    | some q => trailFrom (p :: passed) q rest
    | none => none

def trail? (p : Position) (bytes : List UInt8) : Option (List Position) := trailFrom [] p bytes

/-- Line and column, as messages give them. -/
def display (p : Position) : String := s!"{p.line}:{p.column}"

def describe (p : Position) : String := s!"Position({p.display}, offset: {p.offset})"

@[simp] theorem next_offset (p : Position) (b : UInt8) : (p.next b).offset = p.offset + 1 := by
  unfold next
  split <;> rfl

theorem advance?_eq_some {p q : Position} {b : UInt8} :
    p.advance? b = some q ↔ (p.next b).Fits ∧ q = p.next b := by
  unfold advance?
  split
  · next h => simp [h, eq_comm]
  · next h => simp [h]

@[simp] theorem after_nil (p : Position) : p.after [] = p := rfl

@[simp] theorem after_cons (p : Position) (b : UInt8) (bytes : List UInt8) :
    p.after (b :: bytes) = (p.next b).after bytes := rfl

theorem after_append (p : Position) (l r : List UInt8) : p.after (l ++ r) = (p.after l).after r :=
  List.foldl_append

theorem after_offset (p : Position) (bytes : List UInt8) :
    (p.after bytes).offset = p.offset + bytes.length := by
  induction bytes generalizing p with
  | nil => rfl
  | cons b rest ih => simp only [after_cons, ih, next_offset, List.length_cons]; omega

end Position

/-- A value together with the place it comes from. -/
structure Located (α : Type) where
  pos : Position
  value : α
  deriving DecidableEq, Repr, Inhabited

namespace Located

def display {α : Type} (text : α → String) (x : Located α) : String :=
  s!"{x.pos.display}: " ++ text x.value

def describe {α : Type} (text : α → String) (x : Located α) : String :=
  "Spanned \x7b pos: " ++ x.pos.describe ++ ", inner: " ++ text x.value ++ " \x7d"

end Located

end TapeLang
