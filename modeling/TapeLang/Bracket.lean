import TapeLang.Token

/-!
Which `]` closes which `[`. The first rule looks to the right of one bracket and counts nesting.
The second reads a whole source once and answers for all its brackets, with a stack of those that
still wait for their partner.
-/
namespace TapeLang

namespace Source

/-- The offset of the `]` that closes an already open bracket, where `depth` further brackets have
been opened since and the text starts at `offset`. -/
def closeFrom (depth offset : Nat) : Source → Option Nat
  | [] => none
  | b :: rest =>
    match Symbol.ofByte? b with
    | some .opening => closeFrom (depth + 1) (offset + 1) rest
    | some .closing =>
      if depth = 0 then some offset else closeFrom (depth - 1) (offset + 1) rest
    | _ => closeFrom depth (offset + 1) rest

/-- The offset of the `]` that closes the `[` at the given offset, if there is one. -/
def matchingClose (src : Source) (opening : Nat) : Option Nat :=
  closeFrom 0 (opening + 1) (src.drop (opening + 1))

/-- The same, refusing an offset at which no `[` stands. -/
def matchingClose? (src : Source) (opening : Nat) : Option (Option Nat) :=
  if src[opening]? = some Symbol.opening.byte then some (src.matchingClose opening) else none

end Source

/-- Brackets being paired from left to right. Each `[` gets a slot when it is met, and the slot is
filled when its partner is met. The slots still to be filled are listed innermost first. -/
structure Pairing where
  closes : Array Nat := #[]
  waiting : List Nat := []
  deriving DecidableEq, Repr, Inhabited

namespace Pairing

/-- What a slot holds until it is filled: the largest offset that fits 64 bits. -/
def unfilled : Nat := UInt64.size - 1

def read (p : Pairing) (t : Token) : Pairing :=
  match t.value with
  | .op _ => p
  | .opening => ⟨p.closes.push unfilled, p.closes.size :: p.waiting⟩
  | .closing =>
    match p.waiting with
    | [] => p
    | slot :: waiting => ⟨p.closes.setIfInBounds slot t.pos.offset, waiting⟩

def ofTokens (ts : List Token) : Pairing := ts.foldl read {}

end Pairing

namespace Source

/-- For each `[` of a balanced source, in order, the offset of the `]` that closes it. -/
def closings (src : Source) : Except SourceError (Array Nat) :=
  src.tokens.map fun ts => (Pairing.ofTokens ts).closes

end Source

end TapeLang
