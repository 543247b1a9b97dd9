import TapeLang.Symbol
import TapeLang.Position

/-!
Reading a source. One pass from left to right gives every symbol its place and checks that the
brackets balance, so what follows works on token lists that are known to be well nested.
-/
namespace TapeLang

inductive BracketError where
  | unmatchedOpening
  | unmatchedClosing
  deriving DecidableEq, Repr, Inhabited

namespace BracketError

def message : BracketError → String
  | unmatchedOpening => "'[' is missing its closing ']'"
  | unmatchedClosing => "']' is missing its opening '['"

def name : BracketError → String
  | unmatchedOpening => "UnmatchedOpening"
  | unmatchedClosing => "UnmatchedClosing"

end BracketError

/-- Why a source is refused: a bracket without its partner, or more text than positions can count. -/
inductive SourceError where
  | bracket (cause : Located BracketError)
  | positionLimit
  deriving DecidableEq, Repr, Inhabited

abbrev Token := Located Symbol

/-- A scan under way. The brackets still open are listed innermost first, the tokens last first. -/
structure Scan where
  pos : Position := .start
  unclosed : List Position := []
  tokens : List Token := []
  deriving Inhabited

namespace Scan

/-- Take in one symbol. A `]` with nothing open ends the scan at once. -/
def read (s : Scan) (sym : Symbol) : Except SourceError Scan :=
  let tokens := ⟨s.pos, sym⟩ :: s.tokens
  match sym with
  | .op _ => .ok { s with tokens }
  | .opening => .ok { s with tokens, unclosed := s.pos :: s.unclosed }
  | .closing =>
    match s.unclosed with
    | [] => .error (.bracket ⟨s.pos, .unmatchedClosing⟩)
    | _ :: outer => .ok { s with tokens, unclosed := outer }

def advance (s : Scan) (b : UInt8) : Except SourceError Scan :=
  match s.pos.advance? b with
  | some pos => .ok { s with pos }
  | none => .error .positionLimit

def step (s : Scan) (b : UInt8) : Except SourceError Scan :=
  match Symbol.ofByte? b with
  | none => s.advance b
  | some sym =>
    match s.read sym with
    | .ok s => s.advance b
    | .error e => .error e

/-- At the end of the text the outermost bracket still open is the one to blame. -/
def finish (s : Scan) : Except SourceError (List Token) :=
  match s.unclosed.getLast? with
  | some pos => .error (.bracket ⟨pos, .unmatchedOpening⟩)
  | none => .ok s.tokens.reverse

def run (s : Scan) : Source → Except SourceError Scan
  | [] => .ok s
  | b :: rest =>
    match s.step b with
    | .ok s => s.run rest
    | .error e => .error e

end Scan

namespace Source

def tokens (src : Source) : Except SourceError (List Token) :=
  match Scan.run {} src with
  | .ok s => s.finish
  | .error e => .error e

def validate (src : Source) : Except SourceError Unit :=
  src.tokens.map fun _ => ()

end Source

end TapeLang
