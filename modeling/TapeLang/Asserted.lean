import TapeLang.Bracket
import TapeLang.Generator
import TapeLang.Traversal

/-!
The passes over sources and node tables with nothing taken for granted. Every look-up, every count
that has to fit a machine word and every fact that a pass relies on is checked when it is needed,
and a check that fails ends the pass. So what these passes answer shows whether the facts hold.
-/
namespace TapeLang

inductive Assertion where
  /-- The place after a byte is within its limits. -/
  | placeFits
  /-- A count fits 64 bits. -/
  | countFits
  /-- A number given to a node fits 32 bits. -/
  | numberFits
  /-- A slot to be filled has been opened. -/
  | slotOpened
  /-- The `]` of a `[` has been found before its loop is built. -/
  | partnerFound
  /-- Every `]` ends the innermost loop. -/
  | closesLoop
  /-- No loop is left open at the end. -/
  | loopsClosed
  /-- Nodes are added below containers. -/
  | belowContainer
  /-- Nodes that are added are instructions. -/
  | addsInstruction
  /-- A node that is looked up is in the table. -/
  | nodeExists
  /-- Only the node with the number 0 is a root. -/
  | rootFirst
  /-- A node that is entered has a meaning. -/
  | kindKnown
  /-- Only containers are exited. -/
  | exitsContainer
  /-- No more loops are exited than entered. -/
  | depthPositive
  /-- A walk comes to its end. -/
  | walkEnds
  /-- A loop that is left has been entered. -/
  | loopEntered
  /-- A sink without limit accepts what is written. -/
  | writeAccepted
  /-- What has been written is text. -/
  | textReadable
  deriving DecidableEq, Repr, Inhabited

/-- Why a pass stops: the source is at fault, or the pass itself is. -/
inductive Stop where
  | bracket (cause : Located BracketError)
  | assertion (a : Assertion)
  deriving DecidableEq, Repr, Inhabited

def Stop.ofSource : SourceError → Stop
  | .bracket cause => .bracket cause
  | .positionLimit => .assertion .placeFits

namespace Asserted

def require (p : Prop) [Decidable p] (a : Assertion) : Except Stop Unit :=
  if p then .ok () else .error (.assertion a)

def found {α : Type} (x : Option α) (a : Assertion) : Except Stop α :=
  match x with
  | some value => .ok value
  | none => .error (.assertion a)

def count (n : Nat) : Except Stop Nat := do
  require (n + 1 < UInt64.size) .countFits
  return n + 1

def advance (pos : Position) (b : UInt8) : Except Stop Position :=
  found (pos.advance? b) .placeFits

theorem ok_bind {α β : Type} (a : α) (f : α → Except Stop β) : (Except.ok a >>= f) = f a := rfl

theorem require_of {p : Prop} [Decidable p] (h : p) (a : Assertion) : require p a = .ok () :=
  if_pos h

theorem count_of {n : Nat} (h : n + 1 < UInt64.size) : count n = .ok (n + 1) := by
  rw [count, require_of h]
  rfl

/-- Brackets being paired from left to right. Those still open are listed innermost first, each
with its slot and its place. -/
structure Brackets where
  pos : Position := .start
  closes : Array Nat := #[]
  unclosed : List (Nat × Position) := []
  deriving DecidableEq, Repr, Inhabited

namespace Brackets

def read (s : Brackets) (b : UInt8) : Except Stop Brackets :=
  match Symbol.ofByte? b with
  | some .opening =>
    return { s with
      closes := s.closes.push Pairing.unfilled
      unclosed := (s.closes.size, s.pos) :: s.unclosed }
  | some .closing =>
    match s.unclosed with
    | [] => throw (.bracket ⟨s.pos, .unmatchedClosing⟩)
    | (slot, _) :: outer => do
      require (slot < s.closes.size) .slotOpened
      return { s with closes := s.closes.setIfInBounds slot s.pos.offset, unclosed := outer }
  | _ => return s

def step (s : Brackets) (b : UInt8) : Except Stop Brackets := do
  let s ← s.read b
  let pos ← advance s.pos b
  return { s with pos }

def finish (s : Brackets) : Except Stop (Array Nat) :=
  match s.unclosed.getLast? with
  | some (_, pos) => throw (.bracket ⟨pos, .unmatchedOpening⟩)
  | none => return s.closes

end Brackets

/-- For each `[` of a balanced source, in order, the offset of the `]` that closes it. -/
def closings (src : Source) : Except Stop (Array Nat) := do
  (← src.foldlM Brackets.step {}).finish

def validate (src : Source) : Except Stop Unit := do
  let _ ← closings src

def node (t : Tree) (id : Nat) : Except Stop Node := found (t.node? id) .nodeExists

def push (t : Tree) (parent : Nat) (kind : Kind) (pos : Position) : Except Stop (Nat × Tree) := do
  require ((← node t parent).kind.isContainer = true) .belowContainer
  require (kind ≠ .root ∧ kind ≠ .none) .addsInstruction
  require (t.size < UInt32.size) .numberFits
  return (t.size, t.push parent kind pos)

/-- A loop whose body is being read: its node, and the offset at which it ends. -/
structure Body where
  node : Nat
  close : Nat
  deriving DecidableEq, Repr, Inhabited

/-- A table under construction, with the loops that are open, innermost first. -/
structure Construction where
  pos : Position := .start
  tree : Tree := .single
  bodies : List Body := []
  nextLoop : Nat := 0
  deriving DecidableEq, Repr, Inhabited

namespace Construction

def parent (c : Construction) : Nat := (c.bodies.map Body.node).headD 0

/-- Take in a byte that does not end the innermost loop. -/
def add (closes : Array Nat) (c : Construction) (b : UInt8) : Except Stop Construction :=
  match Kind.ofByte b with
  | .loop => do
    let close ← found closes[c.nextLoop]? .partnerFound
    let nextLoop ← count c.nextLoop
    let (node, tree) ← push c.tree c.parent .loop c.pos
    return { c with tree, nextLoop, bodies := ⟨node, close⟩ :: c.bodies }
  | .none => do
    require (b ≠ Symbol.closing.byte) .closesLoop
    return c
  | kind => do
    let (_, tree) ← push c.tree c.parent kind c.pos
    return { c with tree }

/-- Where the innermost loop ends is known from the pairing, so the byte there is not looked at. -/
def read (closes : Array Nat) (c : Construction) (b : UInt8) : Except Stop Construction :=
  if c.bodies.head?.any fun body => body.close = c.pos.offset then
    return { c with bodies := c.bodies.tail }
  else c.add closes b

def step (closes : Array Nat) (c : Construction) (b : UInt8) : Except Stop Construction := do
  let c ← c.read closes b
  let pos ← advance c.pos b
  return { c with pos }

end Construction

def construct (closes : Array Nat) (src : Source) : Except Stop Tree := do
  let c ← src.foldlM (Construction.step closes) {}
  require (c.bodies = []) .loopsClosed
  return c.tree

/-- A walk over a table, given by the containers it is inside of, innermost first. -/
structure Walker where
  frames : List Tree.Frame := []
  started : Bool := false
  deriving DecidableEq, Repr, Inhabited

namespace Walker

def next (t : Tree) (w : Walker) : Except Stop (Option (Event × Walker)) :=
  if w.started then
    match w.frames with
    | [] => return none
    | ⟨id, k⟩ :: outer => do
      match (← node t id).children[k]? with
      | some child =>
        let frames := ⟨id, ← count k⟩ :: outer
        if (← node t child).kind.isContainer then
          return some (.enter child, ⟨⟨child, 0⟩ :: frames, true⟩)
        else return some (.enter child, ⟨frames, true⟩)
      | none => return some (.exit id, ⟨outer, true⟩)
  else return some (.enter 0, ⟨[⟨0, 0⟩], true⟩)

/-- Walk to the end. `done` holds the events so far, the last first. -/
def run (t : Tree) : Nat → Walker → List Event → Except Stop (List Event)
  | 0, _, _ => throw (.assertion .walkEnds)
  | fuel + 1, w, done => do
    match ← w.next t with
    | some (e, w) => run t fuel w (e :: done)
    | none => return done.reverse

end Walker

/-- The walk over a whole table. It has at most two steps for each node and one that ends it. -/
def events (t : Tree) : Except Stop (List Event) := Walker.run t (2 * t.size + 1) {} []

def preorder (t : Tree) : Except Stop (List Nat) := do
  return (← events t).filterMap Event.entered?

def symbol? (t : Tree) : Event → Except Stop (Option Symbol)
  | .enter id => do return (← node t id).kind.symbol?
  | .exit id => do return if (← node t id).kind = .loop then some .closing else none

def flatten (t : Tree) : Except Stop String := do
  return String.ofList ((← (← events t).filterMapM (symbol? t)).map Symbol.char)

def nest (t : Tree) (n : Program.Nesting) : Event → Except Stop Program.Nesting
  | .enter id => do
    if (← node t id).kind = .loop then
      let depth ← count n.depth
      return ⟨depth, max n.deepest depth⟩
    else return n
  | .exit id => do
    if (← node t id).kind = .loop then
      require (0 < n.depth) .depthPositive
      return { n with depth := n.depth - 1 }
    else return n

def depth (t : Tree) : Except Stop Nat := do
  return (← (← events t).foldlM (nest t) {}).deepest

/-- The table of a source. Its depth is found as well, to be recorded with it. -/
def build (src : Source) : Except Stop Tree := do
  let t ← construct (← closings src) src
  let _ ← depth t
  return t

def call? (t : Tree) : Event → Except Stop (Option Call)
  | .enter id => do
    let n ← node t id
    match n.kind with
    | .root =>
      require (id = 0) .rootFirst
      return none
    | .op o => return some (.op o n.pos)
    | .loop => return some (.enterLoop n.pos)
    | .none => throw (.assertion .kindKnown)
  | .exit id => do
    let n ← node t id
    match n.kind with
    | .loop => return some (.exitLoop n.pos)
    | .root => return some .finish
    | _ => throw (.assertion .exitsContainer)

def calls (t : Tree) : Except Stop (List Call) := do
  (← events t).filterMapM (call? t)

/-- Hand the calls of a table to a back end. All of them are found before the first is made, since
a back end that fails only leaves some of them out. -/
def translate {m : Type → Type} [Monad m] (backEnd : Call → m Unit) (t : Tree) :
    Except Stop (m Unit) := do
  return (← calls t).forM backEnd

def generate (t : Tree) : Except Stop (Emit Nat) := do
  let code ← translate Generator.call t
  return do
    Generator.filePrologue
    Generator.emit .textSection
    Generator.emit .exportEntry
    Generator.emit .entry
    Generator.indentedBlock do
      Generator.emitAll Assembly.opening
      code
    Generator.emit .tapeDeclaration
    Generator.flushSink
    return (← get).lines

def assembly (options : Options) (t : Tree) : Except Stop String := do
  match (← generate t) { options } with
  | .ok _ g => found (String.fromUTF8? ⟨g.sink.accepted⟩) .textReadable
  | .error .noOpenLoop _ => throw (.assertion .loopEntered)
  | .error (.write _) _ => throw (.assertion .writeAccepted)

end Asserted

end TapeLang
