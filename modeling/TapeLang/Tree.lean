import TapeLang.Call

/-!
Programs as tables of numbered nodes. The root has number 0 and a new node takes the next free
number as the last child of its parent, so a program's nodes are numbered in reading order.
-/
namespace TapeLang

/-- What a node stands for. A byte that starts no instruction has the kind `none`. -/
inductive Kind where
  | root
  | op (o : Op)
  | loop
  | none
  deriving DecidableEq, Repr, Inhabited

namespace Kind

def all : List Kind := .root :: Op.all.map op ++ [.loop, .none]

def name : Kind → String
  | root => "root"
  | op .increment => "increment"
  | op .decrement => "decrement"
  | op .moveLeft => "move-left"
  | op .moveRight => "move-right"
  | op .output => "output"
  | op .input => "input"
  | loop => "loop"
  | none => "none"

/-- The symbol with which an instruction of this kind starts. -/
def symbol? : Kind → Option Symbol
  | op o => some (.op o)
  | loop => some .opening
  | _ => .none

/-- The kind of the instruction that a byte starts. A `]` starts none. -/
def ofByte (b : UInt8) : Kind :=
  match Symbol.ofByte? b with
  | some (.op o) => op o
  | some .opening => loop
  | _ => none

def isContainer : Kind → Bool
  | root | loop => true
  | _ => false

def symbols : List (Symbol × Kind) :=
  all.filterMap fun k => k.symbol?.map fun s => (s, k)

end Kind

structure Node where
  kind : Kind
  pos : Position
  parent : Option Nat
  children : Array Nat := #[]
  deriving DecidableEq, Repr, Inhabited

/-- One step of a walk over the table. Containers are entered and exited, other nodes entered. -/
inductive Event where
  | enter (id : Nat)
  | exit (id : Nat)
  deriving DecidableEq, Repr, Inhabited

namespace Event

def entered? : Event → Option Nat
  | enter id => some id
  | exit _ => none

def describe : Event → String
  | enter id => s!"enter NodeId({id})"
  | exit id => s!"exit NodeId({id})"

end Event

structure Tree where
  nodes : Array Node
  deriving DecidableEq, Repr, Inhabited

namespace Tree

def single : Tree := ⟨#[⟨.root, .start, none, #[]⟩]⟩

def size (t : Tree) : Nat := t.nodes.size

/-- Add a node as the last child of `parent`. Its number is the old size. -/
def push (t : Tree) (parent : Nat) (kind : Kind) (pos : Position) : Tree :=
  let id := t.size
  ⟨(t.nodes.modify parent fun n => { n with children := n.children.push id }).push
    ⟨kind, pos, some parent, #[]⟩⟩

def node? (t : Tree) (id : Nat) : Option Node := t.nodes[id]?

def isContainer (t : Tree) (id : Nat) : Bool := (t.node? id).any fun n => n.kind.isContainer

def children (t : Tree) (id : Nat) : List Nat :=
  match t.node? id with
  | some n => n.children.toList
  | none => []

/-- Walk on inside the given containers, innermost first, each with the children still to visit.
`done` holds the events so far, the last first. -/
def walk (t : Tree) : Nat → List (Nat × List Nat) → List Event → List Event
  | 0, _, done => done.reverse
  | _, [], done => done.reverse
  | fuel + 1, (id, []) :: outer, done => t.walk fuel outer (.exit id :: done)
  | fuel + 1, (id, child :: rest) :: outer, done =>
    if t.isContainer child then
      t.walk fuel ((child, t.children child) :: (id, rest) :: outer) (.enter child :: done)
    else t.walk fuel ((id, rest) :: outer) (.enter child :: done)

/-- The walk over the whole table in program order. A node is entered once and exited at most
once, so twice the size bounds its length. -/
def events (t : Tree) : List Event := t.walk (2 * t.size) [(0, t.children 0)] [.enter 0]

def preorder (t : Tree) : List Nat := t.events.filterMap Event.entered?

/-- The symbol that a step of the walk stands for. The `]` of a loop has no node of its own; it
is where the loop is exited. -/
def symbol? (t : Tree) : Event → Option Symbol
  | .enter id => (t.node? id).bind fun n => n.kind.symbol?
  | .exit id => if (t.node? id).any fun n => n.kind = .loop then some .closing else none

/-- The table as a source without comments. -/
def flatten (t : Tree) : String :=
  String.ofList ((t.events.filterMap t.symbol?).map Symbol.char)

/-- A table under construction, with the numbers of the open containers, innermost first. -/
structure Builder where
  tree : Tree := single
  containers : List Nat := [0]
  deriving Inhabited

namespace Builder

def parent (b : Builder) : Nat := b.containers.headD 0

def visit (b : Builder) : Call → Builder
  | .op o pos => { b with tree := b.tree.push b.parent (.op o) pos }
  | .enterLoop pos =>
    let id := b.tree.size
    { b with tree := b.tree.push b.parent .loop pos, containers := id :: b.containers }
  | .exitLoop _ => { b with containers := b.containers.tail }
  | .finish => b

end Builder

end Tree

namespace Program

/-- The node table of a program. -/
def tree (p : Program) : Tree := (p.calls.foldl Tree.Builder.visit {}).tree

end Program

end TapeLang
