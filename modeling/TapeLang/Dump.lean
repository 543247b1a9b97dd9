import TapeLang.Tree
import TapeLang.Stream.Sink

/-!
Programs as indented text: a line for each node with its kind and place, two spaces further in for
each container around it. The lines are made on a walk over the node table, which counts the
containers that it is inside of.
-/
namespace TapeLang

namespace Tree

/-- A dump under way: the containers entered less those exited, and the lines so far, the last
first. -/
structure Dump where
  depth : Int := 0
  lines : List String := []
  deriving DecidableEq, Repr, Inhabited

namespace Dump

def line (depth : Nat) (kind : Kind) (pos : Position) : String :=
  String.ofList (List.replicate (2 * depth) ' ') ++ kind.name ++ s!" ({pos.display})\n"

/-- Take in one step of the walk. What a container encloses is set further in. -/
def visit (t : Tree) (d : Dump) : Event → Dump
  | .enter id =>
    match t.node? id with
    | some n =>
      ⟨if n.kind.isContainer then d.depth + 1 else d.depth,
        line d.depth.toNat n.kind n.pos :: d.lines⟩
    | none => d
  | .exit _ => { d with depth := d.depth - 1 }

end Dump

def dumpLines (t : Tree) : List String := (t.events.foldl (Dump.visit t) {}).lines.reverse

end Tree

namespace Program

def dumpLines (p : Program) : List String := p.tree.dumpLines

def dump (p : Program) : String := String.join p.dumpLines

/-- Write the dump into a sink, which is not flushed. -/
def writeDump (sink : Sink) (p : Program) : Except WriteError Unit × Sink :=
  sink.writeTexts p.dumpLines

end Program

end TapeLang
