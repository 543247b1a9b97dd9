import TapeLang.Machine
import TapeLang.Tree

/-!
Running a program from its node table. The containers being executed are kept as numbers, each
with the index of the child it comes to next, so nothing of the program is copied. A table may
hold nodes that are no instructions; a run that comes to one of these cannot go on.
-/
namespace TapeLang

namespace Tree

/-- A container being executed, and how many of its children have been reached. -/
structure Frame where
  node : Nat
  next : Nat := 0
  deriving DecidableEq, Repr, Inhabited

/-- A run over a table: the containers it is inside of, innermost first. -/
structure Traversal where
  frames : List Frame := [⟨0, 0⟩]
  machine : Machine
  steps : Nat := 0
  deriving Inhabited

inductive Progress where
  | running (r : Traversal)
  | finished (m : Machine) (steps : Nat)
  | failed (e : RuntimeError) (m : Machine)
  | misplaced (m : Machine)
  deriving Inhabited

namespace Progress

def machine : Progress → Machine
  | running r => r.machine
  | finished m _ => m
  | failed _ m => m
  | misplaced m => m

end Progress

namespace Traversal

/-- Come to a child of the innermost container, which the frames already count as reached. -/
def reach (t : Tree) (child : Nat) (r : Traversal) : Progress :=
  let ⟨frames, m, steps⟩ := r
  match (t.node? child).map Node.kind with
  | some (.op o) =>
    match m.perform o with
    | .ok () m => .running ⟨frames, m, steps + 1⟩
    | .error e m => .failed e m
  | some .loop =>
    if m.tape.current = 0 then .running ⟨frames, m, steps + 1⟩
    else .running ⟨⟨child, 0⟩ :: frames, m, steps + 1⟩
  | _ => .misplaced m

/-- Leave the innermost container. The output is flushed when it was the last. -/
def leave (outer : List Frame) (m : Machine) (steps : Nat) : Progress :=
  match outer with
  | [] =>
    match m.sink.flush with
    | (.ok (), sink) => .finished { m with sink } steps
    | (.error e, sink) => .failed (.write e) { m with sink }
  | _ :: _ => .running ⟨outer, m, steps⟩

/-- Go on with the next child of the innermost container. A loop whose children are done starts
over while the current cell is not zero. -/
def step (t : Tree) (r : Traversal) : Progress :=
  let ⟨frames, m, steps⟩ := r
  match frames with
  | [] => .misplaced m
  | ⟨id, next⟩ :: outer =>
    match t.node? id with
    | none => .misplaced m
    | some n =>
      match n.children[next]? with
      | some child => reach t child ⟨⟨id, next + 1⟩ :: outer, m, steps⟩
      | none =>
        if n.kind = .loop ∧ m.tape.current ≠ 0 then .running ⟨⟨id, 0⟩ :: outer, m, steps⟩
        else leave outer m steps

def proceed (t : Tree) (r : Traversal) : Nat → Progress
  | 0 => .running r
  | fuel + 1 =>
    match r.step t with
    | .running r => r.proceed t fuel
    | progress => progress

end Traversal

def run (fuel : Nat) (t : Tree) (m : Machine) : Progress :=
  Traversal.proceed t { machine := m } fuel

end Tree

end TapeLang
