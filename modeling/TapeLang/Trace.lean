import TapeLang.Error
import TapeLang.Generator
import TapeLang.Tree

/-!
What building, running and compiling a program report while they work. A stage opens with its
settings and, once it is done, tells what it found. All values are given as text.
-/
namespace TapeLang

inductive Record where
  | stage (name : String) (settings : List (String × String))
  | note (message : String) (findings : List (String × String))
  deriving DecidableEq, Repr, Inhabited

/-- The records so far, and the report of the error that ended the work, if one did. -/
structure Trace where
  records : List Record
  failure : Option Diagnostic := none
  deriving DecidableEq, Repr, Inhabited

namespace Trace

def buildStage (src : Source) : Record :=
  .stage "build" [("source_len", toString src.length)]

def buildNote (p : Program) : Record :=
  .note "built program tree" [("nodes", toString p.tree.size), ("depth", toString p.depth)]

def runStage (p : Program) : Record := .stage "run" [("nodes", toString p.tree.size)]

/-- A run that failed, or is not over, has nothing to note. -/
def runNotes : Outcome → List Record
  | .finished m steps =>
    [.note "program finished" [("steps", toString steps), ("head", toString m.tape.head.toNat)]]
  | _ => []

def generateStage (o : Options) : Record :=
  .stage "generate"
    [("target", o.target.name), ("opt_level", o.optLevel.name), ("eof", o.eof.name)]

def generateNotes : EStateM.Result GeneratorError Generator Nat → List Record
  | .ok lines _ => [.note "generated assembly" [("lines", toString lines)]]
  | .error _ _ => []

/-- Build a source, run it over the given input and compile it, with room for `fuel` moves. -/
def ofSource (fuel : Nat) (src : Source) (input : List UInt8) (o : Options) : Trace :=
  match src.program with
  | .error e => ⟨[buildStage src], some (.ofError (.ofSource e))⟩
  | .ok p =>
    let outcome := Machine.run fuel p { feed := .ofBytes input, eof := o.eof }
    { records := [buildStage src, buildNote p, runStage p] ++ runNotes outcome ++
        [generateStage o] ++ generateNotes (p.compile o {}) }

end Trace

end TapeLang
