import TapeLang.Program
import TapeLang.Tape
import TapeLang.EofPolicy
import TapeLang.Stream.Feed
import TapeLang.Stream.Sink

/-!
Running programs. A machine is a tape between an input and an output. It works through a program
one instruction at a time; the loops it is inside of are kept on a stack, so that a run can be
stopped after any number of steps and taken up again.
-/
namespace TapeLang

inductive RuntimeError where
  | read (message : String)
  | write (e : WriteError)
  deriving DecidableEq, Repr, Inhabited

namespace RuntimeError

def cause : RuntimeError → String
  | read message => message
  | write e => e.message

def message : RuntimeError → String
  | read message => "could not read input: " ++ message
  | write e => "could not write output: " ++ e.message

end RuntimeError

structure Machine where
  tape : Tape := .blank
  feed : Feed := []
  sink : Sink := {}
  eof : EofPolicy := .zero
  deriving Inhabited

namespace Machine

/-- Carry out one simple instruction. When a read or a write fails the tape is left as it was. -/
def perform (o : Op) (m : Machine) : EStateM.Result RuntimeError Machine Unit :=
  let ⟨tape, feed, sink, eof⟩ := m
  match o with
  | .increment => .ok () ⟨tape.increment, feed, sink, eof⟩
  | .decrement => .ok () ⟨tape.decrement, feed, sink, eof⟩
  | .moveLeft => .ok () ⟨tape.moveLeft, feed, sink, eof⟩
  | .moveRight => .ok () ⟨tape.moveRight, feed, sink, eof⟩
  | .output =>
    match sink.writeAll [tape.current] with
    | (.ok (), sink) => .ok () ⟨tape, feed, sink, eof⟩
    | (.error e, sink) => .error (.write e) ⟨tape, feed, sink, eof⟩
  | .input =>
    match feed.read with
    | (.byte b, feed) => .ok () ⟨tape.setCurrent b, feed, sink, eof⟩
    | (.endOfInput, feed) => .ok () ⟨tape.setCurrent (eof.onEof tape.current), feed, sink, eof⟩
    | (.failure message, feed) => .error (.read message) ⟨tape, feed, sink, eof⟩

end Machine

/-- A loop that is being executed: its body, and what comes after it. -/
structure OpenLoop where
  body : Program
  rest : Program
  deriving DecidableEq, Repr, Inhabited

/-- A run under way: the code still to do at this level, the loops around it innermost first, and
how many instructions have been reached. A loop is reached once, however often it repeats. -/
structure Run where
  code : Program
  loops : List OpenLoop := []
  machine : Machine
  steps : Nat := 0
  deriving Inhabited

inductive Outcome where
  | running (r : Run)
  | finished (m : Machine) (steps : Nat)
  | failed (e : RuntimeError) (m : Machine)
  deriving Inhabited

namespace Outcome

def machine : Outcome → Machine
  | running r => r.machine
  | finished m _ => m
  | failed _ m => m

end Outcome

namespace Run

/-- At the end of a loop's body its test decides between the body and what follows. A finished
program flushes its output. -/
def step (r : Run) : Outcome :=
  let ⟨code, loops, m, steps⟩ := r
  match code with
  | .op o _ rest =>
    match m.perform o with
    | .ok () m => .running ⟨rest, loops, m, steps + 1⟩
    | .error e m => .failed e m
  | .loop _ body rest =>
    if m.tape.current = 0 then .running ⟨rest, loops, m, steps + 1⟩
    else .running ⟨body, ⟨body, rest⟩ :: loops, m, steps + 1⟩
  | .nil =>
    match loops with
    | [] =>
      match m.sink.flush with
      | (.ok (), sink) => .finished { m with sink } steps
      | (.error e, sink) => .failed (.write e) { m with sink }
    | l :: outer =>
      if m.tape.current = 0 then .running ⟨l.rest, outer, m, steps⟩
      else .running ⟨l.body, l :: outer, m, steps⟩

/-- Go on for at most the given number of moves. -/
def proceed (r : Run) : Nat → Outcome
  | 0 => .running r
  | fuel + 1 =>
    match r.step with
    | .running r => r.proceed fuel
    | outcome => outcome

end Run

namespace Machine

/-- Run a program for at most the given number of moves. -/
def run (fuel : Nat) (p : Program) (m : Machine) : Outcome :=
  Run.proceed { code := p, machine := m } fuel

end Machine

namespace Program

/-- What a program writes, run on a blank tape over the given bytes; `none` if it is still running
after the given number of moves. -/
def output? (fuel : Nat) (p : Program) (input : List UInt8) (eof : EofPolicy) :
    Option (Except RuntimeError (Array UInt8)) :=
  match Machine.run fuel p { feed := .ofBytes input, eof } with
  | .running _ => none
  | .finished m _ => some (.ok m.sink.accepted)
  | .failed e _ => some (.error e)

end Program

end TapeLang
