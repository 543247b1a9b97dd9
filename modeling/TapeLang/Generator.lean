import TapeLang.Assembly
import TapeLang.Call
import TapeLang.EofPolicy
import TapeLang.OptLevel
import TapeLang.Stream.Sink

/-!
Compiling programs. A generator takes the calls of a program one by one and writes lines into a
sink. Updates of one place are held back while they can still be joined with the next call. When
the sink fails the generator keeps the state in which the failure found it, and can be called
again.
-/
namespace TapeLang

open Assembly

structure Options where
  target : Target := .linux
  optLevel : OptLevel := .O2
  eof : EofPolicy := .zero
  deriving DecidableEq, Repr, Inhabited

/-- A run of updates that has not been written yet. -/
inductive Pending where
  | none
  | cell (delta : UInt8)
  | head (delta : UInt16)
  deriving DecidableEq, Repr, Inhabited

namespace Pending

/-- Two updates of one place are one update. -/
def join? : Pending → Pending → Option Pending
  | cell a, cell b => some (cell (a + b))
  | head a, head b => some (head (a + b))
  | _, _ => .none

def instr? : Pending → Option Instr
  | none => .none
  | cell delta => update? .cell delta.toNat
  | head delta => update? .head delta.toNat

end Pending

/-- Why a call failed: the sink did, or a loop was left that had not been entered. -/
inductive GeneratorError where
  | write (e : WriteError)
  | noOpenLoop
  deriving DecidableEq, Repr, Inhabited

/-- Loops that are open are listed by number, innermost first. -/
structure Generator where
  options : Options := {}
  sink : Sink := {}
  indented : Bool := false
  lines : Nat := 0
  pending : Pending := .none
  loops : List Nat := []
  nextLoop : Nat := 0
  nextInput : Nat := 0
  deriving Inhabited

/-- An action of a generator, which may fail and then keeps the state it has reached. -/
abbrev Emit := EStateM GeneratorError Generator

namespace Generator

def write (text : String) : Emit Unit := fun g =>
  let ⟨options, sink, indented, lines, pending, loops, nextLoop, nextInput⟩ := g
  match sink.writeText text with
  | (.ok (), sink) =>
    .ok () ⟨options, sink, indented, lines, pending, loops, nextLoop, nextInput⟩
  | (.error e, sink) =>
    .error (.write e) ⟨options, sink, indented, lines, pending, loops, nextLoop, nextInput⟩

/-- Write a line. It counts as written also if the sink fails on it. -/
def emit (line : Line) : Emit Unit := do
  let g ← get
  let text := line.render g.options.target g.indented
  modify fun g => { g with lines := g.lines + 1 }
  write text

def emitAll (instrs : List Instr) : Emit Unit := instrs.forM fun i => emit (.instr i)

def setPending (p : Pending) : Emit Unit := modify fun g => { g with pending := p }

/-- Write out the updates held back. They are given up even if the sink fails on them. -/
def flush : Emit Unit := do
  let pending := (← get).pending
  setPending .none
  match pending.instr? with
  | some i => emit (.instr i)
  | none => pure ()

/-- Take in an update. Without folding it is written at once. -/
def bump (update : Pending) : Emit Unit := do
  match (← get).pending.join? update with
  | some joined => setPending joined
  | none =>
    flush
    setPending update
  if (← get).options.optLevel.folds then pure () else flush

def output : Emit Unit := emitAll [.loadArgument, .call .putchar]

/-- The input routine answers -1 at the end of the input, whose low byte is 255. -/
def input : Emit Unit := do
  emit (.instr (.call .getchar))
  let id := (← get).nextInput
  modify fun g => { g with nextInput := id + 1 }
  match (← get).options.eof with
  | .max => emit (.instr .storeResult)
  | .zero =>
    emitAll [.testEof, .jumpIfNotEqual (.input id), .clearResult]
    emit (.label (.input id))
    emit (.instr .storeResult)
  | .unchanged =>
    emitAll [.testEof, .jumpIfEqual (.input id), .storeResult]
    emit (.label (.input id))

def enterLoop (pos : Position) : Emit Unit := do
  let id := (← get).nextLoop
  modify fun g => { g with nextLoop := id + 1, loops := id :: g.loops }
  emit (.label (.loopStart id))
  emit (.loopComment pos)
  emitAll [.testCell, .jumpIfEqual (.loopEnd id)]

def exitLoop : Emit Unit := do
  match (← get).loops with
  | [] => throw .noOpenLoop
  | id :: outer =>
    modify fun g => { g with loops := outer }
    emit (.instr (.jump (.loopStart id)))
    emit (.label (.loopEnd id))

/-- Take in one call. All but updates write out first what is held back. -/
def call : Call → Emit Unit
  | .op .increment _ => bump (.cell 1)
  | .op .decrement _ => bump (.cell 255)
  | .op .moveLeft _ => bump (.head 65535)
  | .op .moveRight _ => bump (.head 1)
  | .op .output _ => do flush; output
  | .op .input _ => do flush; input
  | .enterLoop pos => do flush; enterLoop pos
  | .exitLoop _ => do flush; exitLoop
  | .finish => do flush; emitAll closing

def indentedBlock (body : Emit Unit) : Emit Unit := fun g =>
  match body { g with indented := true } with
  | .ok () g => emit .blank { g with indented := false }
  | .error e g => .error e { g with indented := false }

/-- The lines that open the file are written in one piece and counted once they are. -/
def filePrologue : Emit Unit := do
  let target := (← get).options.target
  write (String.join (target.prologue.map fun line => line ++ "\n"))
  modify fun g => { g with lines := g.lines + target.prologue.length }

def flushSink : Emit Unit := fun g =>
  match g.sink.flush with
  | (.ok (), sink) => .ok () { g with sink }
  | (.error e, sink) => .error (.write e) { g with sink }

/-- Write a whole program, and answer how many lines have been counted. -/
def generate (p : Program) : Emit Nat := do
  filePrologue
  emit .textSection
  emit .exportEntry
  emit .entry
  indentedBlock do
    emitAll opening
    translate call p
  emit .tapeDeclaration
  flushSink
  return (← get).lines

end Generator

namespace Program

def compile (options : Options) (sink : Sink) (p : Program) :
    EStateM.Result GeneratorError Generator Nat :=
  Generator.generate p { options, sink }

end Program

end TapeLang
