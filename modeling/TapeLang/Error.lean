import TapeLang.Machine
import TapeLang.ExitStatus

/-!
Everything that can stop a compilation or a run, and how it is reported. Each cause is a value;
its wording is in one function.
-/
namespace TapeLang

inductive Error where
  | missingInput
  | invalidInput (path reason : String)
  | read (path cause : String)
  | bracket (cause : Located BracketError)
  | positionLimit
  | runtime (e : RuntimeError)
  | output (path cause : String)
  | missingTarget
  | assembler (cause : String)
  | linkerNotFound (cc : String)
  | link (cc : String) (status : ExitStatus)
  | treeWithTarget
  deriving DecidableEq, Repr, Inhabited

namespace Error

def ofSource : SourceError → Error
  | .bracket cause => bracket cause
  | .positionLimit => positionLimit

def message : Error → String
  | missingInput => "missing input file"
  | invalidInput path reason => "invalid input file `" ++ path ++ "`: " ++ reason
  | read path cause => "could not read `" ++ path ++ "`: " ++ cause
  | bracket cause => cause.value.message
  | positionLimit => "the source is too long"
  | runtime e => e.message
  | output path cause => "could not open output file `" ++ path ++ "`: " ++ cause
  | missingTarget => "no default target for this host, pass `--target`"
  | assembler cause => "could not emit assembly: " ++ cause
  | linkerNotFound cc => "could not find `" ++ cc ++ "` for linking"
  | link cc status => "unable to link the object file (`" ++ cc ++ "` " ++ status.describe ++ ")"
  | treeWithTarget => "tree output needs no target"

def pos? : Error → Option Position
  | bracket cause => some cause.pos
  | _ => none

/-- The text of the error from outside that lies behind this one, if there is one. -/
def cause? : Error → Option String
  | read _ cause => some cause
  | runtime e => some e.cause
  | output _ cause => some cause
  | assembler cause => some cause
  | _ => none

end Error

structure Diagnostic where
  pos : Option Position
  message : String
  deriving DecidableEq, Repr, Inhabited

namespace Diagnostic

def ofBracket (e : Located BracketError) : Diagnostic := ⟨some e.pos, e.value.message⟩

def ofError (e : Error) : Diagnostic := ⟨e.pos?, e.message⟩

def text (d : Diagnostic) : String :=
  match d.pos with
  | some pos => s!"Error[{pos.display}]: {d.message}\n"
  | none => s!"Error: {d.message}\n"

end Diagnostic

end TapeLang
