import TapeLang.CommandLine
import TapeLang.Dump
import TapeLang.Error
import TapeLang.FileName
import TapeLang.Generator

/-!
Carrying out a request. What the compiler needs from the computer it runs on is a record of
actions, so that the same steps work on real files and on a model of them. Everything that can be
wrong with the input is found before anything is written or the standard input is touched.
-/
namespace TapeLang

open CommandLine

inductive FileKind where
  | regular
  | other
  deriving DecidableEq, Repr, Inhabited

/-- Writing a file fails when it cannot be opened, or later. -/
inductive FileFailure where
  | opening (cause : String)
  | writing (cause : String)
  deriving DecidableEq, Repr, Inhabited

inductive LinkResult where
  | ended (status : ExitStatus)
  | notFound
  | permissionDenied
  | failed (cause : String)
  deriving DecidableEq, Repr, Inhabited

abbrev Linker (m : Type → Type) :=
  (cc : String) → OptLevel → (assembly : Array UInt8) → (output : String) → m LinkResult

/-- The actions of a computer that the compiler needs. Interpreting uses the standard streams. -/
structure Host (m : Type → Type) where
  fileKind : String → m (Option FileKind)
  readFile : String → m (Except String Source)
  interpret : Program → EofPolicy → m (Except RuntimeError Unit)
  printLines : List String → m (Except WriteError Unit)
  writeFile : String → Array UInt8 → m (Except FileFailure Unit)
  link : Linker m

inductive InputFault where
  | missing
  | notRegular
  | wrongExtension
  deriving DecidableEq, Repr, Inhabited

namespace InputFault

def reason : InputFault → String
  | missing => "no such file"
  | notRegular => "not a regular file"
  | wrongExtension => "expected a `.bf` extension"

/-- The input must be an existing regular file whose name ends in `.bf`. -/
def check? (path : String) : Option FileKind → Option InputFault
  | none => some missing
  | some .other => some notRegular
  | some .regular =>
    if (FileName.ofPath? path).bind FileName.extension? = some "bf" then none
    else some wrongExtension

end InputFault

namespace Compiler

/-- Where a product goes unless told otherwise: into the working directory, under the input's stem.
An input without a file name leaves only a fixed name. -/
def defaultOutput (input : String) (product : Product) : String :=
  match FileName.ofPath? input with
  | none => "a.out"
  | some name =>
    match product with
    | .asm => FileName.withExtension (FileName.stem name) "s"
    | .exe | .tree => FileName.stem name

/-- The target asked for, or else the host's own. -/
def resolveTarget (requested host : Option Target) : Except Error Target :=
  match requested.or host with
  | some t => .ok t
  | none => .error .missingTarget

/-- Only compiled products need a target. -/
def targetFor (r : Request) (host : Option Target) : Except Error (Option Target) :=
  if r.run ∨ r.product = .tree then .ok none
  else (resolveTarget r.target host).map some

def assembly (options : Options) (p : Program) : Except Error (Array UInt8) :=
  match p.compile options {} with
  | .ok _ g => .ok g.sink.accepted
  | .error (.write e) _ => .error (.assembler e.message)
  | .error .noOpenLoop _ => .error (.assembler "loop exit without a matching entry")

variable {m : Type → Type} [Monad m]

def emitTree (host : Host m) (output : Option String) (p : Program) : m (Except Error Unit) := do
  match output with
  | none =>
    return (← host.printLines p.dumpLines).mapError fun e => .output "<stdout>" e.message
  | some path =>
    match ← host.writeFile path p.dump.toUTF8.data with
    | .ok () => return .ok ()
    | .error (.opening cause) => return .error (.output path cause)
    | .error (.writing cause) => return .error (.output path cause)

def emitAssembly (host : Host m) (path : String) (text : Array UInt8) : m (Except Error Unit) := do
  match ← host.writeFile path text with
  | .ok () => return .ok ()
  | .error (.opening cause) => return .error (.output path cause)
  | .error (.writing cause) => return .error (.assembler cause)

def emitExecutable (host : Host m) (cc : String) (level : OptLevel) (path : String)
    (text : Array UInt8) : m (Except Error Unit) := do
  match ← host.link cc level text path with
  | .ended status =>
    return if status.isSuccess then .ok () else .error (.link cc status)
  | .notFound | .permissionDenied => return .error (.linkerNotFound cc)
  | .failed cause => return .error (.assembler cause)

/-- Turn a program into the product asked for. Without a target that is the dump, and no target is
chosen for a dump. -/
def produce (host : Host m) (r : Request) (input : String) (target : Option Target)
    (p : Program) : m (Except Error Unit) :=
  match target with
  | none => emitTree host r.output p
  | some target =>
    let path := r.output.getD (defaultOutput input r.product)
    match r.product, assembly { target, optLevel := r.optLevel, eof := r.eof } p with
    | .tree, _ => return .error .treeWithTarget
    | _, .error e => return .error e
    | .asm, .ok text => emitAssembly host path text
    | .exe, .ok text => emitExecutable host r.cc r.optLevel path text

/-- Read a file that has been found fit, and run or compile it. -/
def build (host : Host m) (r : Request) (input : String) (target : Option Target) :
    m (Except Error Unit) := do
  match ← host.readFile input with
  | .error cause => return .error (.read input cause)
  | .ok src =>
    match src.program with
    | .error e => return .error (.ofSource e)
    | .ok p =>
      if r.run then return (← host.interpret p r.eof).mapError .runtime
      else produce host r input target p

def execute (host : Host m) (hostTarget : Option Target) (r : Request) : m (Except Error Unit) := do
  match r.input with
  | none => return .error .missingInput
  | some input =>
    match InputFault.check? input (← host.fileKind input) with
    | some fault => return .error (.invalidInput input fault.reason)
    | none =>
      match targetFor r hostTarget with
      | .error e => return .error e
      | .ok target => build host r input target

/-- How the program ends: its exit code, what it says about an error, and what was wrong with the
command line, if that is why. -/
structure Ending where
  code : Nat
  report : String := ""
  usage : Option UsageError := none
  deriving DecidableEq, Repr, Inhabited

def Ending.ofUsageError (e : UsageError) : Ending where
  code :=
    match e with
    | .help | .version => 0
    | _ => 2
  usage := some e

def run (host : Host m) (hostTarget : Option Target) (args : List String)
    (ccEnv : Option String) : m Ending := do
  match CommandLine.parse args ccEnv with
  | .error e => return .ofUsageError e
  | .ok r =>
    match ← execute host hostTarget r with
    | .ok () => return { code := 0 }
    | .error e => return { code := 1, report := (Diagnostic.ofError e).text }

end Compiler

end TapeLang
