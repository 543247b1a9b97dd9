import TapeLang.Compiler

/-!
The command itself: the compiler on real files and streams. It reads input only when a program
asks for it, and hands on output in blocks.
-/
namespace TapeLang.Main

open CommandLine

/-- The system's own words for a failure, with its number. -/
def describe : IO.Error → String
  | .noFileOrDirectory _ code text => s!"{text} (os error {code})"
  | .inappropriateType _ code text => s!"{text} (os error {code})"
  | .permissionDenied _ code text => s!"{text} (os error {code})"
  | .resourceExhausted _ code text => s!"{text} (os error {code})"
  | .alreadyExists _ code text => s!"{text} (os error {code})"
  | .invalidArgument _ code text => s!"{text} (os error {code})"
  | .resourceVanished code text => s!"{text} (os error {code})"
  | .resourceBusy code text => s!"{text} (os error {code})"
  | .hardwareFault code text => s!"{text} (os error {code})"
  | .otherError code text => s!"{text} (os error {code})"
  | e => toString e

def fileKind (path : String) : IO (Option FileKind) := do
  try
    let data ← (← IO.FS.realPath path).metadata
    return some (if data.type matches .file then .regular else .other)
  catch _ => return none

def readFile (path : String) : IO (Except String Source) := do
  try return .ok (← IO.FS.readBinFile path).toList
  catch e => return .error (describe e)

def writeFile (path : String) (content : Array UInt8) : IO (Except FileFailure Unit) := do
  let opened : Except String IO.FS.Handle ←
    try pure (.ok (← IO.FS.Handle.mk path .write)) catch e => pure (.error (describe e))
  match opened with
  | .error cause => return .error (.opening cause)
  | .ok handle =>
    try
      handle.write ⟨content⟩
      handle.flush
      return .ok ()
    catch e => return .error (.writing (describe e))

/-- Hand on what a machine has written so far. -/
def drain (m : Machine) : IO Machine := do
  if m.sink.accepted.isEmpty then return m
  let stdout ← IO.getStdout
  stdout.write ⟨m.sink.accepted⟩
  stdout.flush
  return { m with sink := {} }

/-- Before an input instruction, wait for input if none is left. -/
def refill (r : Run) : IO Run := do
  match r.code, r.machine.feed with
  | .op .input _ _, [] =>
    let m ← drain r.machine
    let bytes ← (← IO.getStdin).read 4096
    let feed := if bytes.isEmpty then [.endOfInput] else Feed.ofBytes bytes.toList
    return { r with machine := { m with feed } }
  | _, _ =>
    if r.machine.sink.accepted.size < 4096 then return r
    else return { r with machine := ← drain r.machine }

partial def drive (r : Run) : IO (Except RuntimeError Unit) := do
  match (← refill r).step with
  | .running r => drive r
  | .finished m _ =>
    let _ ← drain m
    return .ok ()
  | .failed e m =>
    let _ ← drain m
    return .error e

def interpret (p : Program) (eof : EofPolicy) : IO (Except RuntimeError Unit) := do
  try drive { code := p, machine := { eof } }
  catch e => return .error (.write (.refused (describe e)))

def printLines (lines : List String) : IO (Except WriteError Unit) := do
  try
    let stdout ← IO.getStdout
    lines.forM stdout.putStr
    stdout.flush
    return .ok ()
  catch e => return .error (.refused (describe e))

/-- The real computer. It has no way to start a compiler driver. -/
def host : Host IO where
  fileKind
  readFile
  interpret
  printLines
  writeFile
  link _ _ _ _ := return .notFound

def explain : UsageError → IO Unit
  | .help => IO.print summary
  | .version => IO.println "0.0.1"
  | e => IO.eprint ("Error: " ++ e.message ++ "\n\n" ++ summary)

def finish (ending : Compiler.Ending) : IO UInt32 := do
  IO.eprint ending.report
  ending.usage.forM explain
  return ending.code.toUInt32

end TapeLang.Main

def main (args : List String) : IO UInt32 := do
  let cc ← IO.getEnv "BRAINC_CC"
  TapeLang.Main.finish (← TapeLang.Compiler.run TapeLang.Main.host (some .linux) args cc)
