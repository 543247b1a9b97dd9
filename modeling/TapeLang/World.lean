import TapeLang.Compiler
import TapeLang.FileSystem

/-!
A model of the computer around the compiler: files and the standard streams. It answers the same
questions as a real one, but is a value, so that a state before can be compared with the state
after.
-/
namespace TapeLang

structure World where
  files : FileSystem := {}
  stdin : Feed := []
  stdout : Sink := {}
  deriving Inhabited

/-- Acting in the model. A program that runs on after its allotted moves gives no answer. -/
abbrev Acting := StateT World Option

namespace World

def fileKind (w : World) (path : String) : Option FileKind :=
  match w.files.find path with
  | .error _ => none
  | .ok (.file _) => some .regular
  | .ok (.locked _) => some .regular
  | .ok _ => some .other

def readFile (w : World) (path : String) : Except String Source :=
  match w.files.find path with
  | .error e => .error e.message
  | .ok .directory => .error FileError.isDirectory.message
  | .ok (.file content) => .ok content.toList
  | .ok (.locked _) => .error FileError.permissionDenied.message
  | .ok _ => .ok []

def writeFile (w : World) (path : String) (content : Array UInt8) :
    Except FileFailure Unit × World :=
  match w.files.openForWriting path with
  | .error e => (.error (.opening e.message), w)
  | .ok (_, some .nullDevice) => (.ok (), w)
  | .ok (_, some .fullDevice) =>
    if content.isEmpty then (.ok (), w) else (.error (.writing FileError.noSpace.message), w)
  | .ok (names, some (.locked _)) =>
    (.ok (), { w with files := w.files.set names (.locked content) })
  | .ok (names, _) => (.ok (), { w with files := w.files.set names (.file content) })

def interpret (fuel : Nat) (w : World) (p : Program) (eof : EofPolicy) :
    Option (Except RuntimeError Unit × World) :=
  match Machine.run fuel p { feed := w.stdin, sink := w.stdout, eof } with
  | .running _ => none
  | .finished m _ => some (.ok (), { w with stdin := m.feed, stdout := m.sink })
  | .failed e m => some (.error e, { w with stdin := m.feed, stdout := m.sink })

def printLines (w : World) (lines : List String) : Except WriteError Unit × World :=
  match w.stdout.writeTexts lines with
  | (result, stdout) => (result, { w with stdout })

/-- The model as a host for the compiler. The linker is a program of its own and may do anything. -/
def host (link : Linker Acting) (fuel : Nat) : Host Acting where
  fileKind path := fun w => some (w.fileKind path, w)
  readFile path := fun w => some (w.readFile path, w)
  interpret p eof := fun w => w.interpret fuel p eof
  printLines lines := fun w => some (w.printLines lines)
  writeFile path content := fun w => some (w.writeFile path content)
  link

end World

end TapeLang
