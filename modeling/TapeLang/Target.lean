/-!
The platforms that programs are compiled for. They differ in how symbols are spelled and in how
the tape is declared.
-/
namespace TapeLang

inductive Target where
  | darwin
  | linux
  deriving DecidableEq, Repr, Inhabited

namespace Target

def all : List Target := [.darwin, .linux]

def name : Target → String
  | darwin => "x86_64_darwin"
  | linux => "x86_64_linux"

def ofName? (s : String) : Option Target := all.find? fun t => t.name = s

def triple : Target → String
  | darwin => "x86_64-apple-darwin"
  | linux => "x86_64-unknown-linux-gnu"

def entryPoint : Target → String
  | darwin => "_main"
  | linux => "main"

/-- The lines that open every file, the last of them blank. -/
def prologue : Target → List String
  | darwin => [".intel_syntax noprefix", ""]
  | linux => [".intel_syntax noprefix", ".section .note.GNU-stack,\"\",@progbits", ""]

def textSection : Target → String
  | darwin => "__TEXT,__text,regular,pure_instructions"
  | linux => ".text"

/-- What the names of local labels start with. -/
def labelMark : Target → String
  | darwin => "L"
  | linux => ".L"

def tape : Target → String
  | darwin => "_tape"
  | linux => "tape"

def putchar : Target → String
  | darwin => "_putchar"
  | linux => "putchar@PLT"

def getchar : Target → String
  | darwin => "_getchar"
  | linux => "getchar@PLT"

def tapeDeclaration (t : Target) (size : Nat) : String :=
  match t with
  | darwin => s!".zerofill __DATA,__bss,_tape,{size},4"
  | linux => s!".local tape\n.comm tape,{size},16"

@[simp] theorem ofName?_name (t : Target) : ofName? t.name = some t := by
  cases t <;> rfl

end Target

end TapeLang
