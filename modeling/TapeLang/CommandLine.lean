import TapeLang.EofPolicy
import TapeLang.OptLevel
import TapeLang.Target

/-!
The command line. Arguments are read from left to right. The value of an option may be attached to
it or stand in the next argument; a value of the second kind, like the positional argument, is
judged only when the next option or flag that the program knows is met, or the line ends.
-/
namespace TapeLang.CommandLine

inductive Product where
  | exe
  | asm
  | tree
  deriving DecidableEq, Repr, Inhabited

def Product.all : List Product := [.exe, .asm, .tree]

def Product.name : Product → String
  | exe => "exe"
  | asm => "asm"
  | tree => "tree"

def Product.ofName? (s : String) : Option Product := all.find? fun p => p.name = s

structure Request where
  input : Option String := none
  output : Option String := none
  product : Product := .exe
  run : Bool := false
  optLevel : OptLevel := .O2
  target : Option Target := none
  eof : EofPolicy := .zero
  cc : String := "cc"
  verbose : Bool := false
  deriving DecidableEq, Repr, Inhabited

inductive UsageError where
  | unknownArgument
  | missingValue
  | unknownValue
  | malformedValue
  | unneededValue
  | conflict
  | help
  | version
  deriving DecidableEq, Repr, Inhabited

def UsageError.message : UsageError → String
  | unknownArgument => "there is an argument too many, or one that is not known"
  | missingValue => "an option or the input is given no value"
  | unknownValue => "an option is given a value that it does not have"
  | malformedValue => "an option is given a value that cannot be read"
  | unneededValue => "a switch is given a value"
  | conflict => "an option is given twice, or beside one that it excludes"
  | help => "help is asked for"
  | version => "the version is asked for"

def summary : String :=
  "Usage: [options] [input.bf]\n\n" ++
  "  -o, --output <path>   where the product goes\n" ++
  "      --emit <product>  exe, asm or tree\n" ++
  "      --run             interpret the program over the standard streams\n" ++
  "  -O <level>            optimization level, 0 to 3\n" ++
  "      --target <name>   x86_64_darwin or x86_64_linux\n" ++
  "      --eof <policy>    zero, unchanged or max\n" ++
  "      --cc <name>       the C compiler that links\n" ++
  "  -v, --verbose         accepted without effect\n" ++
  "  -h, --help            this text\n" ++
  "  -V, --version         the version\n"

inductive Slot where
  | input
  | output
  | product
  | optLevel
  | target
  | eof
  | cc
  deriving DecidableEq, Repr, Inhabited

inductive Switch where
  | run
  | verbose
  | help
  | version
  deriving DecidableEq, Repr, Inhabited

/-- An option either takes a value or is a switch. -/
inductive Opt where
  | valued (s : Slot)
  | switch (s : Switch)
  deriving DecidableEq, Repr, Inhabited

def Opt.ofLong? : String → Option Opt
  | "output" => some (.valued .output)
  | "emit" => some (.valued .product)
  | "target" => some (.valued .target)
  | "eof" => some (.valued .eof)
  | "cc" => some (.valued .cc)
  | "run" => some (.switch .run)
  | "verbose" => some (.switch .verbose)
  | "help" => some (.switch .help)
  | "version" => some (.switch .version)
  | _ => none

def Opt.ofShort? : Char → Option Opt
  | 'o' => some (.valued .output)
  | 'O' => some (.valued .optLevel)
  | 'v' => some (.switch .verbose)
  | 'h' => some (.switch .help)
  | 'V' => some (.switch .version)
  | _ => none

structure Draft where
  input : Option String := none
  output : Option String := none
  product : Option Product := none
  optLevel : Option OptLevel := none
  target : Option Target := none
  eof : Option EofPolicy := none
  cc : Option String := none
  run : Bool := false
  verbose : Bool := false
  deriving DecidableEq, Repr, Inhabited

/-- A setting may be given once. That is looked at before the value is. -/
def once {α : Type} (old : Option α) (bad : UsageError) (new : Option α) :
    Except UsageError (Option α) :=
  match old, new with
  | some _, _ => .error .conflict
  | none, some v => .ok (some v)
  | none, none => .error bad

/-- An optimization level as a whole number, with or without a sign. -/
def levelOfInteger? (text : String) : Option OptLevel :=
  match text.toList with
  | '-' :: digits =>
    match OptLevel.decimal? digits with
    | some 0 => OptLevel.ofLevel? 0
    | _ => none
  | chars => (OptLevel.decimal? (OptLevel.dropLeading '+' chars)).bind OptLevel.ofLevel?

def path? (text : String) : Option String := if text = "" then none else some text

namespace Draft

def store (d : Draft) (slot : Slot) (text : String) : Except UsageError Draft := do
  match slot with
  | .input => return { d with input := ← once d.input .missingValue (path? text) }
  | .output => return { d with output := ← once d.output .missingValue (path? text) }
  | .product =>
    return { d with product := ← once d.product .unknownValue (Product.ofName? text) }
  | .optLevel =>
    return { d with optLevel := ← once d.optLevel .malformedValue (levelOfInteger? text) }
  | .target => return { d with target := ← once d.target .unknownValue (Target.ofName? text) }
  | .eof => return { d with eof := ← once d.eof .malformedValue (EofPolicy.ofName? text) }
  | .cc => return { d with cc := ← once d.cc .missingValue (some text) }

def flip (d : Draft) : Switch → Except UsageError Draft
  | .run => if d.run then .error .conflict else .ok { d with run := true }
  | .verbose => if d.verbose then .error .conflict else .ok { d with verbose := true }
  | .help => .error .help
  | .version => .error .version

/-- Settle what was not given. The C compiler may come from the environment. -/
def request (d : Draft) (ccEnv : Option String) : Except UsageError Request :=
  if d.run ∧ (d.output.isSome ∨ d.product.isSome) then .error .conflict
  else
    .ok {
      input := d.input
      output := d.output
      product := d.product.getD .exe
      run := d.run
      optLevel := d.optLevel.getD .O2
      target := d.target
      eof := d.eof.getD .zero
      cc := d.cc.getD (ccEnv.getD "cc")
      verbose := d.verbose }

end Draft

/-- A line being read. A slot waits for its value, or has one that has not been judged yet. -/
structure Reader where
  draft : Draft := {}
  waiting : Option (Slot × Option String) := none
  inputSeen : Bool := false
  optionsOver : Bool := false
  deriving DecidableEq, Repr, Inhabited

namespace Reader

/-- Judge the value that waits, if there is one. -/
def settle (r : Reader) : Except UsageError Reader :=
  match r.waiting with
  | none => .ok r
  | some (_, none) => .error .missingValue
  | some (slot, some text) => do
    return { r with draft := ← r.draft.store slot text, waiting := none }

def attach (r : Reader) (slot : Slot) (text : String) : Except UsageError Reader := do
  let r ← r.settle
  return { r with draft := ← r.draft.store slot text }

def await (r : Reader) (slot : Slot) : Except UsageError Reader := do
  let r ← r.settle
  return { r with waiting := some (slot, none) }

def switch (r : Reader) (s : Switch) : Except UsageError Reader := do
  let r ← r.settle
  return { r with draft := ← r.draft.flip s }

/-- The first positional argument is the input, and there is no second. -/
def positional (r : Reader) (arg : String) : Except UsageError Reader := do
  if r.inputSeen then throw .unknownArgument
  let r ← r.settle
  return { r with waiting := some (.input, some arg), inputSeen := true }

def long (r : Reader) (name : String) (value : Option String) : Except UsageError Reader :=
  match Opt.ofLong? name, value with
  | none, _ => .error .unknownArgument
  | some (.valued slot), some text => r.attach slot text
  | some (.valued slot), none => r.await slot
  | some (.switch _), some _ => .error .unneededValue
  | some (.switch s), none => r.switch s

/-- A cluster of short options. The first that takes a value takes the rest of the cluster. -/
def shorts (r : Reader) : List Char → Except UsageError Reader
  | [] => .ok r
  | c :: rest =>
    match Opt.ofShort? c, rest with
    | none, _ => .error .unknownArgument
    | some (.switch s), rest =>
      match r.switch s with
      | .ok r => r.shorts rest
      | .error e => .error e
    | some (.valued slot), [] => r.await slot
    | some (.valued slot), '=' :: text => r.attach slot (String.ofList text)
    | some (.valued slot), text => r.attach slot (String.ofList text)

/-- A name, and what follows the first equals sign after it. -/
def splitValue : List Char → List Char × Option (List Char)
  | [] => ([], none)
  | c :: rest =>
    if c = '=' then ([], some rest)
    else
      let (name, value) := splitValue rest
      (c :: name, value)

def value (r : Reader) (arg : String) : Except UsageError Reader :=
  match r.waiting with
  | some (slot, none) => .ok { r with waiting := some (slot, some arg) }
  | _ => r.positional arg

/-- Take in one argument. A dash alone is no option, and a double dash alone ends the options. -/
def read (r : Reader) (arg : String) : Except UsageError Reader :=
  if r.optionsOver then r.positional arg
  else
    match arg.toList with
    | ['-', '-'] => .ok { r with optionsOver := true }
    | '-' :: '-' :: body =>
      let (name, text) := splitValue body
      r.long (String.ofList name) (text.map String.ofList)
    | '-' :: c :: cluster => r.shorts (c :: cluster)
    | _ => r.value arg

def readAll (r : Reader) : List String → Except UsageError Reader
  | [] => r.settle
  | arg :: rest =>
    match r.read arg with
    | .ok r => r.readAll rest
    | .error e => .error e

end Reader

/-- Read a command line, the program's own name left out. -/
def parse (args : List String) (ccEnv : Option String) : Except UsageError Request := do
  let r ← Reader.readAll {} args
  r.draft.request ccEnv

end TapeLang.CommandLine
