import TapeLang.Position
import TapeLang.Tape
import TapeLang.Target

/-!
The assembly that programs are compiled to, as data. Register `r12` holds the address of the tape
and `r13` the head; the current cell is the byte at their sum. Text is made from lines only when
they are written.
-/
namespace TapeLang.Assembly

/-- Registers that belong to the caller and are saved on the stack. -/
inductive Saved where
  | rbp
  | r12
  | r13
  deriving DecidableEq, Repr, Inhabited

/-- What updates act on: the current cell, or the low sixteen bits of the head's register. -/
inductive Place where
  | cell
  | head
  deriving DecidableEq, Repr, Inhabited

inductive Routine where
  | putchar
  | getchar
  deriving DecidableEq, Repr, Inhabited

/-- Labels inside the code. Loops and inputs are numbered apart. -/
inductive Label where
  | loopStart (id : Nat)
  | loopEnd (id : Nat)
  | input (id : Nat)
  deriving DecidableEq, Repr, Inhabited

inductive Instr where
  | push (r : Saved)
  | pop (r : Saved)
  | saveStackPointer
  | loadTape
  | clearHead
  | clearResult
  | inc (p : Place)
  | dec (p : Place)
  | add (p : Place) (n : Nat)
  | sub (p : Place) (n : Nat)
  | loadArgument
  | storeResult
  | call (r : Routine)
  | testCell
  | testEof
  | jumpIfEqual (l : Label)
  | jumpIfNotEqual (l : Label)
  | jump (l : Label)
  | ret
  deriving DecidableEq, Repr, Inhabited

inductive Line where
  | textSection
  | exportEntry
  | entry
  | label (l : Label)
  | instr (i : Instr)
  | loopComment (pos : Position)
  | blank
  | tapeDeclaration
  deriving DecidableEq, Repr, Inhabited

def Saved.text : Saved → String
  | rbp => "rbp"
  | r12 => "r12"
  | r13 => "r13"

def Place.text : Place → String
  | cell => "byte ptr [r12 + r13]"
  | head => "r13w"

def Place.modulus : Place → Nat
  | cell => 256
  | head => cellCount

def Routine.text (t : Target) : Routine → String
  | putchar => t.putchar
  | getchar => t.getchar

def Label.text (t : Target) : Label → String
  | loopStart id => s!"{t.labelMark}loop_start_{id}"
  | loopEnd id => s!"{t.labelMark}loop_end_{id}"
  | input id => s!"{t.labelMark}input_{id}"

def Instr.text (t : Target) : Instr → String
  | push r => "push " ++ r.text
  | pop r => "pop " ++ r.text
  | saveStackPointer => "mov rbp, rsp"
  | loadTape => "lea r12, [rip + " ++ t.tape ++ "]"
  | clearHead => "xor r13d, r13d"
  | clearResult => "xor eax, eax"
  | inc p => "inc " ++ p.text
  | dec p => "dec " ++ p.text
  | add p n => s!"add {p.text}, {n}"
  | sub p n => s!"sub {p.text}, {n}"
  | loadArgument => "movzx edi, " ++ Place.cell.text
  | storeResult => "mov " ++ Place.cell.text ++ ", al"
  | call r => "call " ++ r.text t
  | testCell => "cmp " ++ Place.cell.text ++ ", 0"
  | testEof => "cmp eax, -1"
  | jumpIfEqual l => "je " ++ l.text t
  | jumpIfNotEqual l => "jne " ++ l.text t
  | jump l => "jmp " ++ l.text t
  | ret => "ret"

def Line.text (t : Target) : Line → String
  | textSection => ".section " ++ t.textSection
  | exportEntry => ".global " ++ t.entryPoint
  | entry => t.entryPoint ++ ":"
  | label l => l.text t ++ ":"
  | instr i => i.text t
  | loopComment pos => "# loop at " ++ pos.display
  | blank => ""
  | tapeDeclaration => t.tapeDeclaration cellCount

/-- Labels and blank lines stand at the margin also inside an indented block. -/
def Line.isIndentable : Line → Bool
  | entry | label _ | blank => false
  | _ => true

def Line.render (t : Target) (indented : Bool) (l : Line) : String :=
  (if indented && l.isIndentable then "    " else "") ++ l.text t ++ "\n"

/-- The shortest instruction that adds `delta` to a place, where adding nothing needs none. -/
def update? (p : Place) (delta : Nat) : Option Instr :=
  if delta = 0 then none
  else if delta = 1 then some (.inc p)
  else if delta + 1 = p.modulus then some (.dec p)
  else if 2 * delta ≤ p.modulus then some (.add p delta)
  else some (.sub p (p.modulus - delta))

/-- What opens the code: save the caller's registers, find the tape, put the head on cell 0. -/
def opening : List Instr :=
  [.push .rbp, .saveStackPointer, .push .r12, .push .r13, .loadTape, .clearHead]

/-- What closes the code: result zero, the caller's registers back. -/
def closing : List Instr :=
  [.clearResult, .pop .r13, .pop .r12, .pop .rbp, .ret]

end TapeLang.Assembly
