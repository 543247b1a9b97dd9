import TapeLang.OptLevel
import TapeLang.Proofs.Labels
import TapeLang.Proofs.Processor

/-!
Reading assembly. A file is read line by line, a line as a sequence of words and marks. What is
not known is refused, and so are two labels of one name. The assembly that a program is compiled
to is read in full, and every line is read as the instruction or label that it was written for.
-/
namespace TapeLang

namespace X86

/-- Characters that stand for themselves wherever they occur. -/
def isMark (c : Char) : Bool := c = ',' || c = ':' || c = '[' || c = ']' || c = '+'

def wordOf (w : List Char) : List String := if w = [] then [] else [String.ofList w]

/-- The words and marks of a line up to a comment. The characters `w` have already been read and
belong to the first word. -/
def words (w : List Char) : List Char → List String
  | [] => wordOf w
  | c :: rest =>
    if c = '#' then wordOf w
    else if c = ' ' then wordOf w ++ words [] rest
    else if isMark c then wordOf w ++ String.ofList [c] :: words [] rest
    else words (w ++ [c]) rest

def register? : String → Option (Reg × Width)
  | "rax" => some (.rax, .qword)
  | "eax" => some (.rax, .dword)
  | "ax" => some (.rax, .word)
  | "al" => some (.rax, .byte)
  | "rdi" => some (.rdi, .qword)
  | "edi" => some (.rdi, .dword)
  | "di" => some (.rdi, .word)
  | "dil" => some (.rdi, .byte)
  | "rbp" => some (.rbp, .qword)
  | "ebp" => some (.rbp, .dword)
  | "bp" => some (.rbp, .word)
  | "bpl" => some (.rbp, .byte)
  | "rsp" => some (.rsp, .qword)
  | "esp" => some (.rsp, .dword)
  | "sp" => some (.rsp, .word)
  | "spl" => some (.rsp, .byte)
  | "r12" => some (.r12, .qword)
  | "r12d" => some (.r12, .dword)
  | "r12w" => some (.r12, .word)
  | "r12b" => some (.r12, .byte)
  | "r13" => some (.r13, .qword)
  | "r13d" => some (.r13, .dword)
  | "r13w" => some (.r13, .word)
  | "r13b" => some (.r13, .byte)
  | _ => none

/-- A whole register. -/
def wholeRegister? (w : String) : Option Reg :=
  match register? w with
  | some (r, .qword) => some r
  | _ => none

def location? : List String → Option Location
  | [w] => (register? w).map fun (r, width) => .reg r width
  | ["byte", "ptr", "[", base, "+", index, "]"] => do
    let base ← wholeRegister? base
    let index ← wholeRegister? index
    return .byteAt base index
  | _ => none

/-- A decimal number, perhaps with a sign. -/
def number? : List Char → Option Int
  | '-' :: digits => (OptLevel.decimal? digits).map fun n => -(n : Int)
  | digits => (OptLevel.decimal? digits).map fun n => (n : Int)

def operand? (ws : List String) : Option Operand :=
  match location? ws, ws with
  | some l, _ => some (.loc l)
  | none, [w] => (number? w.toList).map .imm
  | none, _ => none

/-- Whether a source fits a destination: a number always, else one of the same width. -/
def Operand.fits (dst : Location) : Operand → Bool
  | .loc l => l.width = dst.width
  | .imm _ => true

/-- The instruction of this name for two operands. -/
def binary? (name : String) (dst : Location) (src : Operand) : Option Instr :=
  match name, src with
  | "movzx", .loc l => if l.width.modulus < dst.width.modulus then some (.movzx dst l) else none
  | "mov", src => if src.fits dst then some (.mov dst src) else none
  | "add", src => if src.fits dst then some (.add dst src) else none
  | "sub", src => if src.fits dst then some (.sub dst src) else none
  | "xor", src => if src.fits dst then some (.xor dst src) else none
  | "cmp", src => if src.fits dst then some (.cmp dst src) else none
  | _, _ => none

def instr? : List String → Option Instr
  | ["ret"] => some .ret
  | ["push", r] => (wholeRegister? r).map .push
  | ["pop", r] => (wholeRegister? r).map .pop
  | ["call", symbol] => some (.call symbol)
  | ["jmp", label] => some (.jmp label)
  | ["je", label] => some (.je label)
  | ["jne", label] => some (.jne label)
  | ["lea", r, ",", "[", "rip", "+", symbol, "]"] => (wholeRegister? r).map fun r => .lea r symbol
  | "inc" :: dst => (location? dst).map .inc
  | "dec" :: dst => (location? dst).map .dec
  | name :: operands => do
    let dst ← location? (operands.takeWhile (· ≠ ","))
    let src ← operand? (operands.dropWhile (· ≠ ",")).tail
    binary? name dst src
  | [] => none

/-- Memory of the given size under a symbol. -/
def zeroed? (symbol size : String) : Option (List Statement) :=
  (OptLevel.decimal? size.toList).map fun n => [.zeroed symbol n]

/-- What a line says, if it says anything. Of the directives only those that reserve memory
matter to an execution. -/
def statement? : List String → Option (List Statement)
  | [] => some []
  | [name, ":"] => some [.label name]
  | [".comm", symbol, ",", size, ",", _] => zeroed? symbol size
  | [".zerofill", _, ",", _, ",", symbol, ",", size, ",", _] => zeroed? symbol size
  | ".intel_syntax" :: _ | ".section" :: _ | ".global" :: _ | ".local" :: _ => some []
  | ws => (instr? ws).map fun i => [.instr i]

namespace File

def ofLines? : List (List Char) → Option File
  | [] => some []
  | line :: rest => do
    let first ← statement? (words [] line)
    let file ← ofLines? rest
    return first ++ file

/-- Read a file. -/
def ofText? (text : List Char) : Option File :=
  (ofLines? (text.splitOn '\n')).filter fun file => file.labels.Nodup

end File

/-- Characters that only ever belong to words. -/
def isOrdinary (c : Char) : Bool := c ≠ '#' && c ≠ ' ' && c ≠ '\n' && !isMark c

theorem words_append {cs : List Char} (h : ∀ c ∈ cs, isOrdinary c) (w rest : List Char) :
    words w (cs ++ rest) = words (w ++ cs) rest := by
  induction cs generalizing w with
  | nil => rw [List.nil_append, List.append_nil]
  | cons c cs ih =>
    have hc := h c List.mem_cons_self
    simp only [isOrdinary, Bool.and_eq_true, decide_eq_true_eq, Bool.not_eq_true'] at hc
    obtain ⟨⟨⟨hcomment, hblank⟩, -⟩, hmark⟩ := hc
    rw [List.cons_append, words, if_neg hcomment, if_neg hblank, hmark, if_neg (by decide),
      ih (fun c hc => h c (List.mem_cons_of_mem _ hc)), List.append_assoc]
    rfl

theorem words_of_ordinary {cs : List Char} (h : ∀ c ∈ cs, isOrdinary c) :
    words [] cs = wordOf cs := by
  have hwords := words_append h [] []
  rw [List.append_nil] at hwords
  exact hwords

theorem newline_notMem_of_ordinary {cs : List Char} (h : ∀ c ∈ cs, isOrdinary c) : '\n' ∉ cs :=
  fun hc => absurd (h _ hc) (by decide)

section Digits

theorem ne_of_isDigit {c x : Char} (h : c.isDigit = true) (hx : x.isDigit = false) : c ≠ x := by
  intro heq
  rw [heq, hx] at h
  cases h

theorem isOrdinary_of_isDigit {c : Char} (h : c.isDigit = true) : isOrdinary c = true := by
  have hcomment := ne_of_isDigit (x := '#') h (by decide)
  have hblank := ne_of_isDigit (x := ' ') h (by decide)
  have hnewline := ne_of_isDigit (x := '\n') h (by decide)
  have hcomma := ne_of_isDigit (x := ',') h (by decide)
  have hcolon := ne_of_isDigit (x := ':') h (by decide)
  have hopening := ne_of_isDigit (x := '[') h (by decide)
  have hclosing := ne_of_isDigit (x := ']') h (by decide)
  have hplus := ne_of_isDigit (x := '+') h (by decide)
  simp [isOrdinary, isMark, hcomment, hblank, hnewline, hcomma, hcolon, hopening, hclosing, hplus]

variable (n : Nat)

theorem isDigit_of_mem {c : Char} (hc : c ∈ Nat.toDigits 10 n) : c.isDigit = true :=
  Nat.isDigit_of_mem_toDigits (by decide) (by decide) hc

theorem decimal?_toDigits : OptLevel.decimal? (Nat.toDigits 10 n) = some n := by
  have hdigits : (Nat.toDigits 10 n).all Char.isDigit = true := by
    rw [List.all_eq_true]
    exact fun c hc => isDigit_of_mem n hc
  have hvalue := Nat.ofDigitChars_ten_toDigits (n := n)
  rw [Nat.ofDigitChars_eq_foldl] at hvalue
  rw [OptLevel.decimal?, if_pos ⟨Nat.toDigits_ne_nil, hdigits⟩]
  exact congrArg some hvalue

theorem number?_toDigits : number? (Nat.toDigits 10 n) = some (n : Int) := by
  have hdecimal := decimal?_toDigits n
  unfold number?
  split
  · next digits heq =>
    have hminus := isDigit_of_mem (c := '-') n (by rw [heq]; exact List.mem_cons_self)
    cases hminus
  · rw [hdecimal]
    rfl

/-- No register is spelled with digits only. -/
theorem register?_of_digits {w : String} (h : w.toList.all Char.isDigit = true) :
    register? w = none := by
  unfold register?
  split
  case h_25 => rfl
  all_goals exact absurd h (by decide)

theorem operand?_toDigits :
    operand? [String.ofList (Nat.toDigits 10 n)] = some (.imm n) := by
  have hlocation : location? [String.ofList (Nat.toDigits 10 n)] = none := by
    rw [location?, register?_of_digits]
    · rfl
    · rw [String.toList_ofList, List.all_eq_true]
      exact fun c hc => isDigit_of_mem n hc
  simp only [operand?, hlocation, String.toList_ofList, number?_toDigits, Option.map_some]

end Digits

end X86

namespace Assembly

def Saved.reg : Saved → X86.Reg
  | rbp => .rbp
  | r12 => .r12
  | r13 => .r13

def Place.location : Place → X86.Location
  | cell => .byteAt .r12 .r13
  | head => .reg .r13 .word

/-- What a line of code means to the processor. -/
def Instr.meaning (t : Target) : Instr → X86.Instr
  | push r => .push r.reg
  | pop r => .pop r.reg
  | saveStackPointer => .mov (.reg .rbp .qword) (.loc (.reg .rsp .qword))
  | loadTape => .lea .r12 t.tape
  | clearHead => .xor (.reg .r13 .dword) (.loc (.reg .r13 .dword))
  | clearResult => .xor (.reg .rax .dword) (.loc (.reg .rax .dword))
  | inc p => .inc p.location
  | dec p => .dec p.location
  | add p n => .add p.location (.imm n)
  | sub p n => .sub p.location (.imm n)
  | loadArgument => .movzx (.reg .rdi .dword) Place.cell.location
  | storeResult => .mov Place.cell.location (.loc (.reg .rax .byte))
  | call r => .call (r.text t)
  | testCell => .cmp Place.cell.location (.imm 0)
  | testEof => .cmp (.reg .rax .dword) (.imm (-1))
  | jumpIfEqual l => .je (l.text t)
  | jumpIfNotEqual l => .jne (l.text t)
  | jump l => .jmp (l.text t)
  | ret => .ret

def Line.statements (t : Target) : Line → List X86.Statement
  | entry => [.label t.entryPoint]
  | label l => [.label (l.text t)]
  | instr i => [.instr (i.meaning t)]
  | tapeDeclaration => [.zeroed t.tape cellCount]
  | textSection | exportEntry | loopComment _ | blank => []

/-- What the text of a label starts with, before its number. -/
def Label.stem (t : Target) : Label → String
  | loopStart _ => t.labelMark ++ "loop_start_"
  | loopEnd _ => t.labelMark ++ "loop_end_"
  | input _ => t.labelMark ++ "input_"

def Label.number : Label → Nat
  | loopStart id => id
  | loopEnd id => id
  | input id => id

theorem Label.toList_text (t : Target) (l : Label) :
    (l.text t).toList = (l.stem t).toList ++ Nat.toDigits 10 l.number := by
  cases l with
  | loopStart id =>
    show (t.labelMark ++ "loop_start_" ++ toString id).toList = _
    rw [String.toList_append, Nat.toString_eq_repr, Nat.toList_repr]
    rfl
  | loopEnd id =>
    show (t.labelMark ++ "loop_end_" ++ toString id).toList = _
    rw [String.toList_append, Nat.toString_eq_repr, Nat.toList_repr]
    rfl
  | input id =>
    show (t.labelMark ++ "input_" ++ toString id).toList = _
    rw [String.toList_append, Nat.toString_eq_repr, Nat.toList_repr]
    rfl

theorem Label.isOrdinary_text (t : Target) (l : Label) :
    ∀ c ∈ (l.text t).toList, X86.isOrdinary c = true := by
  have hstem : (l.stem t).toList.all X86.isOrdinary = true := by
    cases l <;> cases t <;>
      simp [stem, Target.labelMark, X86.isOrdinary, X86.isMark]
  rw [toList_text]
  intro c hc
  rcases List.mem_append.mp hc with hc | hc
  · exact List.all_eq_true.mp hstem c hc
  · exact X86.isOrdinary_of_isDigit (X86.isDigit_of_mem _ hc)

theorem Label.stem_append_injective (t : Target) {l l' : Label}
    (h : (l.stem t).toList ++ Nat.toDigits 10 l.number =
      (l'.stem t).toList ++ Nat.toDigits 10 l'.number) : l = l' := by
  have hdigits {a b : Nat} (h : Nat.toDigits 10 a = Nat.toDigits 10 b) : a = b := by
    have hdecimal := congrArg OptLevel.decimal? h
    rw [X86.decimal?_toDigits, X86.decimal?_toDigits] at hdecimal
    exact Option.some.inj hdecimal
  cases l <;> cases l' <;> cases t <;> simp [stem, number, Target.labelMark] at h <;>
    rw [hdigits h]

theorem Label.text_injective (t : Target) {l l' : Label} (h : l.text t = l'.text t) : l = l' := by
  have hlist := congrArg String.toList h
  rw [toList_text, toList_text] at hlist
  exact stem_append_injective t hlist

theorem Label.text_ne_entryPoint (t : Target) (l : Label) : l.text t ≠ t.entryPoint := by
  intro h
  have hlist := congrArg String.toList h
  rw [toList_text] at hlist
  cases l <;> cases t <;> simp [stem, Target.labelMark, Target.entryPoint] at hlist

theorem Label.text_ne_colon (t : Target) (l : Label) : l.text t ≠ ":" := by
  intro h
  have hcolon := l.isOrdinary_text t ':' (by rw [h]; decide)
  cases hcolon

theorem words_append_word {front last : List Char} {ws : List String}
    (hfront : ∀ rest, X86.words [] (front ++ rest) = ws ++ X86.words [] rest)
    (hlast : ∀ c ∈ last, X86.isOrdinary c = true) (hne : last ≠ []) :
    X86.words [] (front ++ last) = ws ++ [String.ofList last] := by
  rw [hfront, X86.words_of_ordinary hlast, X86.wordOf, if_neg hne]

theorem Label.toList_text_ne_nil (t : Target) (l : Label) : (l.text t).toList ≠ [] := by
  intro h
  rw [l.toList_text] at h
  exact Nat.toDigits_ne_nil (List.append_eq_nil_iff.mp h).2

theorem words_label (t : Target) (l : Label) (front : List Char) (ws : List String)
    (hfront : ∀ rest, X86.words [] (front ++ rest) = ws ++ X86.words [] rest) :
    X86.words [] (front ++ (l.text t).toList) = ws ++ [l.text t] := by
  rw [words_append_word hfront (l.isOrdinary_text t) (l.toList_text_ne_nil t),
    String.ofList_toList]

theorem words_number (n : Nat) (front : List Char) (ws : List String)
    (hfront : ∀ rest, X86.words [] (front ++ rest) = ws ++ X86.words [] rest) :
    X86.words [] (front ++ Nat.toDigits 10 n) = ws ++ [String.ofList (Nat.toDigits 10 n)] :=
  words_append_word hfront (fun _ hc => X86.isOrdinary_of_isDigit (X86.isDigit_of_mem n hc))
    Nat.toDigits_ne_nil

def Place.words : Place → List String
  | cell => ["byte", "ptr", "[", "r12", "+", "r13", "]"]
  | head => ["r13w"]

theorem statement?_update {name : String} (hname : name = "add" ∨ name = "sub") (p : Place)
    (n : Nat) :
    X86.statement? (X86.words [] ((name ++ " " ++ p.text ++ ", ").toList ++ Nat.toDigits 10 n)) =
      (X86.binary? name p.location (.imm n)).map fun i => [.instr i] := by
  have hwords (rest : List Char) :
      X86.words [] ((name ++ " " ++ p.text ++ ", ").toList ++ rest) =
        name :: (p.words ++ [","]) ++ X86.words [] rest := by
    rcases hname with rfl | rfl <;> cases p <;> rfl
  have hstatement (w : String) : X86.statement? (name :: (p.words ++ [","]) ++ [w]) =
      ((X86.operand? [w]).bind fun src => X86.binary? name p.location src).map
        fun i => [.instr i] := by
    rcases hname with rfl | rfl <;> cases p <;> rfl
  rw [words_number n _ _ hwords, hstatement, X86.operand?_toDigits n]
  rfl

/-- A jump is not taken for a label, whatever it jumps to. -/
theorem statement?_jump {name w : String} (hname : name = "je" ∨ name = "jne" ∨ name = "jmp")
    (hw : w ≠ ":") :
    X86.statement? [name, w] = (X86.instr? [name, w]).map fun i => [.instr i] := by
  have hdirective {s : String} (hs : s ≠ "je" ∧ s ≠ "jne" ∧ s ≠ "jmp") : name ≠ s := by
    rcases hname with rfl | rfl | rfl
    · exact hs.1.symm
    · exact hs.2.1.symm
    · exact hs.2.2.symm
  unfold X86.statement?
  split
  · next h => cases h
  · next h => exact absurd (List.cons.inj (List.cons.inj h).2).1 hw
  · next h => cases h
  · next h => cases h
  · next h => exact absurd (List.cons.inj h).1 (hdirective (by decide))
  · next h => exact absurd (List.cons.inj h).1 (hdirective (by decide))
  · next h => exact absurd (List.cons.inj h).1 (hdirective (by decide))
  · next h => exact absurd (List.cons.inj h).1 (hdirective (by decide))
  · rfl

theorem statement?_instr (t : Target) (i : Instr) :
    X86.statement? (X86.words [] (i.text t).toList) = some [.instr (i.meaning t)] := by
  cases i with
  | push r => cases t <;> cases r <;> rfl
  | pop r => cases t <;> cases r <;> rfl
  | saveStackPointer => cases t <;> rfl
  | loadTape => cases t <;> rfl
  | clearHead => cases t <;> rfl
  | clearResult => cases t <;> rfl
  | inc p => cases t <;> cases p <;> rfl
  | dec p => cases t <;> cases p <;> rfl
  | add p n =>
    show X86.statement? (X86.words [] ("add " ++ p.text ++ ", " ++ toString n).toList) = _
    rw [String.toList_append, Nat.toString_eq_repr, Nat.toList_repr]
    exact statement?_update (.inl rfl) p n
  | sub p n =>
    show X86.statement? (X86.words [] ("sub " ++ p.text ++ ", " ++ toString n).toList) = _
    rw [String.toList_append, Nat.toString_eq_repr, Nat.toList_repr]
    exact statement?_update (.inr rfl) p n
  | loadArgument => cases t <;> rfl
  | storeResult => cases t <;> rfl
  | call r => cases t <;> cases r <;> rfl
  | testCell => cases t <;> rfl
  | testEof => cases t <;> rfl
  | jumpIfEqual l =>
    show X86.statement? (X86.words [] ("je " ++ l.text t).toList) = _
    rw [String.toList_append, words_label t l _ ["je"] (fun _ => rfl)]
    exact statement?_jump (by decide) (l.text_ne_colon t)
  | jumpIfNotEqual l =>
    show X86.statement? (X86.words [] ("jne " ++ l.text t).toList) = _
    rw [String.toList_append, words_label t l _ ["jne"] (fun _ => rfl)]
    exact statement?_jump (by decide) (l.text_ne_colon t)
  | jump l =>
    show X86.statement? (X86.words [] ("jmp " ++ l.text t).toList) = _
    rw [String.toList_append, words_label t l _ ["jmp"] (fun _ => rfl)]
    exact statement?_jump (by decide) (l.text_ne_colon t)
  | ret => cases t <;> rfl

/-- Every line but the declaration of the tape is a line of the file, and says what it means. -/
theorem statement?_line (t : Target) (l : Line) (h : l ≠ .tapeDeclaration) :
    X86.statement? (X86.words [] (l.text t).toList) = some (l.statements t) := by
  cases l with
  | textSection => cases t <;> rfl
  | exportEntry => cases t <;> rfl
  | entry => cases t <;> rfl
  | label l =>
    rw [Line.text, String.toList_append, X86.words_append (l.isOrdinary_text t), List.nil_append]
    show X86.statement? (X86.wordOf (l.text t).toList ++ [":"]) = some [.label (l.text t)]
    rw [X86.wordOf, if_neg (l.toList_text_ne_nil t), String.ofList_toList]
    rfl
  | instr i => exact statement?_instr t i
  | loopComment pos =>
    rw [Line.text, String.toList_append]
    rfl
  | blank => cases t <;> rfl
  | tapeDeclaration => exact absurd rfl h

section Newline

theorem newline_notMem_append {front last : List Char} (hfront : '\n' ∉ front)
    (hlast : ∀ c ∈ last, X86.isOrdinary c = true) : '\n' ∉ front ++ last := by
  intro h
  rcases List.mem_append.mp h with h | h
  · exact hfront h
  · exact X86.newline_notMem_of_ordinary hlast h

theorem newline_notMem_number {front : List Char} (hfront : '\n' ∉ front) (n : Nat) :
    '\n' ∉ front ++ Nat.toDigits 10 n :=
  newline_notMem_append hfront fun _ hc => X86.isOrdinary_of_isDigit (X86.isDigit_of_mem n hc)

theorem newline_notMem_instr (t : Target) (i : Instr) : '\n' ∉ (i.text t).toList := by
  cases i with
  | push r => cases t <;> cases r <;> decide
  | pop r => cases t <;> cases r <;> decide
  | saveStackPointer => cases t <;> decide
  | loadTape => cases t <;> decide
  | clearHead => cases t <;> decide
  | clearResult => cases t <;> decide
  | inc p => cases t <;> cases p <;> decide
  | dec p => cases t <;> cases p <;> decide
  | add p n =>
    show '\n' ∉ ("add " ++ p.text ++ ", " ++ toString n).toList
    rw [String.toList_append, Nat.toString_eq_repr, Nat.toList_repr]
    exact newline_notMem_number (by cases p <;> decide) n
  | sub p n =>
    show '\n' ∉ ("sub " ++ p.text ++ ", " ++ toString n).toList
    rw [String.toList_append, Nat.toString_eq_repr, Nat.toList_repr]
    exact newline_notMem_number (by cases p <;> decide) n
  | loadArgument => cases t <;> decide
  | storeResult => cases t <;> decide
  | call r => cases t <;> cases r <;> decide
  | testCell => cases t <;> decide
  | testEof => cases t <;> decide
  | jumpIfEqual l =>
    show '\n' ∉ ("je " ++ l.text t).toList
    rw [String.toList_append]
    exact newline_notMem_append (by decide) (l.isOrdinary_text t)
  | jumpIfNotEqual l =>
    show '\n' ∉ ("jne " ++ l.text t).toList
    rw [String.toList_append]
    exact newline_notMem_append (by decide) (l.isOrdinary_text t)
  | jump l =>
    show '\n' ∉ ("jmp " ++ l.text t).toList
    rw [String.toList_append]
    exact newline_notMem_append (by decide) (l.isOrdinary_text t)
  | ret => cases t <;> decide

theorem newline_notMem_line (t : Target) (l : Line) (h : l ≠ .tapeDeclaration) :
    '\n' ∉ (l.text t).toList := by
  cases l with
  | textSection => cases t <;> decide
  | exportEntry => cases t <;> decide
  | entry => cases t <;> decide
  | label l =>
    rw [Line.text, String.toList_append]
    intro h
    rcases List.mem_append.mp h with h | h
    · exact X86.newline_notMem_of_ordinary (l.isOrdinary_text t) h
    · exact absurd h (by decide)
  | instr i => exact newline_notMem_instr t i
  | loopComment pos =>
    show '\n' ∉ ("# loop at " ++ (toString pos.line ++ ":" ++ toString pos.column)).toList
    simp only [String.toList_append, Nat.toString_eq_repr, Nat.toList_repr]
    rw [← List.append_assoc, ← List.append_assoc]
    refine newline_notMem_number ?_ _
    intro h
    rcases List.mem_append.mp h with h | h
    · exact newline_notMem_number (by decide) _ h
    · exact absurd h (by decide)
  | blank => cases t <;> decide
  | tapeDeclaration => exact absurd rfl h

end Newline

end Assembly

namespace X86.File

/-- Whatever follows it, the text is read as these statements. -/
def Reads (text : List Char) (file : File) : Prop :=
  ∀ rest after, ofLines? (rest.splitOn '\n') = some after →
    ofLines? ((text ++ rest).splitOn '\n') = some (file ++ after)

namespace Reads

variable {text text' : List Char} {file file' : File}

theorem nil : Reads [] [] := fun _ _ h => h

theorem append (h : Reads text file) (h' : Reads text' file') :
    Reads (text ++ text') (file ++ file') := by
  intro rest after hrest
  rw [List.append_assoc, List.append_assoc]
  exact h _ _ (h' rest after hrest)

theorem ofLine (line : List Char) (hline : '\n' ∉ line)
    (h : statement? (words [] line) = some file) :
    Reads (line ++ ['\n']) file := by
  intro rest after hrest
  rw [List.append_assoc, List.singleton_append, List.splitOn_append_cons_self_of_not_mem hline,
    ofLines?, h, hrest]
  rfl

theorem ofLines? (h : Reads text file) : File.ofLines? (text.splitOn '\n') = some file := by
  have hend := h [] [] rfl
  rw [List.append_nil, List.append_nil] at hend
  exact hend

end Reads

end X86.File

namespace Assembly

open X86.File

theorem reads_line (t : Target) (indented : Bool) (l : Line) (h : l ≠ .tapeDeclaration) :
    Reads (l.render t indented).toList (l.statements t) := by
  have hstatement := statement?_line t l h
  have hline := newline_notMem_line t l h
  unfold Line.render
  rw [String.toList_append, String.toList_append]
  by_cases hindent : (indented && l.isIndentable) = true
  · rw [if_pos hindent]
    refine .ofLine _ (fun hmem => ?_) hstatement
    rcases List.mem_append.mp hmem with hmem | hmem
    · exact absurd hmem (by decide)
    · exact hline hmem
  · rw [if_neg hindent]
    exact .ofLine _ hline hstatement

theorem reads_tapeDeclaration (t : Target) :
    Reads (Line.render t false .tapeDeclaration).toList [.zeroed t.tape cellCount] := by
  have hzerofill : Reads ".zerofill __DATA,__bss,_tape,65536,4\n".toList
      [.zeroed "_tape" cellCount] :=
    .ofLine ".zerofill __DATA,__bss,_tape,65536,4".toList (by decide) rfl
  have hlocal : Reads ".local tape\n".toList [] := .ofLine ".local tape".toList (by decide) rfl
  have hcomm : Reads ".comm tape,65536,16\n".toList [.zeroed "tape" cellCount] :=
    .ofLine ".comm tape,65536,16".toList (by decide) rfl
  cases t with
  | darwin => exact hzerofill
  | linux => exact hlocal.append hcomm

theorem reads_prologue (t : Target) :
    Reads (String.join (t.prologue.map fun line => line ++ "\n")).toList [] := by
  have hsyntax : Reads ".intel_syntax noprefix\n".toList [] :=
    .ofLine ".intel_syntax noprefix".toList (by decide) rfl
  have hnote : Reads ".section .note.GNU-stack,\"\",@progbits\n".toList [] :=
    .ofLine ".section .note.GNU-stack,\"\",@progbits".toList (by decide) rfl
  have hblank : Reads "\n".toList [] := .ofLine [] (by decide) rfl
  cases t with
  | darwin => exact hsyntax.append hblank
  | linux => exact hsyntax.append (hnote.append hblank)

theorem reads_lines (t : Target) (indented : Bool) (ls : List Line)
    (h : ∀ l ∈ ls, l ≠ .tapeDeclaration) :
    Reads (String.join (ls.map (Line.render t indented))).toList
      (ls.flatMap (Line.statements t)) := by
  induction ls with
  | nil => exact .nil
  | cons l rest ih =>
    rw [List.map_cons, String.join_cons, String.toList_append, List.flatMap_cons]
    exact (reads_line t indented l (h l List.mem_cons_self)).append
      (ih fun l hl => h l (List.mem_cons_of_mem _ hl))

/-- Lines inside the code, as opposed to those that frame it. -/
def Line.isCode : Line → Bool
  | label _ | instr _ | loopComment _ => true
  | textSection | exportEntry | entry | blank | tapeDeclaration => false

theorem Line.ne_tapeDeclaration_of_isCode {l : Line} (h : l.isCode = true) :
    l ≠ .tapeDeclaration := by
  intro heq
  rw [heq] at h
  cases h

theorem labels_of_isCode (t : Target) {ls : List Line} (h : ∀ l ∈ ls, l.isCode = true) :
    labels (ls.flatMap (Line.statements t)) = (Draft.definedLabels ls).map (Label.text t) := by
  induction ls with
  | nil => rfl
  | cons l rest ih =>
    have hrest := ih fun l hl => h l (List.mem_cons_of_mem _ hl)
    have hl := h l List.mem_cons_self
    unfold labels Draft.definedLabels at hrest ⊢
    rw [List.flatMap_cons, List.filterMap_append, hrest]
    cases l with
    | label _ => rfl
    | instr _ => rfl
    | loopComment _ => rfl
    | textSection => cases hl
    | exportEntry => cases hl
    | entry => cases hl
    | blank => cases hl
    | tapeDeclaration => cases hl

end Assembly

namespace Draft

theorem all_isCode_instrs (instrs : List Assembly.Instr) :
    (instrs.map Assembly.Line.instr).all Assembly.Line.isCode = true := by
  induction instrs with
  | nil => rfl
  | cons i rest ih => exact ih

theorem all_isCode_wrote (o : Options) (d : Draft) (c : Call) :
    (d.wrote o c).all Assembly.Line.isCode = true := by
  obtain ⟨updates, -, hwrote⟩ := d.wrote_eq o c
  rw [hwrote, List.all_append, all_isCode_instrs, Bool.true_and]
  cases c with
  | op op pos =>
    cases op with
    | increment | decrement | moveLeft | moveRight | output => rfl
    | input =>
      rw [fragment]
      cases o.eof <;> rfl
  | enterLoop pos => rfl
  | exitLoop pos =>
    rw [fragment]
    cases d.loops <;> rfl
  | finish => exact all_isCode_instrs _

theorem all_isCode_code (o : Options) (d : Draft) (cs : List Call) :
    (d.code o cs).all Assembly.Line.isCode = true :=
  all_code (fun d c _ => all_isCode_wrote o d c) d

end Draft

namespace Program

open Assembly X86.File

/-- The file that the assembly of a program is read as. -/
def file (o : Options) (p : Program) : X86.File :=
  .label o.target.entryPoint :: ((p.codeLines o {}).flatMap (Line.statements o.target) ++
    [.zeroed o.target.tape cellCount])

/-- The same for a program that is written after other code, which has led to the draft `d`. -/
def fileFrom (o : Options) (d : Draft) (p : Program) : X86.File :=
  .label o.target.entryPoint :: ((p.codeLines o d).flatMap (Line.statements o.target) ++
    [.zeroed o.target.tape cellCount])

theorem isCode_of_mem_codeLines {o : Options} {d : Draft} {p : Program} {l : Line}
    (h : l ∈ p.codeLines o d) : l.isCode = true := by
  rcases List.mem_append.mp h with h | h
  · exact List.all_eq_true.mp (Draft.all_isCode_instrs _) l h
  · exact List.all_eq_true.mp (Draft.all_isCode_code _ _ _) l h

theorem labels_fileFrom (o : Options) (d : Draft) (p : Program) :
    (p.fileFrom o d).labels = o.target.entryPoint ::
      (Draft.definedLabels (d.code o p.calls)).map (Label.text o.target) := by
  have hcode : Draft.definedLabels (p.codeLines o d) =
      Draft.definedLabels (d.code o p.calls) := by
    rw [codeLines, Draft.definedLabels_append, Draft.definedLabels_instrs, List.nil_append]
  have hlabels := labels_of_isCode o.target fun l (hl : l ∈ p.codeLines o d) =>
    isCode_of_mem_codeLines hl
  rw [hcode] at hlabels
  unfold labels at hlabels ⊢
  rw [fileFrom, List.filterMap_cons, List.filterMap_append, hlabels]
  simp

theorem labels_file (o : Options) (p : Program) :
    (p.file o).labels = o.target.entryPoint ::
      (Draft.definedLabels (Draft.code o {} p.calls)).map (Label.text o.target) :=
  p.labels_fileFrom o {}

/-- Different labels have different names, and none is called like the entry. -/
theorem nodup_names (t : Target) {ls : List Label} (h : ls.Nodup) :
    (t.entryPoint :: ls.map (Label.text t)).Nodup := by
  rw [List.nodup_cons]
  constructor
  · intro hmem
    obtain ⟨l, -, hl⟩ := List.mem_map.mp hmem
    exact l.text_ne_entryPoint t hl
  · exact List.Pairwise.map _ (fun l l' hne heq => hne (Label.text_injective t heq)) h

theorem nodup_labels_file (o : Options) (p : Program) : (p.file o).labels.Nodup := by
  obtain ⟨hnodup, -⟩ := Draft.nodup_definedLabels o p.calls {} Draft.numbered_empty
  rw [labels_file]
  exact nodup_names o.target hnodup

/-- The texts of a program are read in full, whatever has been written before. -/
theorem reads_texts (o : Options) (d : Draft) (p : Program) :
    Reads (String.join (p.texts o d)).toList (p.fileFrom o d) := by
  have hheader := reads_lines o.target false [.textSection, .exportEntry, .entry] (by decide)
  have hcode := reads_lines o.target true (p.codeLines o d) fun l hl =>
    Line.ne_tapeDeclaration_of_isCode (isCode_of_mem_codeLines hl)
  have hend := (reads_line o.target false .blank (by decide)).append
    (reads_tapeDeclaration o.target)
  have hall := (reads_prologue o.target).append (hheader.append (hcode.append hend))
  simpa [texts, fileFrom, Line.statements, String.join_append] using hall

/-- The assembly of a program can be read, and this is what it says. -/
theorem ofText?_assembly (o : Options) (p : Program) :
    ofText? (p.assembly o).toList = some (p.file o) := by
  have hreads : Reads (p.assembly o).toList (p.file o) := p.reads_texts o {}
  rw [ofText?, hreads.ofLines?, Option.filter_some, if_pos]
  exact decide_eq_true (p.nodup_labels_file o)

end Program

end TapeLang
