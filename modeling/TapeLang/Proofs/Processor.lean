/-!
A processor that executes assembly files. Only what compiled programs use is here: six registers
with their narrower parts, memory, the zero flag, and the two library routines for input and
output, which come from outside. An instruction works on as many bits as its destination has.
Results are cut off at this width; a narrow result leaves the upper bits of a register as they
are, except that a 32-bit result clears them.
-/
namespace TapeLang.X86

inductive Reg where
  | rax
  | rdi
  | rbp
  | rsp
  | r12
  | r13
  deriving DecidableEq, Repr, Inhabited

/-- Whether a routine has to leave the register to its caller as it was. -/
def Reg.isPreserved : Reg → Bool
  | rax | rdi => false
  | rbp | rsp | r12 | r13 => true

inductive Width where
  | byte
  | word
  | dword
  | qword
  deriving DecidableEq, Repr, Inhabited

/-- The number of values of this width. -/
def Width.modulus : Width → Nat
  | byte => UInt8.size
  | word => UInt16.size
  | dword => UInt32.size
  | qword => UInt64.size

/-- What an instruction can write to: part of a register, or a byte in memory whose address is the
sum of two registers. -/
inductive Location where
  | reg (r : Reg) (w : Width)
  | byteAt (base index : Reg)
  deriving DecidableEq, Repr, Inhabited

def Location.width : Location → Width
  | reg _ w => w
  | byteAt _ _ => .byte

inductive Operand where
  | loc (l : Location)
  | imm (n : Int)
  deriving DecidableEq, Repr, Inhabited

inductive Instr where
  | push (r : Reg)
  | pop (r : Reg)
  | mov (dst : Location) (src : Operand)
  | movzx (dst src : Location)
  | lea (dst : Reg) (symbol : String)
  | inc (dst : Location)
  | dec (dst : Location)
  | add (dst : Location) (src : Operand)
  | sub (dst : Location) (src : Operand)
  | xor (dst : Location) (src : Operand)
  | cmp (dst : Location) (src : Operand)
  | call (symbol : String)
  | jmp (label : String)
  | je (label : String)
  | jne (label : String)
  | ret
  deriving DecidableEq, Repr, Inhabited

/-- What a line of a file says to the assembler. -/
inductive Statement where
  | label (name : String)
  | instr (i : Instr)
  | zeroed (symbol : String) (size : Nat)
  deriving DecidableEq, Repr, Inhabited

abbrev File := List Statement

/-- The state of the processor: its place in the file, its registers and zero flag, the memory, the
bytes still to be read and those written. What lies behind the library routines is kept apart. -/
structure Cpu (α : Type) where
  pc : Nat
  regs : Reg → UInt64
  zero : Bool
  memory : UInt64 → UInt8
  input : List UInt8
  output : List UInt8
  outside : α

namespace Width

/-- A register after a result of this width has been written to it. -/
def merge (w : Width) (old : UInt64) (v : Nat) : UInt64 :=
  match w with
  | byte | word => UInt64.ofNat (old.toNat / w.modulus * w.modulus + v % w.modulus)
  | dword | qword => UInt64.ofNat (v % w.modulus)

end Width

/-- The number that the given count of bytes spells, the lowest first. -/
def load (m : UInt64 → UInt8) (a : UInt64) : Nat → Nat
  | 0 => 0
  | n + 1 => (m a).toNat + 256 * load m (a + 1) n

/-- The memory after eight bytes that spell a number, the lowest first, have been written. -/
def store (m : UInt64 → UInt8) (a v : UInt64) : UInt64 → UInt8 := fun b =>
  if (b - a).toNat < 8 then UInt8.ofNat (v.toNat >>> (8 * (b - a).toNat)) else m b

namespace Cpu

variable {α : Type}

def next (c : Cpu α) : Cpu α := { c with pc := c.pc + 1 }

def setReg (c : Cpu α) (r : Reg) (v : UInt64) : Cpu α :=
  { c with regs := fun r' => if r' = r then v else c.regs r' }

def read (c : Cpu α) : Location → Nat
  | .reg r w => (c.regs r).toNat % w.modulus
  | .byteAt base index => (c.memory (c.regs base + c.regs index)).toNat

def value (c : Cpu α) (w : Width) : Operand → Nat
  | .loc l => c.read l
  | .imm n => (n % w.modulus).toNat

def write (c : Cpu α) (v : Nat) : Location → Cpu α
  | .reg r w => c.setReg r (w.merge (c.regs r) v)
  | .byteAt base index =>
    { c with
      memory := fun a =>
        if a = c.regs base + c.regs index then UInt8.ofNat v else c.memory a }

/-- Write the result of a computation, of which the zero flag takes note. -/
def compute (c : Cpu α) (dst : Location) (v : Nat) : Cpu α :=
  let result := v % dst.width.modulus
  { c.write result dst with zero := result = 0 }

def push (c : Cpu α) (r : Reg) : Cpu α :=
  { c.setReg .rsp (c.regs .rsp - 8) with
    memory := store c.memory (c.regs .rsp - 8) (c.regs r) }

def pop (c : Cpu α) (r : Reg) : Cpu α :=
  (c.setReg .rsp (c.regs .rsp + 8)).setReg r (UInt64.ofNat (load c.memory (c.regs .rsp) 8))

end Cpu

namespace File

def labels (file : File) : List String :=
  file.filterMap fun
    | .label name => some name
    | _ => none

/-- Where a label stands. -/
def target? (file : File) (name : String) : Option Nat :=
  file.findIdx? (· = .label name)

end File

/-- What a file is linked with: the addresses of its symbols and the library routines. A routine is
described by all that happens between its call and its return. -/
structure Library (α : Type) where
  address : String → UInt64
  putchar : Cpu α → Cpu α
  getchar : Cpu α → Cpu α

namespace Library

variable {α : Type}

/-- The routines by the names that the two platforms have for them. -/
def routine? (lib : Library α) : String → Option (Cpu α → Cpu α)
  | "putchar@PLT" | "_putchar" => some lib.putchar
  | "getchar@PLT" | "_getchar" => some lib.getchar
  | _ => none

/-- Carry out one instruction. Returning is left to the caller, so there is nothing after it. -/
def exec (lib : Library α) (file : File) (c : Cpu α) : Instr → Option (Cpu α)
  | .push r => some (c.push r).next
  | .pop r => some (c.pop r).next
  | .mov dst src => some (c.write (c.value dst.width src) dst).next
  | .movzx dst src => some (c.write (c.read src) dst).next
  | .lea dst symbol => some (c.setReg dst (lib.address symbol)).next
  | .inc dst => some (c.compute dst (c.read dst + 1)).next
  | .dec dst => some (c.compute dst (c.read dst + (dst.width.modulus - 1))).next
  | .add dst src => some (c.compute dst (c.read dst + c.value dst.width src)).next
  | .sub dst src =>
    some (c.compute dst (c.read dst + (dst.width.modulus - c.value dst.width src))).next
  | .xor dst src => some (c.compute dst (c.read dst ^^^ c.value dst.width src)).next
  | .cmp dst src => some { c.next with zero := c.read dst = c.value dst.width src }
  | .call symbol => (lib.routine? symbol).map fun routine => { routine c with pc := c.pc + 1 }
  | .jmp label => (file.target? label).map fun pc => { c with pc }
  | .je label => if c.zero then (file.target? label).map fun pc => { c with pc } else some c.next
  | .jne label => if c.zero then some c.next else (file.target? label).map fun pc => { c with pc }
  | .ret => none

/-- One step. There is none from a return, from reserved memory or from behind the file. -/
def step (lib : Library α) (file : File) (c : Cpu α) : Option (Cpu α) :=
  match file[c.pc]? with
  | some (.instr i) => lib.exec file c i
  | some (.label _) => some c.next
  | some (.zeroed _ _) => none
  | none => none

/-- So many steps. -/
def run (lib : Library α) (file : File) : Nat → Cpu α → Option (Cpu α)
  | 0, c => some c
  | n + 1, c => (lib.step file c).bind (lib.run file n)

end Library

namespace File

variable {α : Type}

/-- The addresses of the memory that the file reserves. -/
def Reserves (file : File) (lib : Library α) (a : UInt64) : Prop :=
  ∃ symbol size k, .zeroed symbol size ∈ file ∧ k < size ∧ a = lib.address symbol + UInt64.ofNat k

/-- The bytes that the code puts on the stack for the registers of its caller. -/
def savedBytes : UInt64 := 24

/-- What a caller promises: execution starts at the entry, the reserved memory is zero, and the
stack has room apart from it. -/
structure EnteredAt (file : File) (lib : Library α) (entry : String) (c : Cpu α) : Prop where
  pc : file.target? entry = some c.pc
  zeroed : ∀ a, file.Reserves lib a → c.memory a = 0
  apart : ∀ k, k < savedBytes → ¬ file.Reserves lib (c.regs .rsp - savedBytes + k)

/-- The next instruction is the return. -/
def Returns (file : File) (c : Cpu α) : Prop := file[c.pc]? = some (.instr .ret)

end File

namespace Library

variable {α : Type}

/-- What a routine leaves as it was: the preserved registers, the memory that the file reserves,
and what its caller has put on the stack. -/
structure Spares (lib : Library α) (file : File) (c c' : Cpu α) : Prop where
  regs : ∀ r, r.isPreserved → c'.regs r = c.regs r
  reserved : ∀ a, file.Reserves lib a → c'.memory a = c.memory a
  stack : ∀ k, k < File.savedBytes → c'.memory (c.regs .rsp + k) = c.memory (c.regs .rsp + k)

/-- The number that reading a byte answers: the byte, or -1 as a 32-bit number at the end. -/
def answer : List UInt8 → Nat
  | [] => UInt32.size - 1
  | b :: _ => b.toNat

/-- Called with the given stack pointer, the routines do what their descriptions say. -/
structure Lawful (lib : Library α) (file : File) (sp : UInt64) : Prop where
  putchar_spares : ∀ c, c.regs .rsp = sp → lib.Spares file c (lib.putchar c)
  putchar_input : ∀ c, c.regs .rsp = sp → (lib.putchar c).input = c.input
  putchar_output : ∀ c, c.regs .rsp = sp →
    (lib.putchar c).output = c.output ++ [(c.regs .rdi).toUInt8]
  getchar_spares : ∀ c, c.regs .rsp = sp → lib.Spares file c (lib.getchar c)
  getchar_input : ∀ c, c.regs .rsp = sp → (lib.getchar c).input = c.input.tail
  getchar_output : ∀ c, c.regs .rsp = sp → (lib.getchar c).output = c.output
  getchar_result : ∀ c, c.regs .rsp = sp →
    ((lib.getchar c).regs .rax).toNat % UInt32.size = answer c.input

section Run

variable (lib : Library α) (file : File)

theorem run_add (n k : Nat) (c : Cpu α) :
    lib.run file (n + k) c = (lib.run file n c).bind (lib.run file k) := by
  induction n generalizing c with
  | zero => rw [Nat.zero_add]; rfl
  | succ n ih =>
    rw [Nat.add_right_comm, run, run]
    cases lib.step file c with
    | none => rfl
    | some c₁ => exact ih c₁

variable {lib file}

theorem run_trans {n k : Nat} {c c₁ c₂ : Cpu α} (h : lib.run file n c = some c₁)
    (h' : lib.run file k c₁ = some c₂) : lib.run file (n + k) c = some c₂ := by
  rw [run_add, h]
  exact h'

theorem run_one {c c₁ : Cpu α} (h : lib.step file c = some c₁) : lib.run file 1 c = some c₁ := by
  rw [run, h]
  rfl

theorem step_of_returns {c : Cpu α} (h : file.Returns c) : lib.step file c = none := by
  unfold step
  rw [h]
  rfl

/-- A run up to a return passes every state that is reached on the way. -/
theorem run_split {n k : Nat} {c c₁ c₂ : Cpu α} (hend : lib.run file n c = some c₂)
    (hreturns : file.Returns c₂) (h : lib.run file k c = some c₁) :
    k ≤ n ∧ lib.run file (n - k) c₁ = some c₂ := by
  by_cases hle : k ≤ n
  · refine ⟨hle, ?_⟩
    have hsplit := run_add lib file k (n - k) c
    rw [Nat.add_sub_cancel' hle, hend, h] at hsplit
    exact hsplit.symm
  · have hsplit := run_add lib file n (k - n - 1 + 1) c
    rw [show n + (k - n - 1 + 1) = k by omega, hend, h] at hsplit
    simp only [Option.bind_some, run, step_of_returns hreturns, Option.bind_none] at hsplit
    cases hsplit

end Run

end Library

namespace File

theorem mem_labels {file : File} {k : Nat} {name : String} (h : file[k]? = some (.label name)) :
    name ∈ file.labels :=
  List.mem_filterMap.mpr ⟨.label name, List.mem_of_getElem? h, rfl⟩

/-- Where no label stands twice, a label leads to the place where it stands. -/
theorem target?_of_label {file : File} {k : Nat} {name : String} (hnodup : file.labels.Nodup)
    (h : file[k]? = some (.label name)) : file.target? name = some k := by
  induction file generalizing k with
  | nil => cases h
  | cons s rest ih =>
    unfold target? at ih ⊢
    rw [List.findIdx?_cons]
    cases k with
    | zero =>
      obtain rfl : s = .label name := Option.some.inj h
      rw [if_pos (by simp)]
    | succ k =>
      have hne : s ≠ .label name := by
        intro heq
        rw [heq] at hnodup
        exact (List.nodup_cons.mp hnodup).1 (mem_labels h)
      have hrest : labels rest |>.Nodup := by
        cases s with
        | label other => exact (List.nodup_cons.mp hnodup).2
        | instr i => exact hnodup
        | zeroed symbol size => exact hnodup
      rw [if_neg (by simpa using hne), ih hrest h]
      rfl

/-- The statements stand in the file from `pc` on. -/
def At (file : File) : Nat → List Statement → Prop
  | _, [] => True
  | pc, s :: rest => file[pc]? = some s ∧ file.At (pc + 1) rest

theorem at_append {file : File} {pc : Nat} {xs ys : List Statement} :
    file.At pc (xs ++ ys) ↔ file.At pc xs ∧ file.At (pc + xs.length) ys := by
  induction xs generalizing pc with
  | nil => exact ⟨fun h => ⟨trivial, h⟩, fun h => h.2⟩
  | cons x xs ih =>
    have hlength : pc + (x :: xs).length = pc + 1 + xs.length := by
      rw [List.length_cons]
      omega
    rw [List.cons_append, At, At, ih, hlength, and_assoc]

theorem at_of_append (before xs after : List Statement) :
    At (before ++ xs ++ after) before.length xs := by
  induction xs generalizing before with
  | nil => exact trivial
  | cons x xs ih =>
    have hrest := ih (before ++ [x])
    constructor
    · simp
    · simpa using hrest

end File

namespace Library

variable {α : Type} {lib : Library α} {file : File}

/-- Execution comes from `c` to a state at `pc` that has the property. -/
def Reaches (lib : Library α) (file : File) (c : Cpu α) (pc : Nat) (P : Cpu α → Prop) : Prop :=
  ∃ n c', lib.run file n c = some c' ∧ c'.pc = pc ∧ P c'

namespace Reaches

variable {c c₁ : Cpu α} {pc pc' : Nat} {P Q : Cpu α → Prop}

theorem refl (hpc : c.pc = pc) (h : P c) : lib.Reaches file c pc P := ⟨0, c, rfl, hpc, h⟩

theorem step (hstep : lib.step file c = some c₁) (h : lib.Reaches file c₁ pc P) :
    lib.Reaches file c pc P := by
  obtain ⟨n, c', hrun, hpc, hP⟩ := h
  refine ⟨n + 1, c', ?_, hpc, hP⟩
  rw [run, hstep]
  exact hrun

theorem trans (h : lib.Reaches file c pc P)
    (h' : ∀ c', c'.pc = pc → P c' → lib.Reaches file c' pc' Q) : lib.Reaches file c pc' Q := by
  obtain ⟨n, c₁, hrun, hpc, hP⟩ := h
  obtain ⟨k, c₂, hrun', hpc', hQ⟩ := h' c₁ hpc hP
  exact ⟨n + k, c₂, run_trans hrun hrun', hpc', hQ⟩

end Reaches

/-- So many steps lead from here to a return. -/
def Ends (lib : Library α) (file : File) (n : Nat) (c : Cpu α) : Prop :=
  ∃ c', lib.run file n c = some c' ∧ file.Returns c'

namespace Ends

theorem step {n : Nat} {c c₁ : Cpu α} (h : lib.Ends file n c)
    (hstep : lib.step file c = some c₁) : ∃ n', n' < n ∧ lib.Ends file n' c₁ := by
  obtain ⟨c', hrun, hreturns⟩ := h
  obtain ⟨hle, hrest⟩ := run_split hrun hreturns (run_one hstep)
  exact ⟨n - 1, by omega, c', hrest, hreturns⟩

theorem reaches {n pc : Nat} {c : Cpu α} {P : Cpu α → Prop} (h : lib.Ends file n c)
    (hreaches : lib.Reaches file c pc P) :
    ∃ n' c', n' ≤ n ∧ c'.pc = pc ∧ P c' ∧ lib.Ends file n' c' := by
  obtain ⟨c₂, hrun, hreturns⟩ := h
  obtain ⟨k, c', hrun', hpc, hP⟩ := hreaches
  obtain ⟨hle, hrest⟩ := run_split hrun hreturns hrun'
  exact ⟨n - k, c', by omega, hpc, hP, c₂, hrest, hreturns⟩

end Ends

theorem returns_unique {n k : Nat} {c c₁ c₂ : Cpu α} (h₁ : lib.run file n c = some c₁)
    (hreturns₁ : file.Returns c₁) (h₂ : lib.run file k c = some c₂) (hreturns₂ : file.Returns c₂) :
    c₁ = c₂ := by
  obtain ⟨hle, hrest⟩ := run_split h₁ hreturns₁ h₂
  obtain ⟨hge, -⟩ := run_split h₂ hreturns₂ h₁
  rw [show n - k = 0 by omega] at hrest
  exact (Option.some.inj hrest).symm

theorem jump_eq {c : Cpu α} {name : String} {k : Nat} (hnodup : file.labels.Nodup)
    (h : file[k]? = some (.label name)) :
    ((file.target? name).map fun pc => { c with pc }) = some { c with pc := k } := by
  rw [File.target?_of_label hnodup h]
  rfl

theorem step_instr {c c' : Cpu α} {i : Instr} (h : file[c.pc]? = some (.instr i))
    (hexec : lib.exec file c i = some c') : lib.step file c = some c' := by
  unfold step
  rw [h]
  exact hexec

theorem exec_xor_self (c : Cpu α) (r : Reg) :
    lib.exec file c (.xor (.reg r .dword) (.loc (.reg r .dword))) =
      some { (c.setReg r 0).next with zero := true } := by
  show some (c.compute (.reg r .dword) (c.read (.reg r .dword) ^^^ c.read (.reg r .dword))).next = _
  rw [Nat.xor_self]
  rfl

theorem step_label {c : Cpu α} {name : String} (h : file[c.pc]? = some (.label name)) :
    lib.step file c = some c.next := by
  unfold step
  rw [h]

end Library

section Memory

variable {m m' : UInt64 → UInt8} {a : UInt64}

theorem add_ofNat_succ (a : UInt64) (k : Nat) :
    a + UInt64.ofNat (k + 1) = a + 1 + UInt64.ofNat k := by
  rw [UInt64.ofNat_add]
  grind

theorem add_ofNat_zero (a : UInt64) : a + UInt64.ofNat 0 = a := by simp

theorem load_congr {n : Nat}
    (h : ∀ k, k < n → m (a + UInt64.ofNat k) = m' (a + UInt64.ofNat k)) :
    load m a n = load m' a n := by
  induction n generalizing a with
  | zero => rfl
  | succ n ih =>
    have hfirst := h 0 (Nat.succ_pos n)
    rw [add_ofNat_zero] at hfirst
    have hrest : ∀ k, k < n →
        m (a + 1 + UInt64.ofNat k) = m' (a + 1 + UInt64.ofNat k) := by
      intro k hk
      rw [← add_ofNat_succ]
      exact h (k + 1) (by omega)
    rw [load, load, ih hrest, hfirst]

theorem load_of_bytes {n v : Nat} (hv : v >>> (8 * n) = 0)
    (h : ∀ k, k < n → m (a + UInt64.ofNat k) = UInt8.ofNat (v >>> (8 * k))) :
    load m a n = v := by
  induction n generalizing a v with
  | zero => exact hv.symm
  | succ n ih =>
    have hfirst : m a = UInt8.ofNat v := by
      have hzero := h 0 (Nat.succ_pos n)
      rw [add_ofNat_zero] at hzero
      exact hzero
    have hshift (k : Nat) : v >>> (8 * (k + 1)) = v >>> 8 >>> (8 * k) := by
      rw [← Nat.shiftRight_add, Nat.mul_succ, Nat.add_comm]
    have hrest : ∀ k, k < n →
        m (a + 1 + UInt64.ofNat k) = UInt8.ofNat (v >>> 8 >>> (8 * k)) := by
      intro k hk
      rw [← add_ofNat_succ, h (k + 1) (by omega), hshift]
    have hbyte : (UInt8.ofNat v).toNat = v % 256 := UInt8.toNat_ofNat'
    have hupper : v >>> 8 = v / 256 := Nat.shiftRight_eq_div_pow v 8
    rw [hshift] at hv
    rw [load, ih hv hrest, hfirst, hbyte, hupper]
    omega

theorem store_of_lt {b : UInt64} (v : UInt64) (h : (b - a).toNat < 8) :
    store m a v b = UInt8.ofNat (v.toNat >>> (8 * (b - a).toNat)) := if_pos h

theorem store_of_le {b : UInt64} (v : UInt64) (h : 8 ≤ (b - a).toNat) : store m a v b = m b :=
  if_neg (Nat.not_lt.mpr h)

theorem load_store (v : UInt64) : load (store m a v) a 8 = v.toNat := by
  have hbytes : ∀ k, k < 8 →
      store m a v (a + UInt64.ofNat k) = UInt8.ofNat (v.toNat >>> (8 * k)) := by
    intro k hk
    have hoffset : (a + UInt64.ofNat k - a).toNat = k := by
      rw [show a + UInt64.ofNat k - a = UInt64.ofNat k by grind]
      exact UInt64.toNat_ofNat_of_lt' (Nat.lt_trans hk (by decide))
    rw [store_of_lt v (by omega), hoffset]
  have hsmall : v.toNat >>> (8 * 8) = 0 := by
    rw [Nat.shiftRight_eq_div_pow]
    exact Nat.div_eq_of_lt v.toNat_lt
  exact load_of_bytes hsmall hbytes

theorem load_store_of_apart {b : UInt64} {i : Nat} (v : UInt64) (ha : a = b + UInt64.ofNat i)
    (hle : 8 ≤ i) (hlt : i < 256) : load (store m b v) a 8 = load m a 8 := by
  apply load_congr
  intro k hk
  have hoffset : (a + UInt64.ofNat k - b).toNat = i + k := by
    have heq : a + UInt64.ofNat k - b = UInt64.ofNat (i + k) := by
      rw [ha, UInt64.ofNat_add]
      grind
    rw [heq]
    exact UInt64.toNat_ofNat_of_lt' (Nat.lt_trans (by omega : i + k < 264) (by decide))
  exact store_of_le v (by omega)

end Memory

end TapeLang.X86
